import VortexMQ.Bufio.Reader
import VortexMQ.Protocol.Reader

/-!
# Reading commands from a connection

`VortexMQ.Protocol.Reader` reads commands from a stream of bytes that is there as a whole. Here the
`Reader` of `internal/protocol/resp.go` works on the buffer of a connection: it goes on as far as
the contents of the buffer go, and stops at every `Read` of the connection.

The arguments of a command are slices now. Those of an array have memory of their own. The words of
a line are views of the buffer, unless the line was too long for it and had to be put together from
pieces.

What is left of a call of `ReadCommand` can be expressed by the functions on streams
(`Phase.resume`), and no step changes the outcome. So the commands are those of the stream, however
the stream arrives.
-/

namespace VortexMQ

namespace Resp

/-- A slice of bytes: a view of the reader's buffer, or memory of its own. -/
inductive Slice where
  | view (v : View)
  | own (bytes : Bytes)
  deriving DecidableEq

namespace Slice

/-- The bytes of the slice, for given contents of the buffer. -/
def read (m : Memory) : Slice → Bytes
  | .view v => m.read v.off v.len
  | .own bytes => bytes

def view? : Slice → Option View
  | .view v => some v
  | .own _ => none

/-- The part of a slice between two positions. -/
def field (span : ℕ × ℕ) : Slice → Slice
  | .view v => .view ⟨v.off + span.1, span.2 - span.1⟩
  | .own bytes => .own (Text.slice bytes span)

private theorem read_field {m : Memory} {slice : Slice} {span : ℕ × ℕ}
    (h : span.2 ≤ (slice.read m).length) :
    (slice.field span).read m = Text.slice (slice.read m) span := by
  cases slice with
  | view v =>
    rw [read, Memory.length_read] at h
    exact (m.read_slice v.off h).symm
  | own bytes => rfl

end Slice

/-- An array command of which the arguments in front have been read, and so many are missing after
the next one. -/
structure ArrayInput where
  args : List (Option Bytes)
  more : ℕ

/-- Where `ReadCommand` is. -/
inductive Phase where
  /-- In `readLine`, after the pieces of a line that is too long for the buffer. The line is the
  first one of a command, or the one before an argument of an array. -/
  | line (pieces : Option Bytes) (array : Option ArrayInput)
  /-- In `io.ReadFull`, with the part of a bulk string and its line break that has been read. -/
  | bulk (bulkLen : ℕ) (buf : Bytes) (array : ArrayInput)
  /-- It has returned. -/
  | command (name : Bytes) (args : List (Option Slice))
  | failed (err : ReadError)

/-- The reader of a connection. -/
structure Reader where
  rd : BufReader bufferSize
  phase : Phase
  /-- A `Read` of the connection is under way. -/
  reading : Bool

namespace Phase

variable (upper : Char → Char)

/-- All arguments of an array have been read. -/
def ofArgs : List (Option Bytes) → Phase
  | [] => .failed .emptyArguments
  | word :: args => .command (Text.toUpper upper (word.getD [])) (args.map (Option.map .own))

/-- The end of a round of the loop over the arguments. -/
def ofArg (array : ArrayInput) (arg : Option Bytes) : Phase :=
  match array.more with
  | 0 => ofArgs upper (array.args ++ [arg])
  | more + 1 => .line none (some ⟨array.args ++ [arg], more⟩)

/-- The beginning of the round, after its line. -/
def ofArgLine (array : ArrayInput) (argLine : Bytes) : Phase :=
  if argLine.head? ≠ some 36 then .failed .notABulkString
  else
    match parseIntBytes argLine.tail with
    | none => .failed .invalidBulkLength
    | some bulkLen =>
        if maxBulkLength < bulkLen then .failed (.bulkTooLong bulkLen)
        else if bulkLen < 0 then ofArg upper array none
        else .bulk bulkLen.toNat [] array

/-- `ReadCommand` after its first line. -/
def ofCommandLine (m : Memory) (line : Slice) : Phase :=
  if line.read m = [] then .failed .emptyLine
  else if (line.read m).head? ≠ some 42 then
    match Text.fieldSpans (line.read m) with
    | [] => .failed .emptyInlineCommand
    | word :: words =>
        .command (Text.toUpper upper (Text.slice (line.read m) word))
          (words.map fun span ↦ some (line.field span))
  else
    match parseUintBytes (line.read m).tail with
    | none => .failed .invalidArrayLength
    | some count =>
        if count ≤ 0 then .failed .invalidArrayLength
        else if maxCommandArgs < count then .failed (.tooManyArguments count)
        else .line none (some ⟨[], count.toNat - 1⟩)

/-- After a line: the one in the view, or the pieces and what is in the view. -/
def ofLine (m : Memory) (pieces : Option Bytes) (v : View) (array : Option ArrayInput) : Phase :=
  let line : Slice :=
    match pieces with
    | none => .view v
    | some fullLine => .own (fullLine ++ m.read v.off v.len)
  match array with
  | none => ofCommandLine upper m line
  | some array => ofArgLine upper array (line.read m)

end Phase

namespace Reader

variable (upper : Char → Char) (r : Reader)

/-- `NewReader`, and the beginning of the first `ReadCommand`. -/
def new : Reader := ⟨.new, .line none none, false⟩

/-- The next call of `ReadCommand`. -/
def again : Reader := { r with phase := .line none none }

/-- Go on with what is in the buffer. -/
def parse : Option Reader :=
  if r.reading then none
  else
    match r.phase with
    | .line pieces array =>
        r.rd.readLine.map fun l ↦
          if l.1.2 then
            { r with
              rd := l.2
              phase := .line (some (pieces.getD [] ++ r.rd.view l.1.1)) array }
          else { r with rd := l.2, phase := .ofLine upper l.2.buf pieces l.1.1 array }
    | .bulk bulkLen buf array =>
        if bulkLen + 2 ≤ buf.length then
          some { r with phase := .ofArg upper array (some (buf.take bulkLen)) }
        else if r.rd.buffered = 0 then none
        else
          some { r with
            rd := r.rd.skip (bulkLen + 2 - buf.length)
            phase := .bulk bulkLen (buf ++ r.rd.unread.take (bulkLen + 2 - buf.length)) array }
    | .command .. | .failed _ => none

/-- So much is missing of a bulk string that it is read without the buffer. -/
def Direct : Prop :=
  match r.phase with
  | .bulk bulkLen buf _ => bufferSize ≤ bulkLen + 2 - buf.length
  | _ => False

instance : Decidable r.Direct := by
  unfold Direct
  split <;> infer_instance

/-- More is needed than there is in the buffer. -/
def Starved : Prop :=
  match r.phase with
  | .line .. => r.rd.readLine.isNone
  | .bulk bulkLen buf _ => buf.length < bulkLen + 2 ∧ r.rd.buffered = 0
  | _ => False

instance : Decidable r.Starved := by
  unfold Starved
  split <;> infer_instance

/-- Start a `Read` of the connection. In front of one into the buffer, `fill` slides the unread
bytes to the front. -/
def fill : Option Reader :=
  if r.reading = false ∧ r.Starved then
    some { r with rd := if r.Direct then r.rd else r.rd.slide, reading := true }
  else none

/-- The `Read` has returned bytes. -/
def receive (data : Bytes) : Option Reader :=
  if r.reading ∧ data ≠ [] then
    if r.Direct then
      match r.phase with
      | .bulk bulkLen buf array =>
          if data.length ≤ bulkLen + 2 - buf.length then
            some { r with phase := .bulk bulkLen (buf ++ data) array, reading := false }
          else none
      | _ => none
    else if h : r.rd.w + data.length ≤ bufferSize then
      some { r with rd := r.rd.receive data h, reading := false }
    else none
  else none

/-- The `Read` has returned an error, the end of the stream for one. Bytes that are left are a
line. -/
def hangup : Option Reader :=
  if r.reading then
    match r.phase with
    | .line pieces array =>
        if r.rd.unread = [] then some { r with phase := .failed .connection, reading := false }
        else
          some
            { rd := r.rd.skip r.rd.buffered
              phase := .ofLine upper r.rd.buf pieces ⟨r.rd.r, r.rd.buffered⟩ array
              reading := false }
    | .bulk .. => some { r with phase := .failed .connection, reading := false }
    | .command .. | .failed _ => none
  else none

end Reader

/-! ## Functions on streams -/

/-- A line of which the pieces in front have been read. -/
def continueLine (pieces s : Bytes) : Option (Bytes × Bytes) := readLineLoop (s.length + 1) pieces s

theorem length_lt_of_more {s s' line : Bytes}
    (h : Stream.readLine bufferSize s = some ((line, true), s')) : s'.length < s.length := by
  rw [Stream.readLine] at h
  split at h
  · exact absurd (Prod.mk.inj (Prod.mk.inj (Option.some_inj.mp h)).1).2 Bool.false_ne_true
  · split at h
    · rename_i hsize
      have hsize' : 65536 ≤ s.length := hsize
      split at h
      · rw [← (Prod.mk.inj (Option.some_inj.mp h)).2, List.length_drop, bufferSize]
        omega
      · rw [← (Prod.mk.inj (Option.some_inj.mp h)).2, List.length_drop, bufferSize]
        omega
    · split at h
      · exact absurd h (Option.some_ne_none _).symm
      · exact absurd (Prod.mk.inj (Prod.mk.inj (Option.some_inj.mp h)).1).2 Bool.false_ne_true

private theorem readLineLoop_eq : ∀ {fuel fuel' : ℕ} {pieces s : Bytes}, s.length < fuel →
    s.length < fuel' → readLineLoop fuel pieces s = readLineLoop fuel' pieces s := by
  intro fuel
  induction fuel with
  | zero => intro fuel' pieces s h; exact absurd h (Nat.not_lt_zero _)
  | succ fuel ih =>
    intro fuel' pieces s h h'
    obtain ⟨fuel', rfl⟩ := Nat.exists_eq_add_one_of_ne_zero (Nat.ne_zero_of_lt h')
    rw [readLineLoop, readLineLoop]
    refine Option.bind_congr fun r hr ↦ ?_
    obtain ⟨⟨line, more⟩, s'⟩ := r
    cases more with
    | false => rfl
    | true =>
      have hlt := length_lt_of_more hr
      exact ih (hlt.trans_le (Nat.le_of_lt_succ h)) (hlt.trans_le (Nat.le_of_lt_succ h'))

theorem continueLine_eq (pieces s : Bytes) :
    continueLine pieces s = (Stream.readLine bufferSize s).bind fun r ↦
      if r.1.2 then continueLine (pieces ++ r.1.1) r.2 else some (pieces ++ r.1.1, r.2) := by
  rw [continueLine, readLineLoop]
  refine Option.bind_congr fun r hr ↦ ?_
  obtain ⟨⟨line, more⟩, s'⟩ := r
  cases more with
  | false => rfl
  | true =>
    exact readLineLoop_eq (length_lt_of_more hr) (Nat.lt_succ_self _)

/-- `readArg` after its line. -/
def argOfLine (argLine s : Bytes) : Except ReadError (Option Bytes × Bytes) :=
  if argLine.head? ≠ some 36 then .error .notABulkString
  else
    match parseIntBytes argLine.tail with
    | none => .error .invalidBulkLength
    | some bulkLen =>
        if maxBulkLength < bulkLen then .error (.bulkTooLong bulkLen)
        else if bulkLen < 0 then .ok (none, s)
        else
          match readFull (bulkLen.toNat + 2) s with
          | none => .error .connection
          | some (buf, s) => .ok (some (buf.take bulkLen.toNat), s)

/-- A command of which the arguments in front have been read and `n` are missing. -/
def commandOfArgs (upper : Char → Char) (args : List (Option Bytes)) (n : ℕ) (s : Bytes) :
    Except ReadError (Command × Bytes) :=
  match readArgs n s with
  | .error err => .error err
  | .ok (more, s) =>
      match args ++ more with
      | [] => .error .emptyArguments
      | word :: args => .ok (⟨Text.toUpper upper (word.getD []), args⟩, s)

/-- `readCommand` after its first line. -/
def commandOfLine (upper : Char → Char) (line s : Bytes) : Except ReadError (Command × Bytes) :=
  if line = [] then .error .emptyLine
  else if line.head? ≠ some 42 then
    match Text.fields line with
    | [] => .error .emptyInlineCommand
    | word :: words => .ok (⟨Text.toUpper upper word, words.map some⟩, s)
  else
    match parseUintBytes line.tail with
    | none => .error .invalidArrayLength
    | some count =>
        if count ≤ 0 then .error .invalidArrayLength
        else if maxCommandArgs < count then .error (.tooManyArguments count)
        else commandOfArgs upper [] count.toNat s

private theorem commandOfArgs_nil (upper : Char → Char) (n : ℕ) (s : Bytes) :
    commandOfArgs upper [] n s = match readArgs n s with
      | .error err => .error err
      | .ok ([], _) => .error .emptyArguments
      | .ok (word :: args, s) => .ok (⟨Text.toUpper upper (word.getD []), args⟩, s) := by
  rw [commandOfArgs]
  cases readArgs n s with
  | error err => rfl
  | ok r =>
    obtain ⟨args, s⟩ := r
    cases args with
    | nil => rfl
    | cons word args => rfl

private theorem readArg_eq (s : Bytes) :
    readArg s = match continueLine [] s with
      | none => .error .connection
      | some (argLine, s) => argOfLine argLine s := rfl

theorem readCommand_eq (upper : Char → Char) (s : Bytes) :
    readCommand upper s = match continueLine [] s with
      | none => .error .connection
      | some (line, s) => commandOfLine upper line s := by
  rw [readCommand, readLine, ← continueLine]
  cases continueLine [] s with
  | none => rfl
  | some r =>
    obtain ⟨line, s⟩ := r
    refine ite_congr rfl (fun _ ↦ rfl) fun _ ↦ ite_congr rfl (fun _ ↦ rfl) fun _ ↦ ?_
    cases parseUintBytes line.tail with
    | none => rfl
    | some count =>
      refine ite_congr rfl (fun _ ↦ rfl) fun _ ↦ ite_congr rfl (fun _ ↦ rfl) fun _ ↦ ?_
      exact (commandOfArgs_nil upper count.toNat s).symm

theorem commandOfArgs_succ (upper : Char → Char) (args : List (Option Bytes)) (n : ℕ) (s : Bytes) :
    commandOfArgs upper args (n + 1) s = match readArg s with
      | .error err => .error err
      | .ok (arg, s) => commandOfArgs upper (args ++ [arg]) n s := by
  rw [commandOfArgs, readArgs]
  cases readArg s with
  | error err => rfl
  | ok r =>
    obtain ⟨arg, s⟩ := r
    simp only [commandOfArgs]
    cases readArgs n s with
    | error err => rfl
    | ok r => simp only [List.append_assoc, List.singleton_append]

/-! ## The rest of a call -/

namespace Phase

variable (upper : Char → Char) (m : Memory)

/-- What the call of `ReadCommand` comes to, on what is left of the stream. -/
def resume : Phase → Bytes → Except ReadError (Command × Bytes)
  | .line pieces none, s =>
      match continueLine (pieces.getD []) s with
      | none => .error .connection
      | some (firstLine, s) => commandOfLine upper firstLine s
  | .line pieces (some array), s =>
      match continueLine (pieces.getD []) s with
      | none => .error .connection
      | some (argLine, s) =>
          match argOfLine argLine s with
          | .error err => .error err
          | .ok (arg, s) => commandOfArgs upper (array.args ++ [arg]) array.more s
  | .bulk bulkLen buf array, s =>
      match readFull (bulkLen + 2 - buf.length) s with
      | none => .error .connection
      | some (rest, s) =>
          commandOfArgs upper (array.args ++ [some ((buf ++ rest).take bulkLen)]) array.more s
  | .command name args, s => .ok (⟨name, args.map (Option.map (Slice.read m))⟩, s)
  | .failed err, _ => .error err

theorem resume_line_some (array : ArrayInput) (s : Bytes) :
    (line none (some array)).resume upper m s
      = commandOfArgs upper array.args (array.more + 1) s := by
  rw [commandOfArgs_succ, readArg_eq, resume, Option.getD_none]
  cases continueLine [] s with
  | none => rfl
  | some r => rfl

private theorem resume_ofArgs (args : List (Option Bytes)) (s : Bytes) :
    (ofArgs upper args).resume upper m s = commandOfArgs upper args 0 s := by
  rw [commandOfArgs, readArgs]
  simp only [List.append_nil]
  cases args with
  | nil => rfl
  | cons word args =>
    have hread : args.map (Option.map (Slice.read m) ∘ Option.map .own) = args := by
      refine (List.map_congr_left fun arg _ ↦ ?_).trans (List.map_id args)
      cases arg with
      | none => rfl
      | some bytes => rfl
    simp only [ofArgs, resume, List.map_map, hread]

theorem resume_ofArg (array : ArrayInput) (arg : Option Bytes) (s : Bytes) :
    (ofArg upper array arg).resume upper m s
      = commandOfArgs upper (array.args ++ [arg]) array.more s := by
  rw [ofArg]
  split
  · rename_i hmore
    rw [resume_ofArgs, hmore]
  · rename_i more hmore
    rw [resume_line_some, hmore]

private theorem resume_ofArgLine (array : ArrayInput) (argLine s : Bytes) :
    (ofArgLine upper array argLine).resume upper m s = match argOfLine argLine s with
      | .error err => .error err
      | .ok (arg, s) => commandOfArgs upper (array.args ++ [arg]) array.more s := by
  rw [ofArgLine, argOfLine]
  split
  · rfl
  · split
    · rfl
    · split
      · rfl
      · split
        · rw [resume_ofArg]
        · rename_i bulkLen _ _ _
          rw [resume, List.length_nil, Nat.sub_zero]
          cases readFull (bulkLen.toNat + 2) s with
          | none => rfl
          | some r => rfl

private theorem resume_ofCommandLine (line : Slice) (s : Bytes) :
    (ofCommandLine upper m line).resume upper m s = commandOfLine upper (line.read m) s := by
  rw [ofCommandLine, commandOfLine]
  split
  · rfl
  · split
    · rw [Text.fields]
      split
      · rename_i hspans
        rw [hspans]
        rfl
      · rename_i word words hspans
        have hread : words.map (Option.map (Slice.read m) ∘ fun span ↦ some (line.field span))
            = words.map (some ∘ Text.slice (line.read m)) := by
          refine List.map_congr_left fun span hspan ↦ congrArg some ?_
          refine Slice.read_field (Text.snd_le_of_mem_fieldSpans ?_)
          rw [hspans]
          exact List.mem_cons_of_mem _ hspan
        rw [hspans]
        simp only [resume, List.map_map, List.map_cons, hread]
    · split
      · rfl
      · split
        · rfl
        · split
          · rfl
          · rename_i count _ hpos _
            have hcount : count.toNat - 1 + 1 = count.toNat := by omega
            rw [resume_line_some, hcount]

private theorem resume_ofLine (pieces : Option Bytes) (v : View) (array : Option ArrayInput)
    (s : Bytes) : (ofLine upper m pieces v array).resume upper m s = match array with
      | none => commandOfLine upper (pieces.getD [] ++ m.read v.off v.len) s
      | some array => match argOfLine (pieces.getD [] ++ m.read v.off v.len) s with
        | .error err => .error err
        | .ok (arg, s) => commandOfArgs upper (array.args ++ [arg]) array.more s := by
  have hline : Slice.read m (match pieces with
      | none => .view v
      | some fullLine => .own (fullLine ++ m.read v.off v.len))
      = pieces.getD [] ++ m.read v.off v.len := by
    cases pieces with
    | none => rfl
    | some fullLine => rfl
  cases array with
  | none =>
    simp only [ofLine]
    rw [resume_ofCommandLine, hline]
  | some array =>
    simp only [ofLine]
    rw [resume_ofArgLine, hline]

/-- A line by its first piece: the whole of it, or one to be followed by others. -/
theorem resume_line (pieces : Option Bytes) (array : Option ArrayInput) {s s' : Bytes} {v : View}
    {more : Bool}
    (h : Stream.readLine bufferSize s = some ((m.read v.off v.len, more), s')) :
    (line pieces array).resume upper m s =
      (if more then line (some (pieces.getD [] ++ m.read v.off v.len)) array
        else ofLine upper m pieces v array).resume upper m s' := by
  have hline := continueLine_eq (pieces.getD []) s
  rw [h, Option.bind_some] at hline
  cases more with
  | true =>
    cases array with
    | none => rw [resume, hline]; rfl
    | some array => rw [resume, hline]; rfl
  | false =>
    rw [if_neg Bool.false_ne_true, resume_ofLine]
    cases array with
    | none => rw [resume, hline]; rfl
    | some array => rw [resume, hline]; rfl

theorem resume_bulk (bulkLen : ℕ) (buf : Bytes) (array : ArrayInput) (u s : Bytes) :
    (bulk bulkLen buf array).resume upper m (u ++ s) =
      (bulk bulkLen (buf ++ u.take (bulkLen + 2 - buf.length)) array).resume upper m
        (u.drop (bulkLen + 2 - buf.length) ++ s) := by
  rw [resume, resume, readFull_append_eq_map, List.length_append, Nat.sub_add_eq]
  cases readFull (bulkLen + 2 - buf.length - (u.take (bulkLen + 2 - buf.length)).length)
      (u.drop (bulkLen + 2 - buf.length) ++ s) with
  | none => rfl
  | some r => simp only [Option.map_some, List.append_assoc]

private theorem resume_bulk_of_le {bulkLen : ℕ} {buf : Bytes} (h : bulkLen + 2 ≤ buf.length)
    (array : ArrayInput) (s : Bytes) :
    (bulk bulkLen buf array).resume upper m s
      = commandOfArgs upper (array.args ++ [some (buf.take bulkLen)]) array.more s := by
  rw [resume, Nat.sub_eq_zero_of_le h, readFull, if_neg (Nat.not_lt_zero _)]
  simp only [List.take_zero, List.drop_zero, List.append_nil]

/-- Before it returns, a call does not depend on the contents of the buffer. -/
theorem resume_memory {phase : Phase} (h : ∀ name args, phase ≠ .command name args) (m' : Memory)
    (s : Bytes) : phase.resume upper m' s = phase.resume upper m s := by
  cases phase with
  | line pieces array => cases array <;> rfl
  | bulk bulkLen buf array => rfl
  | command name args => exact absurd rfl (h name args)
  | failed err => rfl

end Phase

namespace Reader

variable {upper : Char → Char} {r r' : Reader}

/-- What the call of `ReadCommand` comes to, with `s` still to come. -/
def resume (upper : Char → Char) (r : Reader) (s : Bytes) : Except ReadError (Command × Bytes) :=
  r.phase.resume upper r.rd.buf (r.rd.unread ++ s)

/-- A `Read` is made only when more is needed. -/
def Valid (r : Reader) : Prop := r.reading = true → r.Starved

theorem valid_of_not_reading (h : r.reading = false) : r.Valid :=
  fun hr ↦ absurd (h.symm.trans hr) Bool.false_ne_true

theorem Starved.not_command (h : r.Starved) : ∀ name args, r.phase ≠ .command name args := by
  intro name args hphase
  rw [Starved, hphase] at h
  exact h

/-! ### Steps -/

theorem parse_spec (h : r.parse upper = some r') :
    r'.Valid ∧ r'.rd.buf = r.rd.buf ∧ ∀ s, r'.resume upper s = r.resume upper s := by
  rw [parse] at h
  split at h
  · exact absurd h (Option.some_ne_none _).symm
  · rename_i hreading
    have hvalid : r.reading = false := Bool.not_eq_true _ ▸ hreading
    split at h
    · rename_i pieces array hphase
      obtain ⟨⟨⟨v, more⟩, rd'⟩, hline, rfl⟩ := Option.map_eq_some_iff.mp h
      have hbuf := (BufReader.readLine_spec hline []).2
      have hresume : ∀ s, (if more then .line (some (pieces.getD [] ++ r.rd.view v)) array
          else .ofLine upper r.rd.buf pieces v array : Phase).resume upper r.rd.buf
            (rd'.unread ++ s) = r.resume upper s := by
        intro s
        rw [resume, hphase]
        exact (Phase.resume_line upper r.rd.buf pieces array
          (BufReader.readLine_spec hline s).1).symm
      cases more with
      | true => exact ⟨valid_of_not_reading hvalid, hbuf, fun s ↦ by
          rw [← hresume s, resume, if_pos rfl, if_pos rfl]
          simp only [hbuf]⟩
      | false => exact ⟨valid_of_not_reading hvalid, hbuf, fun s ↦ by
          rw [← hresume s, resume, if_neg Bool.false_ne_true, if_neg Bool.false_ne_true]
          simp only [hbuf]⟩
    · rename_i bulkLen buf array hphase
      split at h
      · rename_i hfull
        rw [← Option.some_inj.mp h]
        refine ⟨valid_of_not_reading hvalid, rfl, fun s ↦ ?_⟩
        rw [resume, Phase.resume_ofArg, resume, hphase, Phase.resume_bulk_of_le _ _ hfull]
      · split at h
        · exact absurd h (Option.some_ne_none _).symm
        · rw [← Option.some_inj.mp h]
          refine ⟨valid_of_not_reading hvalid, rfl, fun s ↦ ?_⟩
          have hbulk := Phase.resume_bulk upper r.rd.buf bulkLen buf array r.rd.unread s
          rw [← BufReader.unread_skip] at hbulk
          rw [resume, resume, hphase, hbulk]
          rfl
    · exact absurd h (Option.some_ne_none _).symm
    · exact absurd h (Option.some_ne_none _).symm

private theorem starved_slide (h : r.Starved) :
    { r with rd := r.rd.slide, reading := true }.Starved := by
  rw [Starved] at h ⊢
  split at h
  · rename_i hphase
    rw [Option.isNone_iff_eq_none, BufReader.readLine_eq_none_iff] at h
    simp only [hphase]
    rw [Option.isNone_iff_eq_none, BufReader.readLine_eq_none_iff, BufReader.unread_slide,
      BufReader.buffered_slide]
    exact h
  · rename_i hphase
    simp only [hphase]
    rw [BufReader.buffered_slide]
    exact h
  · exact h.elim

theorem fill_spec (upper : Char → Char) (h : r.fill = some r') :
    r'.Valid ∧ (∀ s, r'.resume upper s = r.resume upper s) ∧
      ∀ v : View, r.rd.slid ≤ v.off → r'.rd.view v = r.rd.view v := by
  rw [fill, Option.ite_none_right_eq_some] at h
  obtain ⟨⟨-, hstarved⟩, h⟩ := h
  rw [← Option.some_inj.mp h]
  by_cases hdirect : r.Direct
  · rw [if_pos hdirect]
    exact ⟨fun _ ↦ hstarved, fun s ↦ rfl, fun v _ ↦ rfl⟩
  · rw [if_neg hdirect]
    refine ⟨fun _ ↦ starved_slide hstarved, fun s ↦ ?_, fun v hv ↦ r.rd.view_slide hv⟩
    rw [resume, resume, Phase.resume_memory upper r.rd.buf hstarved.not_command]
    exact congrArg (fun u ↦ r.phase.resume upper r.rd.buf (u ++ s)) r.rd.unread_slide

theorem receive_spec (upper : Char → Char) {data : Bytes} (hr : r.Valid)
    (h : r.receive data = some r') :
    r'.Valid ∧ (∀ s, r'.resume upper s = r.resume upper (data ++ s)) ∧
      ∀ v : View, (¬r.Direct → v.off + v.len ≤ r.rd.w ∨ r.rd.w + data.length ≤ v.off) →
        r'.rd.view v = r.rd.view v := by
  rw [receive, Option.ite_none_right_eq_some] at h
  obtain ⟨⟨hreading, -⟩, h⟩ := h
  have hstarved := hr hreading
  split at h
  · split at h
    · rename_i bulkLen buf array hphase
      rw [Option.ite_none_right_eq_some] at h
      obtain ⟨hlen, h⟩ := h
      rw [← Option.some_inj.mp h]
      refine ⟨valid_of_not_reading rfl, fun s ↦ ?_, fun v _ ↦ rfl⟩
      rw [Starved, hphase] at hstarved
      have hempty : r.rd.unread = [] :=
        List.length_eq_zero_iff.mp (r.rd.length_unread.trans hstarved.2)
      have hbulk := Phase.resume_bulk upper r.rd.buf bulkLen buf array data s
      rw [List.take_of_length_le hlen, List.drop_of_length_le hlen, List.nil_append] at hbulk
      rw [resume, resume, hphase, hempty]
      exact hbulk.symm
    · exact absurd h (Option.some_ne_none _).symm
  · rename_i hdirect
    split at h
    · rename_i hroom
      rw [← Option.some_inj.mp h]
      refine ⟨valid_of_not_reading rfl, fun s ↦ ?_, fun v hv ↦ r.rd.view_receive hroom (hv hdirect)⟩
      rw [resume, resume, Phase.resume_memory upper r.rd.buf hstarved.not_command,
        ← List.append_assoc, ← BufReader.unread_receive _ _ hroom]
    · exact absurd h (Option.some_ne_none _).symm

theorem hangup_spec (hr : r.Valid) (h : r.hangup upper = some r') :
    r'.Valid ∧ r'.rd.buf = r.rd.buf ∧ r'.resume upper [] = r.resume upper [] := by
  rw [hangup, Option.ite_none_right_eq_some] at h
  obtain ⟨hreading, h⟩ := h
  have hstarved := hr hreading
  split at h
  · rename_i pieces array hphase
    rw [Starved, hphase, Option.isNone_iff_eq_none, BufReader.readLine_eq_none_iff] at hstarved
    have hresume : r.resume upper []
        = (Phase.line pieces array).resume upper r.rd.buf r.rd.unread := by
      rw [resume, hphase, List.append_nil]
    rw [hresume]
    split at h
    · rename_i hempty
      rw [← Option.some_inj.mp h]
      refine ⟨valid_of_not_reading rfl, rfl, ?_⟩
      have hnil : continueLine (pieces.getD []) [] = none := by
        rw [continueLine_eq, Stream.readLine_nil (by decide), Option.bind_none]
      rw [hempty]
      cases array with
      | none => rw [resume, Phase.resume, hnil]; rfl
      | some array => rw [resume, Phase.resume, hnil]; rfl
    · rename_i hne
      rw [← Option.some_inj.mp h]
      refine ⟨valid_of_not_reading rfl, rfl, ?_⟩
      have hlast : (r.rd.skip r.rd.buffered).unread = [] := by
        rw [BufReader.unread_skip, List.drop_of_length_le r.rd.length_unread.le]
      have hline := Stream.readLine_unterminated hstarved.1 hne
        (r.rd.length_unread.trans_lt hstarved.2)
      rw [Phase.resume_line (v := ⟨r.rd.r, r.rd.buffered⟩) upper r.rd.buf pieces array hline,
        if_neg Bool.false_ne_true]
      exact congrArg (fun u ↦ Phase.resume upper r.rd.buf _ (u ++ [])) hlast
  · rename_i hphase
    rw [Starved, hphase] at hstarved
    have hempty : r.rd.unread = [] :=
      List.length_eq_zero_iff.mp (r.rd.length_unread.trans hstarved.2)
    rw [← Option.some_inj.mp h]
    refine ⟨valid_of_not_reading rfl, rfl, ?_⟩
    have hmissing : ([] : Bytes).length < _ := Nat.sub_pos_of_lt hstarved.1
    have hshort := readFull_of_lt hmissing
    rw [resume, resume, hphase, hempty, List.append_nil, Phase.resume, hshort]
    rfl
  · exact absurd h (Option.some_ne_none _).symm
  · exact absurd h (Option.some_ne_none _).symm

/-! ### An idle reader -/

/-- Nothing of a command has been received. -/
def Idle (r : Reader) : Prop := r.phase = .line none none ∧ r.rd.unread = []

theorem Idle.parse_eq (h : r.Idle) (upper : Char → Char) : r.parse upper = none := by
  have hbuffered : r.rd.buffered = 0 := by rw [← r.rd.length_unread, h.2, List.length_nil]
  have hline : r.rd.readLine = none := by
    rw [BufReader.readLine, h.2, if_neg List.not_mem_nil, hbuffered, if_neg (by decide)]
  rw [parse, h.1]
  simp only [hline, Option.map_none, ite_self]

theorem phase_fill (h : r.fill = some r') :
    r'.phase = r.phase ∧ r'.rd.unread = r.rd.unread := by
  rw [fill, Option.ite_none_right_eq_some, Option.some_inj] at h
  obtain ⟨-, rfl⟩ := h
  refine ⟨rfl, ?_⟩
  split
  · rfl
  · exact r.rd.unread_slide

theorem Idle.fill (h : r.Idle) (hfill : r.fill = some r') : r'.Idle := by
  obtain ⟨hphase, hunread⟩ := phase_fill hfill
  exact ⟨hphase.trans h.1, hunread.trans h.2⟩

end Reader

end Resp

end VortexMQ
