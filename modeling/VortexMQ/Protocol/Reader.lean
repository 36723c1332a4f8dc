import VortexMQ.Bufio.Stream
import VortexMQ.Coding.PrefixCode
import VortexMQ.Coding.Text
import VortexMQ.Protocol.Writer

/-!
# Reading commands

The `Reader` of `internal/protocol/resp.go`, on what is left of the stream of bytes that a client
sends. A command is a line of words, or an array of bulk strings: a line with their number, and for
each a line with its length followed by so many bytes.

Lines end where the client says so and bulk strings have the length that the client says, so it
takes an argument that the two never get out of step, whatever bytes a bulk string contains: the
requests that `WriteArray` writes are a self-delimiting code, and so are the bulk strings in them.
-/

namespace VortexMQ

/-- A command, with its name in upper case. A nil argument is one of negative length. -/
structure Command where
  name : Bytes
  args : List (Option Bytes)
  deriving DecidableEq

/-- Why there is no command. -/
inductive ReadError where
  /-- The connection has come to its end, or failed. -/
  | connection
  | emptyLine
  | emptyInlineCommand
  | invalidArrayLength
  | tooManyArguments (count : ℤ)
  | notABulkString
  | invalidBulkLength
  | bulkTooLong (bulkLen : ℤ)
  | emptyArguments
  deriving DecidableEq

namespace Resp

def maxBulkLength : ℕ := 64 * 1024 * 1024

def maxCommandArgs : ℕ := 65536

/-- The size of the reader's buffer. -/
def bufferSize : ℕ := 64 * 1024

/-! ## Numbers -/

/-- The loop of `parseUintBytes`. -/
def parseUintLoop : ℤ → Bytes → Option ℤ
  | n, [] => some n
  | n, c :: cs =>
      if c < 48 ∨ 57 < c then none else parseUintLoop (wrap64 (n * 10 + (c - 48).toNat)) cs

/-- `parseUintBytes`; `none` is an error. -/
def parseUintBytes (b : Bytes) : Option ℤ := if b = [] then none else parseUintLoop 0 b

def parseIntBytes (b : Bytes) : Option ℤ :=
  if b = [] then none
  else if b.head? = some 45 then (parseUintBytes b.tail).map fun n ↦ wrap64 (-n)
  else parseUintBytes b

/-! ## Lines, arguments, commands -/

/-- The loop of `readLine` over the pieces of a long line. Every piece but the last takes bytes off
the stream. -/
def readLineLoop : ℕ → Bytes → Bytes → Option (Bytes × Bytes)
  | 0, _, _ => none
  | fuel + 1, fullLine, s =>
      (Stream.readLine bufferSize s).bind fun r ↦
        if r.1.2 then readLineLoop fuel (fullLine ++ r.1.1) r.2 else some (fullLine ++ r.1.1, r.2)

def readLine (s : Bytes) : Option (Bytes × Bytes) := readLineLoop (s.length + 1) [] s

/-- One round of the loop over the arguments. -/
def readArg (s : Bytes) : Except ReadError (Option Bytes × Bytes) :=
  match readLine s with
  | none => .error .connection
  | some (argLine, s) =>
      if argLine.head? ≠ some 36 then .error .notABulkString
      else
        match parseIntBytes argLine.tail with
        | none => .error .invalidBulkLength
        | some bulkLen =>
            if maxBulkLength < bulkLen then .error (.bulkTooLong bulkLen)
            else if bulkLen < 0 then .ok (none, s)
            else
              match readFull (bulkLen.toNat + 2) s with
              | none => .error .connection
              | some (buf, s) => .ok (some (buf.take bulkLen.toNat), s)

/-- The loop over the arguments. -/
def readArgs : ℕ → Bytes → Except ReadError (List (Option Bytes) × Bytes)
  | 0, s => .ok ([], s)
  | count + 1, s =>
      match readArg s with
      | .error err => .error err
      | .ok (arg, s) =>
          match readArgs count s with
          | .error err => .error err
          | .ok (args, s) => .ok (arg :: args, s)

def readCommand (upper : Char → Char) (s : Bytes) : Except ReadError (Command × Bytes) :=
  match readLine s with
  | none => .error .connection
  | some (line, s) =>
      if line = [] then .error .emptyLine
      else if line.head? ≠ some 42 then
        match Text.fields line with
        | [] => .error .emptyInlineCommand
        | word :: words => .ok (⟨Text.toUpper upper word, words.map some⟩, s)
      else
        match parseUintBytes line.tail with
        | none => .error .invalidArrayLength
        | some count =>
            if count ≤ 0 then .error .invalidArrayLength
            else if maxCommandArgs < count then .error (.tooManyArguments count)
            else
              match readArgs count.toNat s with
              | .error err => .error err
              | .ok ([], _) => .error .emptyArguments
              | .ok (word :: args, s) => .ok (⟨Text.toUpper upper (word.getD []), args⟩, s)

/-- Successive calls of `ReadCommand`. -/
def readCommands (upper : Char → Char) : ℕ → Bytes → Except ReadError (List Command × Bytes)
  | 0, s => .ok ([], s)
  | n + 1, s =>
      match readCommand upper s with
      | .error err => .error err
      | .ok (cmd, s) =>
          match readCommands upper n s with
          | .error err => .error err
          | .ok (cmds, s) => .ok (cmd :: cmds, s)

/-! ## Numerals -/

private theorem toNat_sub_eq_digitValue {c : UInt8} (h : Decimal.IsDigit c) :
    (c - 48).toNat = Decimal.digitValue c :=
  UInt8.toNat_sub_of_le _ _ h.1

/-- The loop computes modulo `2 ^ 64` from the first digit to the last. -/
theorem parseUintLoop_eq : ∀ {ds : Bytes} {n : ℕ}, (∀ c ∈ ds, Decimal.IsDigit c) →
    parseUintLoop (wrap64 n) ds = some (wrap64 (Decimal.valueFrom n ds : ℕ)) := by
  intro ds
  induction ds with
  | nil => intro n _; rfl
  | cons c ds ih =>
    intro n hds
    have hc := hds c List.mem_cons_self
    have hdigit : ¬(c < 48 ∨ 57 < c) :=
      not_or_intro (UInt8.not_lt.mpr hc.1) (UInt8.not_lt.mpr hc.2)
    have hwrap : wrap64 (wrap64 n * 10 + (c - 48).toNat)
        = wrap64 ((n * 10 + Decimal.digitValue c : ℕ) : ℤ) := by
      rw [toNat_sub_eq_digitValue hc, ← wrap64_wrap64_add, wrap64_wrap64_mul, wrap64_wrap64_add]
      push_cast
      rfl
    rw [parseUintLoop, if_neg hdigit, hwrap, ih fun d hd ↦ hds d (List.mem_cons_of_mem _ hd)]
    rfl

theorem parseUintBytes_digits {ds : Bytes} (hne : ds ≠ []) (hds : ∀ c ∈ ds, Decimal.IsDigit c) :
    parseUintBytes ds = some (wrap64 (Decimal.value ds)) := by
  rw [parseUintBytes, if_neg hne]
  exact parseUintLoop_eq (n := 0) hds

theorem parseIntBytes_digits {ds : Bytes} (hne : ds ≠ []) (hds : ∀ c ∈ ds, Decimal.IsDigit c) :
    parseIntBytes ds = some (wrap64 (Decimal.value ds)) := by
  have hminus : ds.head? ≠ some 45 := by
    intro h
    exact absurd (hds 45 (List.mem_of_mem_head? h)) (by decide)
  rw [parseIntBytes, if_neg hne, if_neg hminus, parseUintBytes_digits hne hds]

theorem wrap64_value {ds : Bytes} (hds : ∀ c ∈ ds, Decimal.IsDigit c) (hlen : ds.length ≤ 18) :
    wrap64 (Decimal.value ds) = Decimal.value ds := by
  have hpow : 10 ^ ds.length ≤ 10 ^ 18 := Nat.pow_le_pow_right (by decide) hlen
  have hval := Decimal.value_lt hds
  exact wrap64_of_mem (by omega) (by omega)

private theorem parseUintBytes_eq {ds : Bytes} (hne : ds ≠ []) (hds : ∀ c ∈ ds, Decimal.IsDigit c)
    (hlen : ds.length ≤ 18) : parseUintBytes ds = some (Decimal.value ds : ℤ) := by
  rw [parseUintBytes_digits hne hds, wrap64_value hds hlen]

theorem parseIntBytes_eq {ds : Bytes} (hne : ds ≠ []) (hds : ∀ c ∈ ds, Decimal.IsDigit c)
    (hlen : ds.length ≤ 18) : parseIntBytes ds = some (Decimal.value ds : ℤ) := by
  rw [parseIntBytes_digits hne hds, wrap64_value hds hlen]

private theorem parseUintLoop_eq_none {c : UInt8} (hc : ¬Decimal.IsDigit c) : ∀ {ds : Bytes}
    {n : ℤ}, c ∈ ds → parseUintLoop n ds = none := by
  intro ds
  induction ds with
  | nil => intro n h; exact absurd h List.not_mem_nil
  | cons d ds ih =>
    intro n h
    rw [parseUintLoop]
    split
    · rfl
    · rename_i hd
      rcases List.mem_cons.mp h with rfl | h
      · rw [not_or, UInt8.not_lt, UInt8.not_lt] at hd
        exact absurd hd hc
      · exact ih h

private theorem parseUintBytes_eq_none {c : UInt8} (hc : ¬Decimal.IsDigit c) {ds : Bytes}
    (h : c ∈ ds) : parseUintBytes ds = none := by
  rw [parseUintBytes, if_neg (List.ne_nil_of_mem h)]
  exact parseUintLoop_eq_none hc h

theorem length_ofNat_le_eight {n : ℕ} (h : n ≤ maxBulkLength) : (Decimal.ofNat n).length ≤ 8 :=
  Decimal.length_ofNat_le (by decide) (h.trans_lt (by decide))

/-! ## Lines -/

theorem readLine_append {line : Bytes} (hline : 10 ∉ line) (hlen : line.length ≤ 32)
    (rest : Bytes) : readLine (line ++ 13 :: 10 :: rest) = some (line, rest) := by
  have hsize : line.length + 2 ≤ bufferSize := (Nat.add_le_add_right hlen 2).trans (by decide)
  rw [readLine, readLineLoop, Stream.readLine_append hline hsize]
  rfl

theorem readLine_unterminated {line : Bytes} (hline : 10 ∉ line) (hne : line ≠ [])
    (hlen : line.length ≤ 32) : readLine line = some (line, []) := by
  have hsize : line.length < bufferSize := hlen.trans_lt (by decide)
  rw [readLine, readLineLoop, Stream.readLine_unterminated hline hne hsize]
  rfl

theorem readLine_nil : readLine [] = none := by
  rw [readLine, readLineLoop, Stream.readLine_nil (by decide)]
  rfl

theorem notMem_header {c : UInt8} (hc : c ≠ 10) (n : ℕ) : 10 ∉ c :: Decimal.ofNat n := by
  intro h
  rcases List.mem_cons.mp h with h | h
  · exact hc h.symm
  · exact absurd (Decimal.isDigit_of_mem_ofNat 10 h) (by decide)

/-- What a cut may leave of a header line and its end: nothing, a part of the number, or the number
and a `\r`; otherwise the line is complete and the cut is behind it. -/
theorem prefix_header {c : UInt8} {digits rest p : Bytes}
    (hp : p <+: c :: digits ++ 13 :: 10 :: rest) :
    p = [] ∨ (∃ ds, ds <+: digits ∧ p = c :: ds) ∨ p = c :: digits ++ [13] ∨
      ∃ q, q <+: rest ∧ p = c :: digits ++ 13 :: 10 :: q := by
  rcases List.prefix_or_prefix_of_prefix hp (List.prefix_append (c :: digits) _) with h | ⟨q, rfl⟩
  · rcases List.prefix_cons_iff.mp h with h | ⟨ds, rfl, hds⟩
    · exact Or.inl h
    · exact Or.inr (Or.inl ⟨ds, hds, rfl⟩)
  · have hq := (List.prefix_append_right_inj _).mp hp
    rcases List.prefix_cons_iff.mp hq with rfl | ⟨q', rfl, hq'⟩
    · exact Or.inr (Or.inl ⟨digits, List.prefix_rfl, List.append_nil _⟩)
    rcases List.prefix_cons_iff.mp hq' with rfl | ⟨q, rfl, hrest⟩
    · exact Or.inr (Or.inr (Or.inl rfl))
    · exact Or.inr (Or.inr (Or.inr ⟨q, hrest, rfl⟩))

/-! ## Bulk strings -/

/-- A byte string that fits into a request. -/
abbrev BulkString := { b : Bytes // b.length ≤ maxBulkLength }

theorem bulkBytes_eq (b : Bytes) :
    bulkBytes (some b) = 36 :: Decimal.ofNat b.length ++ 13 :: 10 :: (b ++ crlf) := by
  simp [bulkBytes, crlf]

theorem readArg_line {n : ℕ} (hn : n ≤ maxBulkLength) (s : Bytes) :
    readArg (36 :: Decimal.ofNat n ++ 13 :: 10 :: s)
      = match readFull (n + 2) s with
        | none => .error .connection
        | some (buf, s) => .ok (some (buf.take n), s) := by
  have hlen : (36 :: Decimal.ofNat n).length ≤ 32 := by
    rw [List.length_cons]
    exact (Nat.succ_le_succ (length_ofNat_le_eight hn)).trans (by decide)
  have hparse : parseIntBytes (36 :: Decimal.ofNat n).tail = some (n : ℤ) := by
    rw [List.tail_cons, parseIntBytes_eq (Decimal.ofNat_ne_nil n) Decimal.isDigit_of_mem_ofNat
      ((length_ofNat_le_eight hn).trans (by decide)), Decimal.value_ofNat]
  have hmax : ¬(maxBulkLength : ℤ) < n := not_lt.mpr (by exact_mod_cast hn)
  rw [readArg, readLine_append (notMem_header (by decide) n) hlen]
  simp only [List.head?_cons, ne_eq, not_true_eq_false, if_false, hparse, if_neg hmax,
    if_neg (Int.natCast_nonneg n).not_gt, Int.toNat_natCast]

/-- An argument that has been cut short in its line. Whatever number is read there, two more bytes
would have to follow. -/
theorem readArg_unterminated (line : Bytes) (hline : 10 ∉ line) (hlen : line.length ≤ 31)
    (hpos : ∀ bulkLen, parseIntBytes line = some bulkLen → 0 ≤ bulkLen) :
    ∃ err, readArg (36 :: line) = .error err := by
  have hline' : 10 ∉ (36 : UInt8) :: line := List.not_mem_cons_of_ne_of_not_mem (by decide) hline
  rw [readArg, readLine_unterminated hline' (List.cons_ne_nil _ _)
    (by rw [List.length_cons]; exact Nat.succ_le_succ hlen)]
  have hend : ∀ n, readFull (n + 2) [] = none := fun n ↦ readFull_of_lt (Nat.succ_pos _)
  simp only [List.head?_cons, ne_eq, not_true_eq_false, if_false, List.tail_cons]
  cases hparse : parseIntBytes line with
  | none => exact ⟨_, rfl⟩
  | some bulkLen =>
    simp only [if_neg (hpos bulkLen hparse).not_gt, hend]
    split <;> exact ⟨_, rfl⟩

private theorem parseIntBytes_nonneg {n : ℕ} (hn : n ≤ maxBulkLength) {ds : Bytes}
    (hds : ds <+: Decimal.ofNat n) {bulkLen : ℤ} (h : parseIntBytes ds = some bulkLen) :
    0 ≤ bulkLen := by
  by_cases hne : ds = []
  · rw [parseIntBytes, if_pos hne] at h
    exact absurd h (Option.some_ne_none _).symm
  · rw [parseIntBytes_eq hne (fun c hc ↦ Decimal.isDigit_of_mem_ofNat c (hds.subset hc))
      ((hds.length_le.trans (length_ofNat_le_eight hn)).trans (by decide)), Option.some_inj] at h
    exact h ▸ Int.natCast_nonneg _

private theorem parseIntBytes_append_cr (n : ℕ) :
    parseIntBytes (Decimal.ofNat n ++ [13]) = none := by
  have hmem : (13 : UInt8) ∈ Decimal.ofNat n ++ [13] :=
    List.mem_append_right _ (List.mem_singleton.mpr rfl)
  have hminus : (Decimal.ofNat n ++ [13]).head? ≠ some 45 := by
    intro h
    rcases List.mem_append.mp (List.mem_of_mem_head? h) with h | h
    · exact absurd (Decimal.isDigit_of_mem_ofNat 45 h) (by decide)
    · exact absurd h (by decide)
  rw [parseIntBytes, if_neg (List.ne_nil_of_mem hmem), if_neg hminus]
  exact parseUintBytes_eq_none (by decide) hmem

private theorem readArg_torn {b : Bytes} (hb : b.length ≤ maxBulkLength) {p : Bytes}
    (hp : p <+: bulkBytes (some b)) (hne : p ≠ bulkBytes (some b)) :
    ∃ err, readArg p = .error err := by
  have hdigits := length_ofNat_le_eight hb
  have hlf : 10 ∉ Decimal.ofNat b.length := fun h ↦
    absurd (Decimal.isDigit_of_mem_ofNat 10 h) (by decide)
  rw [bulkBytes_eq] at hp hne
  rcases prefix_header hp with rfl | ⟨ds, hds, rfl⟩ | rfl | ⟨q, hq, rfl⟩
  · rw [readArg, readLine_nil]
    exact ⟨_, rfl⟩
  · exact readArg_unterminated ds (fun h ↦ hlf (hds.subset h))
      ((hds.length_le.trans hdigits).trans (by decide)) fun _ ↦ parseIntBytes_nonneg hb hds
  · refine readArg_unterminated (Decimal.ofNat b.length ++ [13]) ?_ ?_ fun bulkLen h ↦ ?_
    · rw [List.mem_append, List.mem_singleton]
      exact not_or_intro hlf (by decide)
    · rw [List.length_append, List.length_singleton]
      exact (Nat.succ_le_succ hdigits).trans (by decide)
    · rw [parseIntBytes_append_cr] at h
      exact absurd h (Option.some_ne_none _).symm
  · have hshort : q.length < (b ++ crlf).length := by
      refine lt_of_le_of_ne hq.length_le fun hlen ↦ hne ?_
      rw [hq.eq_of_length hlen]
    have hlen : (b ++ crlf).length = b.length + 2 := List.length_append
    rw [hlen] at hshort
    rw [readArg_line hb, readFull_of_lt hshort]
    exact ⟨_, rfl⟩

private theorem readArg_bulkBytes {b : Bytes} (hb : b.length ≤ maxBulkLength) (rest : Bytes) :
    readArg (bulkBytes (some b) ++ rest) = .ok (some b, rest) := by
  have hsplit : bulkBytes (some b) ++ rest
      = 36 :: Decimal.ofNat b.length ++ 13 :: 10 :: (b ++ crlf ++ rest) := by
    rw [bulkBytes_eq, List.append_assoc]
    rfl
  have hlen : (b ++ crlf).length = b.length + 2 := List.length_append
  rw [hsplit, readArg_line hb, readFull_append hlen]
  simp only [List.take_left]

/-- **Bulk strings** are a self-delimiting code. -/
def bulkCode : PrefixCode BulkString UInt8 (Option Bytes) where
  encode b := bulkBytes (some b.1)
  value b := some b.1
  decode s := (readArg s).toOption
  decode_encode b rest := by
    rw [readArg_bulkBytes b.2]
    rfl
  decode_torn b p hp hne := by
    obtain ⟨err, herr⟩ := readArg_torn b.2 hp hne
    rw [herr]
    rfl
  decode_nil := by
    rw [readArg, readLine_nil]
    rfl

theorem toOption_readArgs : ∀ (n : ℕ) (s : Bytes),
    (readArgs n s).toOption = bulkCode.decodeN n s := by
  intro n
  induction n with
  | zero => intro s; rfl
  | succ n ih =>
    intro s
    rw [readArgs, PrefixCode.decodeN]
    change _ = (readArg s).toOption.bind _
    cases readArg s with
    | error err => rfl
    | ok r =>
      obtain ⟨arg, s'⟩ := r
      simp only [Except.toOption, Option.bind_some, ← ih s']
      cases readArgs n s' <;> rfl

/-! ## Requests -/

/-- What a client sends as one array. -/
structure Request where
  words : List BulkString
  ne : words ≠ []
  le : words.length ≤ maxCommandArgs

namespace Request

/-- What `WriteArray` is given. -/
def elements (r : Request) : List (Option Bytes) := r.words.map fun b ↦ some b.1

/-- What `WriteArray` writes. -/
def bytes (r : Request) : Bytes := arrayBytes r.elements

/-- What `ReadCommand` should return. -/
def command (upper : Char → Char) (r : Request) : Command where
  name := Text.toUpper upper (r.words.head r.ne).1
  args := r.words.tail.map fun b ↦ some b.1

theorem bytes_eq (r : Request) :
    r.bytes = 42 :: Decimal.ofNat r.words.length ++ 13 :: 10 :: bulkCode.encodeAll r.words := by
  have hflat : r.elements.flatMap bulkBytes = bulkCode.encodeAll r.words := by
    rw [elements, List.flatMap_map]
    rfl
  rw [bytes, arrayBytes, hflat, elements, List.length_map, crlf, List.append_assoc]
  rfl

theorem length_header_le (r : Request) : (Decimal.ofNat r.words.length).length ≤ 8 :=
  length_ofNat_le_eight (r.le.trans (by decide))

theorem readCommand_line (upper : Char → Char) (r : Request) (s : Bytes) :
    readCommand upper (42 :: Decimal.ofNat r.words.length ++ 13 :: 10 :: s)
      = match readArgs r.words.length s with
        | .error err => .error err
        | .ok ([], _) => .error .emptyArguments
        | .ok (word :: args, s) => .ok (⟨Text.toUpper upper (word.getD []), args⟩, s) := by
  have hlen : (42 :: Decimal.ofNat r.words.length).length ≤ 32 := by
    rw [List.length_cons]
    exact (Nat.succ_le_succ r.length_header_le).trans (by decide)
  have hparse : parseUintBytes (42 :: Decimal.ofNat r.words.length).tail
      = some (r.words.length : ℤ) := by
    rw [List.tail_cons, parseUintBytes_eq (Decimal.ofNat_ne_nil _) Decimal.isDigit_of_mem_ofNat
      (r.length_header_le.trans (by decide)), Decimal.value_ofNat]
  have hpos : ¬(r.words.length : ℤ) ≤ 0 :=
    not_le.mpr (by exact_mod_cast List.length_pos_iff.mpr r.ne)
  have hmax : ¬(maxCommandArgs : ℤ) < r.words.length := not_lt.mpr (by exact_mod_cast r.le)
  rw [readCommand, readLine_append (notMem_header (by decide) _) hlen]
  simp only [List.head?_cons, ne_eq, not_true_eq_false, if_false, List.cons_ne_nil, hparse,
    if_neg hpos, if_neg hmax, Int.toNat_natCast]

theorem readCommand_bytes (upper : Char → Char) (r : Request) (rest : Bytes) :
    readCommand upper (r.bytes ++ rest) = .ok (r.command upper, rest) := by
  have hargs : readArgs r.words.length (bulkCode.encodeAll r.words ++ rest)
      = .ok (r.words.map bulkCode.value, rest) := by
    have hdecode := toOption_readArgs r.words.length (bulkCode.encodeAll r.words ++ rest)
    rw [bulkCode.decodeN_encodeAll] at hdecode
    cases hr : readArgs r.words.length (bulkCode.encodeAll r.words ++ rest) with
    | error err =>
      rw [hr] at hdecode
      exact absurd hdecode (Option.some_ne_none _).symm
    | ok v =>
      rw [hr] at hdecode
      exact congrArg _ (Option.some_inj.mp hdecode)
  have hline := r.readCommand_line upper (bulkCode.encodeAll r.words ++ rest)
  rw [r.bytes_eq, List.append_assoc]
  refine hline.trans ?_
  rw [hargs]
  obtain ⟨words, hne, hle⟩ := r
  cases words with
  | nil => exact absurd rfl hne
  | cons word words => rfl

/-- A request that has been cut short in its first line. Whatever number is read there, at least one
argument would have to follow. -/
theorem readCommand_unterminated (upper : Char → Char) (line : Bytes) (hline : 10 ∉ line)
    (hlen : line.length ≤ 31) : ∃ err, readCommand upper (42 :: line) = .error err := by
  have hline' : 10 ∉ (42 : UInt8) :: line := List.not_mem_cons_of_ne_of_not_mem (by decide) hline
  rw [readCommand, readLine_unterminated hline' (List.cons_ne_nil _ _)
    (by rw [List.length_cons]; exact Nat.succ_le_succ hlen)]
  simp only [List.head?_cons, ne_eq, not_true_eq_false, if_false, List.cons_ne_nil, List.tail_cons]
  cases parseUintBytes line with
  | none => exact ⟨_, rfl⟩
  | some count =>
    by_cases hpos : count ≤ 0
    · exact ⟨_, if_pos hpos⟩
    have hargs : readArgs count.toNat [] = .error .connection := by
      obtain ⟨n, hn⟩ : ∃ n, count.toNat = n + 1 :=
        Nat.exists_eq_add_one_of_ne_zero (by omega)
      rw [hn, readArgs, readArg, readLine_nil]
    simp only [if_neg hpos, hargs]
    split <;> exact ⟨_, rfl⟩

theorem readCommand_torn (upper : Char → Char) (r : Request) {p : Bytes} (hp : p <+: r.bytes)
    (hne : p ≠ r.bytes) : ∃ err, readCommand upper p = .error err := by
  have hlf : 10 ∉ Decimal.ofNat r.words.length := fun h ↦
    absurd (Decimal.isDigit_of_mem_ofNat 10 h) (by decide)
  rw [r.bytes_eq] at hp hne
  rcases prefix_header hp with rfl | ⟨ds, hds, rfl⟩ | rfl | ⟨q, hq, rfl⟩
  · rw [readCommand, readLine_nil]
    exact ⟨_, rfl⟩
  · exact readCommand_unterminated upper ds (fun h ↦ hlf (hds.subset h))
      ((hds.length_le.trans r.length_header_le).trans (by decide))
  · refine readCommand_unterminated upper (Decimal.ofNat r.words.length ++ [13]) ?_ ?_
    · rw [List.mem_append, List.mem_singleton]
      exact not_or_intro hlf (by decide)
    · rw [List.length_append, List.length_singleton]
      exact (Nat.succ_le_succ r.length_header_le).trans (by decide)
  · have hq' : q ≠ bulkCode.encodeAll r.words := fun h ↦ hne (by rw [h])
    have hdecode := toOption_readArgs r.words.length q
    rw [bulkCode.decodeN_torn hq hq'] at hdecode
    rw [readCommand_line]
    cases hr : readArgs r.words.length q with
    | error err => exact ⟨err, rfl⟩
    | ok v =>
      rw [hr] at hdecode
      exact absurd hdecode (Option.some_ne_none _)

/-- **Requests** are a self-delimiting code. -/
def code (upper : Char → Char) : PrefixCode Request UInt8 Command where
  encode := bytes
  value := command upper
  decode s := (readCommand upper s).toOption
  decode_encode r rest := by
    rw [readCommand_bytes]
    rfl
  decode_torn r p hp hne := by
    obtain ⟨err, herr⟩ := readCommand_torn upper r hp hne
    rw [herr]
    rfl
  decode_nil := by
    rw [readCommand, readLine_nil]
    rfl

end Request

private theorem toOption_readCommands (upper : Char → Char) : ∀ (n : ℕ) (s : Bytes),
    (readCommands upper n s).toOption = (Request.code upper).decodeN n s := by
  intro n
  induction n with
  | zero => intro s; rfl
  | succ n ih =>
    intro s
    rw [readCommands, PrefixCode.decodeN]
    change _ = (readCommand upper s).toOption.bind _
    cases readCommand upper s with
    | error err => rfl
    | ok r =>
      obtain ⟨cmd, s'⟩ := r
      simp only [Except.toOption, Option.bind_some, ← ih s']
      cases readCommands upper n s' <;> rfl

/-- What a client sends that writes requests with `WriteArray` and then flushes. -/
def sentBy (requests : List Request) : Bytes :=
  (requests.foldl (fun w r ↦ w.writeArray (some r.elements)) Writer.new).flush.sent

theorem sentBy_eq (upper : Char → Char) (requests : List Request) :
    sentBy requests = (Request.code upper).encodeAll requests := by
  have hfold : ∀ (requests : List Request) (w : Writer),
      (requests.foldl (fun w r ↦ w.writeArray (some r.elements)) w).stream
        = w.stream ++ (Request.code upper).encodeAll requests := by
    intro requests
    induction requests with
    | nil => intro w; exact (List.append_nil _).symm
    | cons r requests ih =>
      intro w
      rw [List.foldl_cons, ih, Writer.stream_writeArray, PrefixCode.encodeAll_cons,
        List.append_assoc]
      rfl
  exact hfold requests Writer.new

/-- **Pipelining.** Whatever requests a client writes, and whatever bytes they contain, as many
calls of `ReadCommand` return exactly these requests and leave what follows; and a request that is
cut short, at whatever byte, is refused. -/
theorem readCommands_sentBy (upper : Char → Char) (requests : List Request) (further : Bytes) :
    readCommands upper requests.length (sentBy requests ++ further)
        = .ok (requests.map (Request.command upper), further) ∧
      ∀ (r : Request) (k : Fin (sentBy [r]).length),
        ∃ err, readCommand upper ((sentBy [r]).take k) = .error err := by
  constructor
  · have hdecode := toOption_readCommands upper requests.length (sentBy requests ++ further)
    rw [sentBy_eq upper, PrefixCode.decodeN_encodeAll] at hdecode
    rw [sentBy_eq upper]
    cases hr : readCommands upper requests.length
        ((Request.code upper).encodeAll requests ++ further) with
    | error err =>
      rw [hr] at hdecode
      exact absurd hdecode (Option.some_ne_none _).symm
    | ok v =>
      rw [hr] at hdecode
      exact congrArg _ (Option.some_inj.mp hdecode)
  · intro r k
    have hone : sentBy [r] = r.bytes := by
      rw [sentBy_eq upper, PrefixCode.encodeAll_cons]
      exact List.append_nil _
    refine r.readCommand_torn upper (hone ▸ List.take_prefix _ _) fun h ↦ ?_
    have hlen := congrArg List.length h
    rw [List.length_take_of_le k.2.le, ← hone] at hlen
    exact k.2.ne hlen

end Resp

end VortexMQ
