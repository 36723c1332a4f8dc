import VortexMQ.Network.Server

/-!
# Reading commands without panics

`VortexMQ.Protocol.Reader` reads commands with functions that cannot fail: the head of a line, the
tail of a list of words. The source uses indices, slices and `make`, each of which brings the
process down on bad operands. Here these are written out, with their checks, at every place where
the source has one. The two readers are the same: whatever bytes a client sends, the operands are
never bad.
-/

namespace VortexMQ

/-! ## Slices -/

namespace Go

variable {α : Type}

/-- `b[i]`. -/
def index (b : List α) (i : ℕ) : Ending Panic α := .ofOption (.fault .index) b[i]?

/-- `b[i:]`. -/
def sliceFrom (b : List α) (i : ℕ) : Ending Panic (List α) :=
  if i ≤ b.length then .ok (b.drop i) else .fault .index

/-- `b[:n]`. -/
def sliceTo (b : List α) (n : ℤ) : Ending Panic (List α) :=
  if 0 ≤ n ∧ n ≤ b.length then .ok (b.take n.toNat) else .fault .index

/-- The size of the address space that a slice must fit into. -/
def maxAlloc : ℤ := 2 ^ 48

/-- `make` of a slice of `n` elements of the given size: the number of elements. -/
def make (n size : ℤ) : Ending Panic ℕ :=
  if n < 0 ∨ maxAlloc < n * size then .fault .allocation else .ok n.toNat

theorem length_ne_zero (a : α) (b : List α) : (a :: b).length ≠ 0 := Nat.succ_ne_zero _

theorem index_zero (a : α) (b : List α) : index (a :: b) 0 = .ok a := rfl

theorem sliceFrom_one (a : α) (b : List α) : sliceFrom (a :: b) 1 = .ok b :=
  if_pos (Nat.succ_le_succ (Nat.zero_le _))

private theorem sliceTo_eq {b : List α} {n : ℤ} (h : 0 ≤ n) (hlen : n ≤ b.length) :
    sliceTo b n = .ok (b.take n.toNat) := if_pos ⟨h, hlen⟩

theorem make_eq {n size : ℤ} (h : 0 ≤ n) (hsize : n * size ≤ maxAlloc) :
    make n size = .ok n.toNat :=
  if_neg (not_or_intro (not_lt.mpr h) (not_lt.mpr hsize))

end Go

/-! ## The reader -/

namespace Resp.Checked

open Go

/-- `parseIntBytes`. The digits of `parseUintBytes` are taken by a loop that needs no index. -/
def parseIntBytes (b : Bytes) : Ending Panic (Option ℤ) :=
  if b.length = 0 then return none
  else do
    let sign ← index b 0
    if sign = 45 then
      let digits ← sliceFrom b 1
      return (parseUintBytes digits).map fun n ↦ wrap64 (-n)
    else return parseUintBytes b

/-- The condition `len(argLine) == 0 || argLine[0] != BulkString`. -/
def notABulkString (argLine : Bytes) : Ending Panic Bool :=
  if argLine.length = 0 then return true
  else do
    let tag ← index argLine 0
    return tag ≠ 36

def readArg (s : Bytes) : Ending Panic (Except ReadError (Option Bytes × Bytes)) :=
  match readLine s with
  | none => return .error .connection
  | some (argLine, s) => do
      if ← notABulkString argLine then return .error .notABulkString
      else
        let digits ← sliceFrom argLine 1
        match ← parseIntBytes digits with
        | none => return .error .invalidBulkLength
        | some bulkLen =>
            if maxBulkLength < bulkLen then return .error (.bulkTooLong bulkLen)
            else if bulkLen < 0 then return .ok (none, s)
            else
              let size ← make (wrap64 (bulkLen + 2)) 1
              match readFull size s with
              | none => return .error .connection
              | some (buf, s) =>
                  let arg ← sliceTo buf bulkLen
                  return .ok (some arg, s)

def readArgs : ℕ → Bytes → Ending Panic (Except ReadError (List (Option Bytes) × Bytes))
  | 0, s => return .ok ([], s)
  | count + 1, s => do
      match ← readArg s with
      | .error err => return .error err
      | .ok (arg, s) =>
          match ← readArgs count s with
          | .error err => return .error err
          | .ok (args, s) => return .ok (arg :: args, s)

/-- `ReadCommand`. The slice of the arguments is made with its capacity, three words for each. -/
def readCommand (upper : Char → Char) (s : Bytes) :
    Ending Panic (Except ReadError (Command × Bytes)) :=
  match readLine s with
  | none => return .error .connection
  | some (line, s) =>
      if line.length = 0 then return .error .emptyLine
      else do
        let tag ← index line 0
        if tag ≠ 42 then
          let parts := Text.fields line
          if parts.length = 0 then return .error .emptyInlineCommand
          else
            let word ← index parts 0
            let words ← sliceFrom parts 1
            return .ok (⟨Text.toUpper upper word, words.map some⟩, s)
        else
          let digits ← sliceFrom line 1
          match parseUintBytes digits with
          | none => return .error .invalidArrayLength
          | some count =>
              if count ≤ 0 then return .error .invalidArrayLength
              else if maxCommandArgs < count then return .error (.tooManyArguments count)
              else
                let _ ← make count 24
                match ← readArgs count.toNat s with
                | .error err => return .error err
                | .ok (args, s) =>
                    if args.length = 0 then return .error .emptyArguments
                    else
                      let word ← index args 0
                      let rest ← sliceFrom args 1
                      return .ok (⟨Text.toUpper upper (word.getD []), rest⟩, s)

/-! ## No operand is bad -/

private theorem parseIntBytes_eq (b : Bytes) : parseIntBytes b = .ok (Resp.parseIntBytes b) := by
  cases b with
  | nil => rfl
  | cons sign digits =>
    rw [parseIntBytes, if_neg (length_ne_zero _ _), index_zero, Ending.ok_bind, Resp.parseIntBytes,
      if_neg (List.cons_ne_nil _ _), List.head?_cons, List.tail_cons, sliceFrom_one]
    by_cases hsign : sign = 45
    · rw [if_pos hsign, if_pos (congrArg some hsign)]
      rfl
    · rw [if_neg hsign, if_neg fun h ↦ hsign (Option.some_inj.mp h)]
      rfl

private theorem notABulkString_eq (argLine : Bytes) :
    notABulkString argLine = .ok (decide (argLine.head? ≠ some 36)) := by
  cases argLine with
  | nil => rfl
  | cons tag digits =>
    rw [notABulkString, if_neg (length_ne_zero _ _), index_zero, Ending.ok_bind, List.head?_cons]
    simp only [ne_eq, Option.some_inj, Ending.pure_eq]

/-- The buffer for a bulk string is as long as it should be, and the string is a part of it. -/
theorem readArg_eq (s : Bytes) : readArg s = .ok (Resp.readArg s) := by
  rw [readArg, Resp.readArg]
  cases readLine s with
  | none => rfl
  | some r =>
    obtain ⟨argLine, s⟩ := r
    simp only [notABulkString_eq, Ending.ok_bind]
    cases argLine with
    | nil => rfl
    | cons tag digits =>
      by_cases htag : tag = 36
      · have hhead : ¬(tag :: digits).head? ≠ some 36 := fun h ↦ h (congrArg some htag)
        rw [if_neg (by simpa using htag), if_neg hhead, sliceFrom_one, Ending.ok_bind,
          parseIntBytes_eq, Ending.ok_bind, List.tail_cons]
        cases Resp.parseIntBytes digits with
        | none => rfl
        | some bulkLen =>
          simp only
          by_cases hmax : (maxBulkLength : ℤ) < bulkLen
          · rw [if_pos hmax, if_pos hmax]
            rfl
          rw [if_neg hmax, if_neg hmax]
          by_cases hneg : bulkLen < 0
          · rw [if_pos hneg, if_pos hneg]
            rfl
          rw [if_neg hneg, if_neg hneg]
          have hnonneg : 0 ≤ bulkLen := not_lt.mp hneg
          have hle : bulkLen ≤ 64 * 1024 * 1024 := not_lt.mp hmax
          have hwrap : wrap64 (bulkLen + 2) = bulkLen + 2 := wrap64_of_mem (by omega) (by omega)
          have hsize : (bulkLen + 2).toNat = bulkLen.toNat + 2 :=
            Int.toNat_add hnonneg (by decide)
          rw [hwrap, make_eq (by omega) (by rw [mul_one, maxAlloc]; omega), Ending.ok_bind, hsize]
          cases hread : readFull (bulkLen.toNat + 2) s with
          | none => rfl
          | some r =>
            obtain ⟨buf, s'⟩ := r
            have hbuf : bulkLen ≤ buf.length := by
              rw [readFull] at hread
              split at hread
              · exact absurd hread (Option.some_ne_none _).symm
              · rename_i hlen
                rw [← (Prod.mk.inj (Option.some_inj.mp hread)).1, List.length_take]
                omega
            simp only
            rw [sliceTo_eq hnonneg hbuf]
            rfl
      · have hhead : (tag :: digits).head? ≠ some 36 := fun h ↦ htag (Option.some_inj.mp h)
        rw [if_pos (decide_eq_true hhead), if_pos hhead]
        rfl

private theorem readArgs_eq : ∀ (count : ℕ) (s : Bytes),
    readArgs count s = .ok (Resp.readArgs count s) := by
  intro count
  induction count with
  | zero => intro s; rfl
  | succ count ih =>
    intro s
    rw [readArgs, Resp.readArgs, readArg_eq, Ending.ok_bind]
    cases Resp.readArg s with
    | error err => rfl
    | ok r =>
      obtain ⟨arg, s'⟩ := r
      simp only
      rw [ih, Ending.ok_bind]
      cases Resp.readArgs count s' with
      | error err => rfl
      | ok r => rfl

/-- **Reading a command never panics**, whatever is on the stream. -/
theorem readCommand_eq (upper : Char → Char) (s : Bytes) :
    readCommand upper s = .ok (Resp.readCommand upper s) := by
  rw [readCommand, Resp.readCommand]
  cases readLine s with
  | none => rfl
  | some r =>
    obtain ⟨line, s⟩ := r
    simp only
    cases line with
    | nil => rfl
    | cons tag digits =>
      rw [if_neg (length_ne_zero _ _), if_neg (List.cons_ne_nil _ _), index_zero, Ending.ok_bind,
        List.head?_cons, sliceFrom_one]
      by_cases htag : tag = 42
      · have hhead : ¬some tag ≠ some 42 := fun h ↦ h (congrArg some htag)
        rw [if_neg (fun h ↦ h htag), if_neg hhead, Ending.ok_bind, List.tail_cons]
        cases parseUintBytes digits with
        | none => rfl
        | some count =>
          simp only
          by_cases hpos : count ≤ 0
          · rw [if_pos hpos, if_pos hpos]
            rfl
          rw [if_neg hpos, if_neg hpos]
          by_cases hmax : (maxCommandArgs : ℤ) < count
          · rw [if_pos hmax, if_pos hmax]
            rfl
          have hle : count ≤ 65536 := not_lt.mp hmax
          rw [if_neg hmax, if_neg hmax, make_eq (by omega) (by rw [maxAlloc]; omega),
            Ending.ok_bind, readArgs_eq, Ending.ok_bind]
          cases Resp.readArgs count.toNat s with
          | error err => rfl
          | ok r =>
            obtain ⟨args, s'⟩ := r
            cases args with
            | nil => rfl
            | cons word args =>
              simp only
              rw [if_neg (length_ne_zero _ _), index_zero, Ending.ok_bind, sliceFrom_one]
              rfl
      · have hhead : some tag ≠ some 42 := fun h ↦ htag (Option.some_inj.mp h)
        rw [if_pos htag, if_pos hhead]
        cases Text.fields (tag :: digits) with
        | nil => rfl
        | cons word words =>
          simp only
          rw [if_neg (length_ne_zero _ _), index_zero, Ending.ok_bind, sliceFrom_one]
          rfl

end Resp.Checked

end VortexMQ
