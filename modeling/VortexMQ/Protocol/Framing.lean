import VortexMQ.Protocol.BufferedReader

/-!
# What a client declares

An array command announces how many arguments there are, and each bulk string how many bytes it
has. The reader depends on both numbers to know where it is in the stream, and on nothing else: it
computes them modulo `2 ^ 64`, and does not look at the two bytes behind a bulk string.

So there are two ways to get it out of step. A number that is out of range may come back into it,
and a bulk string may be followed by something other than the end of a line. For both, the streams
that are read as they are meant are determined exactly.
-/

namespace VortexMQ

namespace Resp

/-- The digits of a number. -/
def IsNumeral (ds : Bytes) : Prop := ds ≠ [] ∧ ∀ c ∈ ds, Decimal.IsDigit c

instance (ds : Bytes) : Decidable (IsNumeral ds) := inferInstanceAs (Decidable (_ ∧ _))

/-- A call of `ReadCommand` on `s` comes to the point where it has read `args`, and has so many
arguments still to read from what is left. -/
inductive Reaches (s : Bytes) : List (Option Bytes) → ℕ → Bytes → Prop where
  | header {ds rest : Bytes} {count : ℤ} : readLine s = some (42 :: ds, rest) →
      parseUintBytes ds = some count → 0 < count → count ≤ maxCommandArgs →
      Reaches s [] count.toNat rest
  | arg {args : List (Option Bytes)} {more : ℕ} {s' s'' : Bytes} {a : Option Bytes} :
      Reaches s args (more + 1) s' → readArg s' = .ok (a, s'') → Reaches s (args ++ [a]) more s''

theorem readCommand_array (upper : Char → Char) {s ds rest : Bytes} {count : ℤ}
    (hline : readLine s = some (42 :: ds, rest)) (hparse : parseUintBytes ds = some count) :
    readCommand upper s = if count ≤ 0 then .error .invalidArrayLength
      else if maxCommandArgs < count then .error (.tooManyArguments count)
      else commandOfArgs upper [] count.toNat rest := by
  rw [readCommand_eq, show continueLine [] s = readLine s from rfl, hline]
  simp only [commandOfLine, List.cons_ne_nil, if_false, List.head?_cons, ne_eq, not_true_eq_false,
    List.tail_cons, hparse]

theorem Reaches.readCommand_eq (upper : Char → Char) {s : Bytes} {args : List (Option Bytes)}
    {more : ℕ} {s' : Bytes} (h : Reaches s args more s') :
    readCommand upper s = commandOfArgs upper args more s' := by
  induction h with
  | header hline hparse hpos hmax =>
    rw [readCommand_array upper hline hparse, if_neg hpos.not_ge, if_neg hmax.not_gt]
  | arg h hread ih => rw [ih, commandOfArgs_succ, hread]

/-! ## The number of arguments -/

/-- The call ends because of the number of arguments. -/
def RefusesCount (r : Except ReadError (Command × Bytes)) : Prop :=
  r = .error .invalidArrayLength ∨ ∃ count, r = .error (.tooManyArguments count)

/-- The number that the digits spell is the number of arguments that are read, or it is out of
range and the call ends with an error that says so. -/
def CountHonoured (upper : Char → Char) (s ds rest : Bytes) : Prop :=
  if 1 ≤ Decimal.value ds ∧ Decimal.value ds ≤ maxCommandArgs then
    readCommand upper s = commandOfArgs upper [] (Decimal.value ds) rest
  else RefusesCount (readCommand upper s)

/-- An argument can be refused for a number of reasons, but none of them is the array header. -/
theorem readArg_ne {s : Bytes} {err : ReadError} (h : readArg s = .error err) :
    err ≠ .invalidArrayLength ∧ (∀ count, err ≠ .tooManyArguments count) := by
  rw [readArg] at h
  split at h
  · exact Except.error.inj h ▸ ⟨nofun, nofun⟩
  split at h
  · exact Except.error.inj h ▸ ⟨nofun, nofun⟩
  split at h
  · exact Except.error.inj h ▸ ⟨nofun, nofun⟩
  split at h
  · exact Except.error.inj h ▸ ⟨nofun, nofun⟩
  split at h
  · exact nomatch h
  split at h
  · exact Except.error.inj h ▸ ⟨nofun, nofun⟩
  · exact nomatch h

private theorem not_refusesCount_commandOfArgs (upper : Char → Char) : ∀ {more : ℕ}
    {args : List (Option Bytes)} {s : Bytes}, ¬RefusesCount (commandOfArgs upper args more s) := by
  intro more
  induction more with
  | zero =>
    intro args s
    rw [commandOfArgs, readArgs]
    simp only [List.append_nil]
    cases args with
    | nil => rintro (h | ⟨count, h⟩) <;> cases h
    | cons word args => rintro (h | ⟨count, h⟩) <;> cases h
  | succ more ih =>
    intro args s
    rw [commandOfArgs_succ]
    cases hread : readArg s with
    | error err =>
      have herr := readArg_ne hread
      rintro (h | ⟨count, h⟩)
      · exact herr.1 (Except.error.inj h)
      · exact herr.2 count (Except.error.inj h)
    | ok r => exact ih

/-- The number of arguments is what it says exactly if it is within the limit, or is not back
within it after the overflow. -/
theorem countHonoured_iff (upper : Char → Char) {s ds rest : Bytes} (hds : IsNumeral ds)
    (hline : readLine s = some (42 :: ds, rest)) :
    CountHonoured upper s ds rest ↔ Decimal.value ds ≤ maxCommandArgs ∨
      Decimal.value ds % 2 ^ 64 = 0 ∨ maxCommandArgs < Decimal.value ds % 2 ^ 64 := by
  have hread := readCommand_array upper hline (parseUintBytes_digits hds.1 hds.2)
  have hmax : maxCommandArgs = 65536 := rfl
  rw [CountHonoured]
  generalize Decimal.value ds = v at hread ⊢
  split
  · -- within the limit there is no overflow
    rename_i hv
    have hmod : v % 2 ^ 64 = v := Nat.mod_eq_of_lt (by omega)
    rw [wrap64_of_mod_lt (by omega), hmod, if_neg (by omega), if_neg (by omega),
      Int.toNat_natCast] at hread
    exact iff_of_true hread (Or.inl hv.2)
  · rename_i hv
    by_cases hback : 1 ≤ v % 2 ^ 64 ∧ v % 2 ^ 64 ≤ maxCommandArgs
    · rw [wrap64_of_mod_lt (by omega), if_neg (by omega), if_neg (by omega),
        Int.toNat_natCast] at hread
      rw [hread]
      refine iff_of_false (not_refusesCount_commandOfArgs upper) ?_
      rintro (h | h | h) <;> omega
    · refine iff_of_true ?_ (by omega)
      rcases Nat.lt_or_ge (v % 2 ^ 64) (2 ^ 63) with hlow | hsign
      · rw [wrap64_of_mod_lt hlow] at hread
        by_cases hzero : v % 2 ^ 64 = 0
        · rw [if_pos (by omega)] at hread
          exact Or.inl hread
        · rw [if_neg (by omega), if_pos (by omega)] at hread
          exact Or.inr ⟨_, hread⟩
      · rw [if_pos (wrap64_neg_of_le_mod hsign).le] at hread
        exact Or.inl hread

/-! ## The length of a bulk string -/

/-- At an argument, the number that the digits spell is the number of bytes that are read, or it is
out of range and the call ends with an error that says so. -/
def LengthHonoured (upper : Char → Char) (s : Bytes) (args : List (Option Bytes)) (more : ℕ)
    (s' ds rest : Bytes) : Prop :=
  if Decimal.value ds ≤ maxBulkLength then
    readCommand upper s = match readFull (Decimal.value ds + 2) rest with
      | none => .error .connection
      | some (buf, s'') =>
          commandOfArgs upper (args ++ [some (buf.take (Decimal.value ds))]) more s''
  else ∃ bulkLen, readArg s' = .error (.bulkTooLong bulkLen) ∧
    readCommand upper s = .error (.bulkTooLong bulkLen)

theorem readArg_bulk {s ds rest : Bytes} {bulkLen : ℤ}
    (hline : readLine s = some (36 :: ds, rest)) (hparse : parseIntBytes ds = some bulkLen) :
    readArg s = if maxBulkLength < bulkLen then .error (.bulkTooLong bulkLen)
      else if bulkLen < 0 then .ok (none, rest)
      else match readFull (bulkLen.toNat + 2) rest with
        | none => .error .connection
        | some (buf, s) => .ok (some (buf.take bulkLen.toNat), s) := by
  rw [readArg, hline]
  have hhead : ¬(36 :: ds).head? ≠ some 36 := not_not_intro rfl
  refine (if_neg hhead).trans ?_
  -- both sides are the same, but the two `match`es need not be the same constant
  rewrite [List.tail_cons, hparse]
  exact ite_congr rfl (fun _ ↦ rfl) fun _ ↦ rfl

/-- A length is what it says exactly if it is within the limit, or is still above it after the
overflow. A negative one would be a nil argument. -/
theorem lengthHonoured_iff (upper : Char → Char) {s : Bytes} {args : List (Option Bytes)}
    {more : ℕ} {s' ds rest : Bytes} (h : Reaches s args (more + 1) s') (hds : IsNumeral ds)
    (hline : readLine s' = some (36 :: ds, rest)) :
    LengthHonoured upper s args more s' ds rest ↔ Decimal.value ds ≤ maxBulkLength ∨
      maxBulkLength < Decimal.value ds % 2 ^ 64 ∧ Decimal.value ds % 2 ^ 64 < 2 ^ 63 := by
  have hread := readArg_bulk hline (parseIntBytes_digits hds.1 hds.2)
  have hmax : maxBulkLength = 67108864 := rfl
  have hcall := (h.readCommand_eq upper).trans (commandOfArgs_succ upper args more s')
  rw [LengthHonoured]
  generalize Decimal.value ds = v at hread ⊢
  split
  · rename_i hv
    have hmod : v % 2 ^ 64 = v := Nat.mod_eq_of_lt (by omega)
    rw [wrap64_of_mod_lt (by omega), hmod, if_neg (by omega), if_neg (by omega),
      Int.toNat_natCast] at hread
    refine iff_of_true ?_ (Or.inl hv)
    rw [hcall, hread]
    cases readFull (v + 2) rest with
    | none => rfl
    | some r => rfl
  · rename_i hv
    by_cases habove : maxBulkLength < v % 2 ^ 64 ∧ v % 2 ^ 64 < 2 ^ 63
    · rw [wrap64_of_mod_lt habove.2, if_pos (by omega)] at hread
      rw [hread] at hcall
      exact iff_of_true ⟨_, hread, hcall⟩ (Or.inr habove)
    · refine iff_of_false ?_ (not_or_intro hv habove)
      rintro ⟨bulkLen, hlong, -⟩
      rw [hlong] at hread
      rcases Nat.lt_or_ge (v % 2 ^ 64) (2 ^ 63) with hlow | hsign
      · rw [wrap64_of_mod_lt hlow, if_neg (by omega), if_neg (by omega)] at hread
        split at hread
        · exact absurd (Except.error.inj hread) nofun
        · exact absurd hread nofun
      · have hneg := wrap64_neg_of_le_mod hsign
        rw [if_neg (by omega), if_pos hneg] at hread
        exact absurd hread nofun

/-- **Declared lengths.** On every stream, the number of arguments that an array header spells, and
the number of bytes that a bulk header spells, are honoured exactly if they are within their limits,
or do not come back into range when they are computed modulo `2 ^ 64`. -/
theorem lengths_honoured_iff (upper : Char → Char) (s ds rest : Bytes) (hds : IsNumeral ds) :
    (readLine s = some (42 :: ds, rest) →
      (CountHonoured upper s ds rest ↔ Decimal.value ds ≤ maxCommandArgs ∨
        Decimal.value ds % 2 ^ 64 = 0 ∨ maxCommandArgs < Decimal.value ds % 2 ^ 64)) ∧
    ∀ args more s', Reaches s args (more + 1) s' → readLine s' = some (36 :: ds, rest) →
      (LengthHonoured upper s args more s' ds rest ↔ Decimal.value ds ≤ maxBulkLength ∨
        maxBulkLength < Decimal.value ds % 2 ^ 64 ∧ Decimal.value ds % 2 ^ 64 < 2 ^ 63) :=
  ⟨countHonoured_iff upper hds, fun _ _ _ h ↦ lengthHonoured_iff upper h hds⟩

/-- Headers that are far out of range, and are refused. -/
theorem lengths_honoured_huge :
    CountHonoured id (bytesOf "*99999999999999999999\r\n") (bytesOf "99999999999999999999") [] ∧
      LengthHonoured id (bytesOf "*1\r\n$99999999999999999999\r\n") [] 0
        (bytesOf "$99999999999999999999\r\n") (bytesOf "99999999999999999999") [] := by
  have hds : IsNumeral (bytesOf "99999999999999999999") := by decide +kernel
  have hline : readLine (bytesOf "*1\r\n$99999999999999999999\r\n")
      = some (42 :: bytesOf "1", bytesOf "$99999999999999999999\r\n") := by decide +kernel
  have hparse : parseUintBytes (bytesOf "1") = some 1 := by decide
  have hreach := Reaches.header hline hparse (by decide) (by decide)
  constructor
  · exact ((lengths_honoured_iff id _ _ _ hds).1 (by decide +kernel)).mpr (by decide +kernel)
  · exact ((lengths_honoured_iff id _ _ _ hds).2 [] 0 _ hreach (by decide +kernel)).mpr
      (by decide +kernel)

/-- `2 ^ 64 + 1` arguments are announced, and one is read. -/
theorem lengths_wrap :
    readCommand id (bytesOf "*18446744073709551617\r\n$4\r\nPING\r\n")
        = .ok (⟨bytesOf "PING", []⟩, []) ∧
      ¬CountHonoured id (bytesOf "*18446744073709551617\r\n$4\r\nPING\r\n")
        (bytesOf "18446744073709551617") (bytesOf "$4\r\nPING\r\n") ∧
      readCommand id (bytesOf "*2\r\n$4\r\nPING\r\n$18446744073709551615\r\n")
        = .ok (⟨bytesOf "PING", [none]⟩, []) := by
  refine ⟨by decide +kernel, fun h ↦ ?_, by decide +kernel⟩
  have hvalue := (countHonoured_iff id (by decide +kernel) (by decide +kernel)).mp h
  exact absurd hvalue (by decide +kernel)

/-! ## The ends of the bulk strings -/

/-- So many arguments as they are announced on a stream: nil, or a payload of the announced length
with the two bytes that follow it. -/
inductive Announces : ℕ → Bytes → List (Option (Bytes × Bytes)) → Bytes → Prop where
  | nil {s : Bytes} : Announces 0 s [] s
  | null {n : ℕ} {s ds s' rest : Bytes} {items : List (Option (Bytes × Bytes))} {bulkLen : ℤ} :
      readLine s = some (36 :: ds, s') → parseIntBytes ds = some bulkLen → bulkLen < 0 →
      Announces n s' items rest → Announces (n + 1) s (none :: items) rest
  | bulk {n : ℕ} {s ds payload ending s' rest : Bytes} {items : List (Option (Bytes × Bytes))} :
      readLine s = some (36 :: ds, payload ++ ending ++ s') →
      parseIntBytes ds = some (payload.length : ℤ) → payload.length ≤ maxBulkLength →
      ending.length = 2 → Announces n s' items rest →
      Announces (n + 1) s (some (payload, ending) :: items) rest

/-- The array command at the front of a stream, as it is announced. -/
inductive ArrayFrame (s : Bytes) (items : List (Option (Bytes × Bytes))) (rest : Bytes) : Prop where
  | intro {ds s' : Bytes} {count : ℤ} : readLine s = some (42 :: ds, s') →
      parseUintBytes ds = some count → 0 < count → count ≤ maxCommandArgs →
      Announces count.toNat s' items rest → ArrayFrame s items rest

/-- Every payload that is read is followed by the end of a line. -/
def EndsLines (s : Bytes) : Prop :=
  ∀ args more s' payload s'', Reaches s args (more + 1) s' →
    readArg s' = .ok (some payload, s'') →
    ∃ line, readLine s' = some (line, payload ++ crlf ++ s'')

/-- A command that is returned from an array header is framed correctly. -/
def Framed (upper : Char → Char) (s : Bytes) : Prop :=
  ∀ cmd rest, readCommand upper s = .ok (cmd, rest) → EndsLines s

theorem announces_of_readArg {s s' : Bytes} {a : Option Bytes} (h : readArg s = .ok (a, s')) :
    ∃ item : Option (Bytes × Bytes), item.map Prod.fst = a ∧
      ∀ {n : ℕ} {items : List (Option (Bytes × Bytes))} {rest : Bytes},
        Announces n s' items rest → Announces (n + 1) s (item :: items) rest := by
  rw [readArg] at h
  split at h
  · exact nomatch h
  rename_i argLine r hline
  split at h
  · exact nomatch h
  rename_i hhead
  obtain ⟨ds, rfl⟩ : ∃ ds, argLine = 36 :: ds := by
    obtain ⟨ds, hds⟩ := List.head?_eq_some_iff.mp (not_not.mp hhead)
    exact ⟨ds, hds⟩
  split at h
  · exact nomatch h
  rename_i bulkLen hparse
  split at h
  · exact nomatch h
  rename_i hmax
  split at h
  · rename_i hneg
    obtain ⟨rfl, rfl⟩ := Prod.mk.inj (Except.ok.inj h)
    exact ⟨none, rfl, .null hline hparse hneg⟩
  rename_i hpos
  split at h
  · exact nomatch h
  rename_i buf r' hfull
  obtain ⟨rfl, rfl⟩ := Prod.mk.inj (Except.ok.inj h)
  obtain ⟨rfl, hlen⟩ := readFull_eq_some hfull
  have hpayload : (buf.take bulkLen.toNat).length = bulkLen.toNat :=
    List.length_take_of_le (by omega)
  have hline' : readLine s
      = some (36 :: ds, buf.take bulkLen.toNat ++ buf.drop bulkLen.toNat ++ r') := by
    rwa [List.take_append_drop]
  refine ⟨some (buf.take bulkLen.toNat, buf.drop bulkLen.toNat), rfl, .bulk hline' ?_ ?_ ?_⟩
  · rw [hpayload, Int.toNat_of_nonneg (not_lt.mp hpos)]
    exact hparse
  · rw [hpayload]
    omega
  · rw [List.length_drop]
    omega

private theorem announces_of_readArgs : ∀ {n : ℕ} {s : Bytes} {args : List (Option Bytes)}
    {rest : Bytes}, readArgs n s = .ok (args, rest) → ∃ items, Announces n s items rest := by
  intro n
  induction n with
  | zero =>
    intro s args rest h
    obtain ⟨-, rfl⟩ := Prod.mk.inj (Except.ok.inj h)
    exact ⟨[], .nil⟩
  | succ n ih =>
    intro s args rest h
    rw [readArgs] at h
    split at h
    · cases h
    rename_i a s' hread
    split at h
    · cases h
    rename_i args' rest' hargs
    obtain ⟨-, rfl⟩ := Prod.mk.inj (Except.ok.inj h)
    obtain ⟨items, hitems⟩ := ih hargs
    obtain ⟨item, -, hcons⟩ := announces_of_readArg hread
    exact ⟨item :: items, hcons hitems⟩

theorem readArg_null {s ds s' : Bytes} {bulkLen : ℤ} (hline : readLine s = some (36 :: ds, s'))
    (hparse : parseIntBytes ds = some bulkLen) (hneg : bulkLen < 0) :
    readArg s = .ok (none, s') := by
  rw [readArg_bulk hline hparse, if_neg (by omega), if_pos hneg]

theorem readArg_payload {s ds payload ending s' : Bytes}
    (hline : readLine s = some (36 :: ds, payload ++ ending ++ s'))
    (hparse : parseIntBytes ds = some (payload.length : ℤ))
    (hmax : payload.length ≤ maxBulkLength) (hending : ending.length = 2) :
    readArg s = .ok (some payload, s') := by
  have hlen : (payload ++ ending).length = payload.length + 2 := by
    rw [List.length_append, hending]
  rw [readArg_bulk hline hparse, if_neg (by omega), if_neg (by omega), Int.toNat_natCast,
    readFull_append hlen]
  simp only [List.take_left]

theorem Announces.readArgs_eq {n : ℕ} {s : Bytes} {items : List (Option (Bytes × Bytes))}
    {rest : Bytes} (h : Announces n s items rest) :
    readArgs n s = .ok (items.map (Option.map Prod.fst), rest) := by
  induction h with
  | nil => rfl
  | null hline hparse hneg _ ih =>
    rw [readArgs, readArg_null hline hparse hneg]
    simp only [ih]
    rfl
  | bulk hline hparse hmax hending _ ih =>
    rw [readArgs, readArg_payload hline hparse hmax hending]
    simp only [ih]
    rfl

theorem Reaches.arrayFrame {s : Bytes} {args : List (Option Bytes)} {more : ℕ} {s' : Bytes}
    (h : Reaches s args more s') : ∀ {items : List (Option (Bytes × Bytes))} {rest : Bytes},
    Announces more s' items rest → ∃ front, ArrayFrame s (front ++ items) rest := by
  induction h with
  | header hline hparse hpos hmax =>
    intro items rest hitems
    exact ⟨[], .intro hline hparse hpos hmax hitems⟩
  | arg _ hread ih =>
    intro items rest hitems
    obtain ⟨item, -, hcons⟩ := announces_of_readArg hread
    obtain ⟨front, hframe⟩ := ih (hcons hitems)
    exact ⟨front ++ [item], by rwa [List.append_assoc]⟩

/-- If every payload is followed by the end of a line, then so it is announced. -/
theorem EndsLines.ending_eq {s : Bytes} (h : EndsLines s) {n : ℕ} {s' : Bytes}
    {items : List (Option (Bytes × Bytes))} {rest : Bytes} (hitems : Announces n s' items rest) :
    ∀ {args : List (Option Bytes)}, Reaches s args n s' →
      ∀ payload ending, some (payload, ending) ∈ items → ending = crlf := by
  induction hitems with
  | nil => intro args _ payload ending hmem; exact absurd hmem List.not_mem_nil
  | null hline hparse hneg _ ih =>
    intro args hreach payload ending hmem
    rcases List.mem_cons.mp hmem with hitem | hmem
    · exact nomatch hitem
    · exact ih (hreach.arg (readArg_null hline hparse hneg)) payload ending hmem
  | bulk hline hparse hmax hending _ ih =>
    intro args hreach payload ending hmem
    have hread := readArg_payload hline hparse hmax hending
    rcases List.mem_cons.mp hmem with hitem | hmem
    · obtain ⟨rfl, rfl⟩ := Prod.mk.inj (Option.some_inj.mp hitem)
      obtain ⟨line, hline'⟩ := h _ _ _ _ _ hreach hread
      have hrest := (Prod.mk.inj (Option.some_inj.mp (hline.symm.trans hline'))).2
      exact List.append_cancel_left (List.append_cancel_right hrest)
    · exact ih (hreach.arg hread) payload ending hmem

/-- **Framing.** On every stream, a command is returned from an array header only if every payload
is followed by the end of a line, exactly if the two bytes behind every payload that the stream
announces are the end of a line: the reader accepts any two bytes there. -/
theorem framed_iff (upper : Char → Char) (s : Bytes) :
    Framed upper s ↔ ∀ items rest, ArrayFrame s items rest →
      ∀ payload ending, some (payload, ending) ∈ items → ending = crlf := by
  constructor
  · rintro h items rest ⟨hline, hparse, hpos, hmax, hitems⟩ payload ending hmem
    have hreach : Reaches s [] _ _ := .header hline hparse hpos hmax
    have hcall := hreach.readCommand_eq upper
    rw [commandOfArgs, hitems.readArgs_eq] at hcall
    -- there is at least one argument, so the call returns a command
    cases items with
    | nil => exact absurd hmem List.not_mem_nil
    | cons item items =>
      exact (h _ _ hcall).ending_eq hitems hreach payload ending hmem
  · intro h cmd rest hcmd args more s' payload s'' hreach hread
    have hcall := hreach.readCommand_eq upper
    rw [hcmd, commandOfArgs_succ, hread] at hcall
    obtain ⟨items, rest', hitems⟩ : ∃ items rest', Announces more s'' items rest' := by
      cases hargs : readArgs more s'' with
      | error err =>
        simp only [commandOfArgs, hargs] at hcall
        cases hcall
      | ok r =>
        obtain ⟨items, hitems⟩ := announces_of_readArgs hargs
        exact ⟨items, r.2, hitems⟩
    obtain ⟨item, hitem, hcons⟩ := announces_of_readArg hread
    obtain ⟨⟨p, ending⟩, rfl, rfl⟩ := Option.map_eq_some_iff.mp hitem
    obtain ⟨front, hframe⟩ := hreach.arrayFrame (hcons hitems)
    have hending := h _ _ hframe p ending (List.mem_append_right _ List.mem_cons_self)
    cases hcons hitems with
    | bulk hline hparse hmax hlen hitems' =>
      have hread' := readArg_payload hline hparse hmax hlen
      obtain ⟨-, rfl⟩ := Prod.mk.inj (Except.ok.inj (hread'.symm.trans hread))
      exact ⟨_, hending ▸ hline⟩

/-- Neither of the two payloads is followed by the end of a line. -/
theorem framing_unchecked :
    readCommand id (bytesOf "*2\r\n$4\r\nLPOPxy$1\r\nqzz")
        = .ok (⟨bytesOf "LPOP", [some (bytesOf "q")]⟩, []) ∧
      ¬Framed id (bytesOf "*2\r\n$4\r\nLPOPxy$1\r\nqzz") := by
  refine ⟨by decide +kernel, fun h ↦ ?_⟩
  have hline : readLine (bytesOf "*2\r\n$4\r\nLPOPxy$1\r\nqzz")
      = some (42 :: bytesOf "2", bytesOf "$4\r\nLPOPxy$1\r\nqzz") := by decide +kernel
  have hparse : parseUintBytes (bytesOf "2") = some 2 := by decide
  have hreach := Reaches.header hline hparse (by decide) (by decide)
  have hcmd : readCommand id (bytesOf "*2\r\n$4\r\nLPOPxy$1\r\nqzz")
      = .ok (⟨bytesOf "LPOP", [some (bytesOf "q")]⟩, []) := by decide +kernel
  obtain ⟨line, hrest⟩ := h _ _ hcmd [] 1 _ (bytesOf "LPOP") (bytesOf "$1\r\nqzz") hreach
    (by decide +kernel)
  have hrest' : (readLine (bytesOf "$4\r\nLPOPxy$1\r\nqzz")).map Prod.snd
      = some (bytesOf "LPOP" ++ crlf ++ bytesOf "$1\r\nqzz") := congrArg (Option.map Prod.snd) hrest
  exact absurd hrest' (by decide +kernel)

end Resp

end VortexMQ
