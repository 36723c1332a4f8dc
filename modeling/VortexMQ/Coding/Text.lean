import VortexMQ.Coding.Decimal
import VortexMQ.Coding.Utf8

/-!
# Text in byte strings

The functions of Go's `bytes`, `strings` and `strconv` that the command parser uses. Upper case
outside ASCII is a table of the Unicode standard; it is a parameter here.
-/

namespace VortexMQ

namespace Text

/-! ## Upper case -/

/-- `unicode.ToUpper` on ASCII. -/
def upperByte (b : UInt8) : UInt8 := if 97 ≤ b ∧ b ≤ 122 then b - 32 else b

/-- The loop of `bytes.ToUpper`, character by character. A byte that starts no character becomes the
replacement character. -/
def toUpperLoop (upper : Char → Char) : ℕ → Bytes → Bytes
  | 0, _ => []
  | _, [] => []
  | fuel + 1, b :: rest =>
      if b < 128 then upperByte b :: toUpperLoop upper fuel rest
      else
        match decodeRune (b :: rest) with
        | some (c, rest') => String.utf8EncodeChar (upper c) ++ toUpperLoop upper fuel rest'
        | none => [0xEF, 0xBF, 0xBD] ++ toUpperLoop upper fuel rest

/-- `bytes.ToUpper` and `strings.ToUpper`. -/
def toUpper (upper : Char → Char) (s : Bytes) : Bytes := toUpperLoop upper s.length s

/-! ## White space -/

/-- `unicode.IsSpace` outside ASCII. -/
def isSpaceRune (c : Char) : Bool :=
  c.toNat ∈ [0x85, 0xA0, 0x1680, 0x2028, 0x2029, 0x202F, 0x205F, 0x3000]
    || (0x2000 ≤ c.toNat && c.toNat ≤ 0x200A)

/-- `unicode.IsSpace` on ASCII. -/
def isSpaceByte (b : UInt8) : Bool := b = 32 || (9 ≤ b && b ≤ 13)

/-- Whether the text starts with white space, and how many bytes the first character has. -/
def firstRune (s : Bytes) : Bool × ℕ :=
  match s with
  | [] => (false, 1)
  | b :: _ =>
      if b < 128 then (isSpaceByte b, 1)
      else
        match decodeRune s with
        | some (c, _) => (isSpaceRune c, c.utf8Size)
        | none => (false, 1)

/-- The loop of `bytes.Fields` at position `i`; `start` is where the current field began. Fields are
pairs of positions. -/
def fieldsLoop : ℕ → ℕ → Option ℕ → Bytes → List (ℕ × ℕ)
  | 0, i, start, _ => (start.map fun j ↦ (j, i)).toList
  | fuel + 1, i, start, s =>
      if s = [] then (start.map fun j ↦ (j, i)).toList
      else if (firstRune s).1 then
        (start.map fun j ↦ (j, i)).toList
          ++ fieldsLoop fuel (i + (firstRune s).2) none (s.drop (firstRune s).2)
      else fieldsLoop fuel (i + (firstRune s).2) (some (start.getD i)) (s.drop (firstRune s).2)

/-- Where the fields of `bytes.Fields` are. -/
def fieldSpans (s : Bytes) : List (ℕ × ℕ) := fieldsLoop s.length 0 none s

/-- The bytes between two positions. -/
def slice (s : Bytes) (span : ℕ × ℕ) : Bytes := (s.drop span.1).take (span.2 - span.1)

def fields (s : Bytes) : List Bytes := (fieldSpans s).map (slice s)

theorem firstRune_le {s : Bytes} (h : s ≠ []) : (firstRune s).2 ≤ s.length := by
  have hpos : 1 ≤ s.length := List.length_pos_iff.mpr h
  cases s with
  | nil => exact absurd rfl h
  | cons b t =>
    rw [firstRune]
    split
    · exact hpos
    · split
      · rename_i c rest hdecode
        obtain ⟨c', hchar, heq⟩ := Option.map_eq_some_iff.mp hdecode
        obtain ⟨rfl, -⟩ := Prod.mk.inj heq
        have hle := ByteArray.le_size_of_utf8DecodeChar?_eq_some hchar
        rwa [Nat.zero_add, List.size_toByteArray] at hle
      · exact hpos

theorem snd_le_of_mem_fieldsLoop {span : ℕ × ℕ} : ∀ {fuel i : ℕ} {start : Option ℕ} {s : Bytes},
    span ∈ fieldsLoop fuel i start s → span.2 ≤ i + s.length := by
  have hlast : ∀ {i n : ℕ} {start : Option ℕ},
      span ∈ (start.map fun j ↦ (j, i)).toList → span.2 ≤ i + n := by
    intro i n start h
    obtain ⟨j, -, rfl⟩ := Option.map_eq_some_iff.mp (Option.mem_toList.mp h)
    exact Nat.le_add_right i n
  intro fuel
  induction fuel with
  | zero => intro i start s h; exact hlast h
  | succ fuel ih =>
    intro i start s h
    rw [fieldsLoop] at h
    split at h
    · exact hlast h
    · rename_i hs
      have hle := firstRune_le hs
      have hend : i + (firstRune s).2 + (s.drop (firstRune s).2).length = i + s.length := by
        rw [List.length_drop]
        omega
      split at h
      · rcases List.mem_append.mp h with h | h
        · exact hlast h
        · exact (ih h).trans_eq hend
      · exact (ih h).trans_eq hend

theorem snd_le_of_mem_fieldSpans {s : Bytes} {span : ℕ × ℕ} (h : span ∈ fieldSpans s) :
    span.2 ≤ s.length := (snd_le_of_mem_fieldsLoop h).trans_eq (Nat.zero_add _)

/-! ## Numbers -/

/-- `strconv.Atoi`: the value and whether there was no error. Out of range, the value is the nearest
bound. -/
def atoi (s : Bytes) : ℤ × Bool :=
  let neg := s.head? = some 45
  let digits := if s.head? = some 45 ∨ s.head? = some 43 then s.tail else s
  let lead := digits.takeWhile fun b ↦ Decimal.IsDigit b
  let n : ℤ := Decimal.value lead
  -- `ParseUint` stops at the digit that takes the number past 64 bits, whatever comes after it
  if digits = [] ∨ lead ≠ digits ∧ n < 2 ^ 64 then (0, false)
  else if neg then if 2 ^ 63 < n then (-2 ^ 63, false) else (-n, true)
  else if 2 ^ 63 ≤ n then (2 ^ 63 - 1, false) else (n, true)

end Text

end VortexMQ
