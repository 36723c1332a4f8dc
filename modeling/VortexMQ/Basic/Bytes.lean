import Mathlib

/-!
# Byte strings and machine words

Go strings and byte slices are lists of bytes: a topic name or a message identifier need not be
valid UTF-8, so `String` would be the wrong type for them. A slice that can be nil is an
`Option Bytes`, since a nil and an empty payload are answered differently on the wire.
-/

namespace VortexMQ

abbrev Bytes := List UInt8

/-- The bytes of a literal. -/
def bytesOf (s : String) : Bytes := s.toList.flatMap String.utf8EncodeChar

/-- The byte string is UTF-8. -/
def Utf8 (b : Bytes) : Prop := ∃ cs : List Char, b = cs.flatMap String.utf8EncodeChar

theorem utf8_bytesOf (s : String) : Utf8 (bytesOf s) := ⟨s.toList, rfl⟩

theorem Utf8.append {a b : Bytes} (ha : Utf8 a) (hb : Utf8 b) : Utf8 (a ++ b) := by
  obtain ⟨cs, rfl⟩ := ha
  obtain ⟨ds, rfl⟩ := hb
  exact ⟨cs ++ ds, List.flatMap_append.symm⟩

theorem utf8_of_ascii {s : Bytes} (h : ∀ b ∈ s, b.toNat ≤ 127) : Utf8 s := by
  refine ⟨s.map fun b ↦ Char.ofNat b.toNat, ?_⟩
  induction s with
  | nil => rfl
  | cons b s ih =>
    have hb := h b List.mem_cons_self
    have hvalid : b.toNat.isValidChar := Or.inl (lt_of_le_of_lt hb (by decide))
    have hchar : String.utf8EncodeChar (Char.ofNat b.toNat) = [b] := by
      have hval : (Char.ofNat b.toNat).val.toNat = b.toNat :=
        (Char.toNat_ofNat _).trans (if_pos hvalid)
      rw [String.utf8EncodeChar, hval, if_pos hb, UInt8.ofNat_toNat]
    rw [List.map_cons, List.flatMap_cons, hchar, ← ih fun c hc ↦ h c (List.mem_cons_of_mem _ hc)]
    rfl

theorem append_cons_inj_of_notMem_left {sep : UInt8} {u u' v v' : Bytes} (hu : sep ∉ u)
    (hu' : sep ∉ u') (h : u ++ sep :: v = u' ++ sep :: v') : u = u' ∧ v = v' := by
  have htake : ∀ {u : Bytes} (v : Bytes), sep ∉ u →
      (u ++ sep :: v).takeWhile (fun c ↦ c ≠ sep) = u := by
    intro u v hu
    have hall : ∀ c ∈ u, decide (c ≠ sep) = true := fun c hc ↦
      decide_eq_true (ne_of_mem_of_not_mem hc hu)
    rw [List.takeWhile_append_of_pos hall, List.takeWhile_cons_of_neg (by simp), List.append_nil]
  obtain rfl : u = u' := (htake v hu).symm.trans ((congrArg _ h).trans (htake v' hu'))
  exact ⟨rfl, (List.cons.inj (List.append_cancel_left h)).2⟩

/-- The byte of a hexadecimal digit. -/
def hexDigit (n : ℕ) : UInt8 := UInt8.ofNat (if n < 10 then 48 + n else 87 + n)

/-- `hex.EncodeToString`. -/
def hexOf (s : Bytes) : Bytes :=
  s.flatMap fun b ↦ [hexDigit (b.toNat / 16), hexDigit (b.toNat % 16)]

theorem toNat_hexDigit_le {n : ℕ} (h : n < 16) : (hexDigit n).toNat ≤ 127 := by
  interval_cases n <;> decide

theorem ascii_hexOf (s : Bytes) : ∀ b ∈ hexOf s, b.toNat ≤ 127 := by
  intro b hb
  obtain ⟨c, -, hb⟩ := List.mem_flatMap.mp hb
  have hc := c.toNat_lt
  rcases List.mem_cons.mp hb with rfl | hb
  · exact toNat_hexDigit_le (by omega)
  · obtain rfl := List.mem_singleton.mp hb
    exact toNat_hexDigit_le (Nat.mod_lt _ (by decide))

/-- The range of an `int` and of an `int64`. -/
def Int64Range (x : ℤ) : Prop := -2 ^ 63 ≤ x ∧ x < 2 ^ 63

instance (x : ℤ) : Decidable (Int64Range x) := inferInstanceAs (Decidable (_ ∧ _))

theorem int64Range_zero : Int64Range 0 := by decide

/-- Two's complement wrap-around of a 64-bit signed result. -/
def wrap64 (x : ℤ) : ℤ := x.bmod (2 ^ 64)

theorem wrap64_of_mem {x : ℤ} (hlo : -2 ^ 63 ≤ x) (hhi : x < 2 ^ 63) : wrap64 x = x := by
  rw [wrap64]
  exact Int.bmod_eq_of_le (by simpa using hlo) (by simpa using hhi)

theorem int64Range_wrap64 (x : ℤ) : Int64Range (wrap64 x) :=
  ⟨Int.le_bmod (by decide), Int.bmod_lt (by decide)⟩

theorem wrap64_of_mod_lt {n : ℕ} (h : n % 2 ^ 64 < 2 ^ 63) : wrap64 n = (n % 2 ^ 64 : ℕ) := by
  rw [wrap64, Int.bmod_eq_emod]
  split <;> omega

theorem wrap64_neg_of_le_mod {n : ℕ} (h : 2 ^ 63 ≤ n % 2 ^ 64) : wrap64 n < 0 := by
  rw [wrap64, Int.bmod_eq_emod]
  split <;> omega

theorem wrap64_wrap64_add (x y : ℤ) : wrap64 (wrap64 x + y) = wrap64 (x + y) :=
  Int.bmod_add_bmod

theorem wrap64_wrap64_mul (x y : ℤ) : wrap64 (wrap64 x * y) = wrap64 (x * y) :=
  Int.bmod_mul_bmod

/-- The nanoseconds of a `time.Duration` given in milliseconds. -/
def millisecond : ℤ := 1000000

def second : ℤ := 1000 * millisecond

end VortexMQ
