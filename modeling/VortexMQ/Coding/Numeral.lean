import VortexMQ.Coding.Text

/-!
# Decimal numbers in texts

How a number may be written, with or without a sign and with zeros in front; and that a number is
not a word, in whatever case the word is read.
-/

namespace VortexMQ

namespace Text

/-- A decimal number as it is written. -/
inductive Numeral : Bytes → ℤ → Prop
  | plain {ds : Bytes} : ds ≠ [] → (∀ b ∈ ds, Decimal.IsDigit b) → Numeral ds (Decimal.value ds)
  | plus {ds : Bytes} : ds ≠ [] → (∀ b ∈ ds, Decimal.IsDigit b) →
      Numeral (43 :: ds) (Decimal.value ds)
  | minus {ds : Bytes} : ds ≠ [] → (∀ b ∈ ds, Decimal.IsDigit b) →
      Numeral (45 :: ds) (-Decimal.value ds)

variable {w : Bytes} {v : ℤ}

theorem Numeral.ofNat (n : ℕ) : Numeral (Decimal.ofNat n) n := by
  have h := Numeral.plain (Decimal.ofNat_ne_nil n) Decimal.isDigit_of_mem_ofNat
  rwa [Decimal.value_ofNat] at h

theorem Numeral.atoi_eq (h : Numeral w v) (hv : Int64Range v) : atoi w = (v, true) := by
  have hlead : ∀ {ds : Bytes}, (∀ b ∈ ds, Decimal.IsDigit b) →
      ds.takeWhile (fun b ↦ Decimal.IsDigit b) = ds := fun hds ↦
    List.takeWhile_eq_self_iff.mpr fun b hb ↦ decide_eq_true (hds b hb)
  cases h with
  | @plain ds hne hds =>
    have hhead : ∀ c, ¬Decimal.IsDigit c → w.head? ≠ some c := fun c hc hhead ↦
      hc (hds c (List.mem_of_mem_head? hhead))
    have hle : ¬(2 ^ 63 : ℤ) ≤ Decimal.value w := not_le.mpr hv.2
    unfold atoi
    simp only [hhead 45 (by decide), hhead 43 (by decide), or_self, if_false, hlead hds, hne,
      ne_eq, not_true_eq_false, false_and, if_neg hle]
  | @plus ds hne hds =>
    have hsign : ¬(43 : UInt8) = 45 := by decide
    have hle : ¬(2 ^ 63 : ℤ) ≤ Decimal.value ds := not_le.mpr hv.2
    unfold atoi
    simp only [List.head?_cons, Option.some_inj, hsign, false_or, if_true, List.tail_cons,
      hlead hds, hne, ne_eq, not_true_eq_false, false_and, if_false, if_neg hle]
  | @minus ds hne hds =>
    have hle : ¬(2 ^ 63 : ℤ) < Decimal.value ds := by
      have := hv.1
      omega
    unfold atoi
    simp only [List.head?_cons, true_or, if_true, List.tail_cons, hlead hds, hne, ne_eq,
      not_true_eq_false, false_and, or_self, if_false, if_neg hle]

theorem Numeral.lt (h : Numeral w v) : ∀ b ∈ w, b < 64 := by
  have hdigit : ∀ {ds : Bytes}, (∀ b ∈ ds, Decimal.IsDigit b) → ∀ b ∈ ds, b < 64 :=
    fun hdigits b hb ↦ UInt8.lt_of_le_of_lt (hdigits b hb).2 (by decide)
  cases h with
  | plain _ hdigits => exact hdigit hdigits
  | plus _ hdigits => exact List.forall_mem_cons.mpr ⟨by decide, hdigit hdigits⟩
  | minus _ hdigits => exact List.forall_mem_cons.mpr ⟨by decide, hdigit hdigits⟩

theorem toUpper_eq_self (upper : Char → Char) : ∀ {s : Bytes}, (∀ b ∈ s, b < 64) →
    toUpper upper s = s := by
  intro s
  rw [toUpper]
  induction s with
  | nil => exact fun _ ↦ rfl
  | cons b s ih =>
    intro hs
    have hb := hs b List.mem_cons_self
    have hupper : upperByte b = b := if_neg fun h ↦
      absurd (UInt8.lt_of_le_of_lt h.1 hb) (by decide)
    rw [List.length_cons, toUpperLoop, if_pos (UInt8.lt_trans hb (by decide)), hupper,
      ih fun b' hb' ↦ hs b' (List.mem_cons_of_mem b hb')]

theorem Numeral.toUpper_ne (h : Numeral w v) (upper : Char → Char) {word : Bytes} {b : UInt8}
    (hb : word.head? = some b) (hletter : 64 ≤ b) : toUpper upper w ≠ word := by
  rw [toUpper_eq_self upper h.lt]
  rintro rfl
  exact absurd (h.lt b (List.mem_of_mem_head? hb)) (UInt8.not_lt.mpr hletter)

end Text

end VortexMQ
