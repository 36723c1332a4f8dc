import VortexMQ.Basic.Bytes

/-!
# Decimal numerals

Numbers are written most significant digit first. Reading is the usual left fold, so a numeral is
best taken apart at its last digit, which is how `Nat.toDigits` unfolds. Zero-padding to a fixed
width makes the lexicographic order of numerals the order of the numbers.
-/

namespace VortexMQ

namespace Decimal

def digit (d : ℕ) : UInt8 := UInt8.ofNat (48 + d)

/-- One of the bytes `'0'` to `'9'`. -/
def IsDigit (c : UInt8) : Prop := 48 ≤ c ∧ c ≤ 57

instance (c : UInt8) : Decidable (IsDigit c) := inferInstanceAs (Decidable (_ ∧ _))

/-- The number a byte stands for. -/
def digitValue (c : UInt8) : ℕ := c.toNat - 48

theorem toNat_digit {d : ℕ} (h : d < 10) : (digit d).toNat = 48 + d := by
  rw [digit, UInt8.toNat_ofNat']
  exact Nat.mod_eq_of_lt (by omega)

theorem isDigit_digit {d : ℕ} (h : d < 10) : IsDigit (digit d) := by
  have hd := toNat_digit h
  refine ⟨UInt8.le_iff_toNat_le.mpr ?_, UInt8.le_iff_toNat_le.mpr ?_⟩
  · rw [hd]
    exact Nat.le_add_right _ _
  · rw [hd]
    exact Nat.add_le_add_left (Nat.le_of_lt_succ h) 48

theorem digitValue_digit {d : ℕ} (h : d < 10) : digitValue (digit d) = d := by
  rw [digitValue, toNat_digit h, Nat.add_sub_cancel_left]

theorem digitValue_lt {c : UInt8} (h : IsDigit c) : digitValue c < 10 := by
  have hle : c.toNat ≤ 57 := UInt8.le_iff_toNat_le.mp h.2
  rw [digitValue]
  omega

/-! ## Writing and reading -/

/-- `strconv.Itoa` of a number that is not negative. -/
def ofNat (n : ℕ) : Bytes := (Nat.toDigits 10 n).map fun c ↦ UInt8.ofNat c.toNat

/-- `strconv.FormatInt(z, 10)`. -/
def ofInt (z : ℤ) : Bytes := if z < 0 then 45 :: ofNat z.natAbs else ofNat z.natAbs

/-- Digits read from the left, starting from `acc`. -/
def valueFrom (acc : ℕ) (ds : Bytes) : ℕ := ds.foldl (fun n c ↦ n * 10 + digitValue c) acc

def value (ds : Bytes) : ℕ := valueFrom 0 ds

private theorem ofNat_digitChar {d : ℕ} (h : d < 10) :
    UInt8.ofNat d.digitChar.toNat = digit d := by
  interval_cases d <;> rfl

theorem ofNat_of_lt {n : ℕ} (h : n < 10) : ofNat n = [digit n] := by
  rw [ofNat, Nat.toDigits_eq_if (by decide), if_pos h, List.map_singleton, ofNat_digitChar h]

theorem ofNat_of_le {n : ℕ} (h : 10 ≤ n) : ofNat n = ofNat (n / 10) ++ [digit (n % 10)] := by
  rw [ofNat, Nat.toDigits_eq_if (by decide), if_neg (Nat.not_lt.mpr h), List.map_append,
    List.map_singleton, ofNat_digitChar (Nat.mod_lt n (by decide)), ofNat]

theorem isDigit_of_mem_ofNat {n : ℕ} : ∀ c ∈ ofNat n, IsDigit c := by
  induction n using Nat.strong_induction_on with
  | _ n ih =>
    intro c hc
    rcases Nat.lt_or_ge n 10 with hn | hn
    · rw [ofNat_of_lt hn, List.mem_singleton] at hc
      exact hc ▸ isDigit_digit hn
    · rw [ofNat_of_le hn, List.mem_append, List.mem_singleton] at hc
      rcases hc with hc | rfl
      · exact ih (n / 10) (Nat.div_lt_self (by omega) (by decide)) c hc
      · exact isDigit_digit (Nat.mod_lt n (by decide))

theorem ascii_ofNat (n : ℕ) : ∀ c ∈ ofNat n, c.toNat ≤ 127 := by
  intro c hc
  exact (UInt8.le_iff_toNat_le.mp (isDigit_of_mem_ofNat c hc).2).trans (by decide)

theorem ascii_ofInt (z : ℤ) : ∀ c ∈ ofInt z, c.toNat ≤ 127 := by
  intro c hc
  rw [ofInt] at hc
  split at hc
  · rcases List.mem_cons.mp hc with rfl | hc
    · decide
    · exact ascii_ofNat _ c hc
  · exact ascii_ofNat _ c hc

theorem ofNat_ne_nil (n : ℕ) : ofNat n ≠ [] := by
  rcases Nat.lt_or_ge n 10 with hn | hn
  · rw [ofNat_of_lt hn]
    exact List.cons_ne_nil _ _
  · rw [ofNat_of_le hn]
    exact List.append_ne_nil_of_right_ne_nil _ (List.cons_ne_nil _ _)

theorem value_append_singleton (ds : Bytes) (c : UInt8) :
    value (ds ++ [c]) = value ds * 10 + digitValue c := by
  rw [value, valueFrom, List.foldl_append]
  rfl

theorem value_ofNat (n : ℕ) : value (ofNat n) = n := by
  induction n using Nat.strong_induction_on with
  | _ n ih =>
    rcases Nat.lt_or_ge n 10 with hn | hn
    · rw [ofNat_of_lt hn]
      exact (Nat.zero_add _).trans (digitValue_digit hn)
    · rw [ofNat_of_le hn, value_append_singleton,
        ih (n / 10) (Nat.div_lt_self (by omega) (by decide)),
        digitValue_digit (Nat.mod_lt n (by decide)), Nat.div_add_mod' n 10]

theorem ofNat_injective : Function.Injective ofNat := fun m n h ↦ by
  rw [← value_ofNat m, h, value_ofNat]

theorem length_ofNat_le {k : ℕ} (hk : 0 < k) :
    ∀ {n : ℕ}, n < 10 ^ k → (ofNat n).length ≤ k := by
  induction k, hk using Nat.le_induction with
  | base =>
    intro n hn
    rw [ofNat_of_lt (by simpa using hn), List.length_singleton]
  | succ k hk ih =>
    intro n hn
    rcases Nat.lt_or_ge n 10 with hlt | hge
    · rw [ofNat_of_lt hlt, List.length_singleton]
      exact Nat.succ_le_succ (Nat.zero_le k)
    · have hdiv : n / 10 < 10 ^ k := Nat.div_lt_of_lt_mul (by rwa [Nat.mul_comm, ← Nat.pow_succ])
      rw [ofNat_of_le hge, List.length_append, List.length_singleton]
      exact Nat.succ_le_succ (ih hdiv)

/-! ## Fixed width -/

/-- `%0<width>d`. -/
def padded (width n : ℕ) : Bytes :=
  List.replicate (width - (ofNat n).length) 48 ++ ofNat n

theorem isDigit_of_mem_padded {width n : ℕ} : ∀ c ∈ padded width n, IsDigit c := by
  intro c hc
  rcases List.mem_append.mp hc with hc | hc
  · rw [List.eq_of_mem_replicate hc]
    decide
  · exact isDigit_of_mem_ofNat c hc

theorem length_padded {width n : ℕ} (hw : 0 < width) (h : n < 10 ^ width) :
    (padded width n).length = width := by
  rw [padded, List.length_append, List.length_replicate]
  exact Nat.sub_add_cancel (length_ofNat_le hw h)

theorem value_padded (width n : ℕ) : value (padded width n) = n := by
  have hzeros : ∀ k, valueFrom 0 (List.replicate k 48) = 0 := by
    intro k
    induction k with
    | zero => rfl
    | succ k ih => exact ih
  rw [value, valueFrom, padded, List.foldl_append]
  exact (congrArg (fun acc ↦ valueFrom acc (ofNat n)) (hzeros _)).trans (value_ofNat n)

theorem padded_injective (width : ℕ) : Function.Injective (padded width) := fun m n h ↦ by
  rw [← value_padded width m, h, value_padded]

theorem valueFrom_eq (acc : ℕ) (ds : Bytes) :
    valueFrom acc ds = acc * 10 ^ ds.length + value ds := by
  induction ds using List.reverseRecOn with
  | nil => simp [valueFrom, value]
  | append_singleton ds c ih =>
    rw [value_append_singleton, List.length_append, List.length_singleton, pow_succ]
    have hstep : valueFrom acc (ds ++ [c]) = valueFrom acc ds * 10 + digitValue c := by
      rw [valueFrom, List.foldl_append]
      rfl
    rw [hstep, ih]
    ring

theorem value_lt {ds : Bytes} (h : ∀ c ∈ ds, IsDigit c) : value ds < 10 ^ ds.length := by
  induction ds using List.reverseRecOn with
  | nil => exact Nat.one_pos
  | append_singleton ds c ih =>
    have hc := digitValue_lt (h c (List.mem_append_right _ (List.mem_singleton.mpr rfl)))
    have hds := ih fun d hd ↦ h d (List.mem_append_left _ hd)
    rw [value_append_singleton, List.length_append, List.length_singleton, pow_succ]
    omega

theorem lt_of_value_lt : ∀ {ds es : Bytes}, ds.length = es.length → (∀ c ∈ ds, IsDigit c) →
    (∀ c ∈ es, IsDigit c) → value ds < value es → ds < es := by
  intro ds
  induction ds with
  | nil =>
    intro es hlen _ _ hlt
    rw [List.length_nil] at hlen
    obtain rfl := List.length_eq_zero_iff.mp hlen.symm
    exact absurd hlt (lt_irrefl _)
  | cons c ds ih =>
    intro es hlen hds hes hlt
    cases es with
    | nil => exact absurd hlen (by simp)
    | cons d es =>
      have hlen' : ds.length = es.length := Nat.succ_injective hlen
      have hc := hds c List.mem_cons_self
      have hd := hes d List.mem_cons_self
      have htail : ∀ e ∈ es, IsDigit e := fun e he ↦ hes e (List.mem_cons_of_mem _ he)
      have hval : ∀ (b : UInt8) (bs : Bytes),
          value (b :: bs) = digitValue b * 10 ^ bs.length + value bs := by
        intro b bs
        rw [← valueFrom_eq]
        exact congrArg (fun acc ↦ valueFrom acc bs) (Nat.zero_add _)
      rw [hval, hval, hlen'] at hlt
      rcases Nat.lt_trichotomy c.toNat d.toNat with hcd | hcd | hcd
      · exact List.cons_lt_cons_iff.mpr (Or.inl (UInt8.lt_iff_toNat_lt.mpr hcd))
      · obtain rfl := UInt8.toNat_inj.mp hcd
        refine List.cons_lt_cons_iff.mpr (Or.inr ⟨rfl, ?_⟩)
        exact ih hlen' (fun e he ↦ hds e (List.mem_cons_of_mem _ he)) htail
          (Nat.lt_of_add_lt_add_left hlt)
      · -- a larger leading digit outweighs everything behind it
        exfalso
        have hstep : digitValue d + 1 ≤ digitValue c := by
          have := UInt8.le_iff_toNat_le.mp hd.1
          rw [digitValue, digitValue]
          have h48 : (48 : UInt8).toNat = 48 := rfl
          omega
        have hmul := Nat.mul_le_mul_right (10 ^ es.length) hstep
        have hes := value_lt htail
        rw [Nat.add_mul, Nat.one_mul] at hmul
        omega

/-- What follows numerals of one width does not matter for their order. -/
theorem append_lt_append : ∀ {ds es : Bytes}, ds.length = es.length → ds < es →
    ∀ s t : Bytes, ds ++ s < es ++ t := by
  intro ds
  induction ds with
  | nil =>
    intro es hlen hlt
    obtain rfl := List.length_eq_zero_iff.mp hlen.symm
    exact absurd hlt (List.lt_irrefl _)
  | cons c ds ih =>
    intro es hlen hlt s t
    cases es with
    | nil => exact absurd hlen (by simp)
    | cons d es =>
      rw [List.cons_append, List.cons_append, List.cons_lt_cons_iff]
      rcases List.cons_lt_cons_iff.mp hlt with hcd | ⟨rfl, hrest⟩
      · exact Or.inl hcd
      · exact Or.inr ⟨rfl, ih (Nat.succ_injective hlen) hrest s t⟩

theorem padded_lt_padded {width m n : ℕ} (hw : 0 < width) (hn : n < 10 ^ width) (h : m < n) :
    padded width m < padded width n := by
  refine lt_of_value_lt ?_ isDigit_of_mem_padded isDigit_of_mem_padded ?_
  · rw [length_padded hw (h.trans hn), length_padded hw hn]
  · rwa [value_padded, value_padded]

/-! ## Leading digits -/

theorem value_append (ds es : Bytes) : value (ds ++ es) = value ds * 10 ^ es.length + value es := by
  rw [← valueFrom_eq, value, valueFrom, List.foldl_append]
  rfl

theorem value_take {ds : Bytes} (h : ∀ c ∈ ds, IsDigit c) (k : ℕ) :
    value (ds.take k) = value ds / 10 ^ (ds.length - k) := by
  have hsplit := value_append (ds.take k) (ds.drop k)
  have hlt : value (ds.drop k) < 10 ^ (ds.length - k) := by
    have := value_lt fun c hc ↦ h c ((List.drop_sublist k ds).subset hc)
    rwa [List.length_drop] at this
  rw [List.take_append_drop, List.length_drop] at hsplit
  rw [hsplit, Nat.mul_comm, Nat.mul_add_div (Nat.pow_pos (by decide)), Nat.div_eq_of_lt hlt,
    Nat.add_zero]

theorem digitValue_inj {c d : UInt8} (hc : IsDigit c) (hd : IsDigit d)
    (h : digitValue c = digitValue d) : c = d := by
  have hc' : 48 ≤ c.toNat := UInt8.le_iff_toNat_le.mp hc.1
  have hd' : 48 ≤ d.toNat := UInt8.le_iff_toNat_le.mp hd.1
  rw [digitValue, digitValue] at h
  exact UInt8.toNat_inj.mp (by omega)

theorem eq_of_value_eq : ∀ {ds es : Bytes}, ds.length = es.length → (∀ c ∈ ds, IsDigit c) →
    (∀ c ∈ es, IsDigit c) → value ds = value es → ds = es := by
  intro ds
  induction ds using List.reverseRecOn with
  | nil =>
    intro es hlen _ _ _
    exact (List.length_eq_zero_iff.mp hlen.symm).symm
  | append_singleton ds c ih =>
    intro es hlen hds hes h
    rw [List.length_append, List.length_singleton] at hlen
    obtain ⟨es, d, rfl⟩ := (List.eq_nil_or_concat' es).resolve_left
      (List.ne_nil_of_length_eq_add_one hlen.symm)
    rw [List.length_append, List.length_singleton] at hlen
    have hmem : ∀ (fs : Bytes) (e : UInt8), e ∈ fs ++ [e] := fun fs e ↦
      List.mem_append_right _ List.mem_cons_self
    have hc := hds c (hmem ds c)
    have hd := hes d (hmem es d)
    -- the last digit is the remainder modulo ten
    have hclt := digitValue_lt hc
    have hdlt := digitValue_lt hd
    rw [value_append_singleton, value_append_singleton] at h
    obtain rfl := digitValue_inj hc hd (by omega)
    rw [ih (Nat.succ_injective hlen) (fun e he ↦ hds e (List.mem_append_left _ he))
      (fun e he ↦ hes e (List.mem_append_left _ he)) (by omega)]

theorem length_ofNat (n : ℕ) : (ofNat n).length = Nat.log 10 n + 1 := by
  induction n using Nat.strong_induction_on with
  | _ n ih =>
    rcases Nat.lt_or_ge n 10 with hn | hn
    · rw [ofNat_of_lt hn, List.length_singleton, Nat.log_of_lt hn]
    · rw [ofNat_of_le hn, List.length_append, List.length_singleton,
        ih (n / 10) (Nat.div_lt_self (by omega) (by decide)),
        Nat.log_of_one_lt_of_le (by decide) hn]

theorem length_padded_eq (width n : ℕ) :
    (padded width n).length = max width (Nat.log 10 n + 1) := by
  rw [padded, List.length_append, List.length_replicate, length_ofNat]
  omega

end Decimal

end VortexMQ
