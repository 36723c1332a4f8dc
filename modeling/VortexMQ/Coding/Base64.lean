import VortexMQ.Basic.Bytes

/-!
# Base64

Standard encoding with padding, as `encoding/json` applies it to byte slices: three bytes become
four digits of six bits.
-/

namespace VortexMQ

namespace Base64

def digit (n : ℕ) : UInt8 :=
  UInt8.ofNat <|
    if n < 26 then 65 + n
    else if n < 52 then 97 + (n - 26)
    else if n < 62 then 48 + (n - 52)
    else if n = 62 then 43
    else 47

def undigit (c : UInt8) : Option ℕ :=
  let v := c.toNat
  if 65 ≤ v ∧ v ≤ 90 then some (v - 65)
  else if 97 ≤ v ∧ v ≤ 122 then some (v - 97 + 26)
  else if 48 ≤ v ∧ v ≤ 57 then some (v - 48 + 52)
  else if v = 43 then some 62
  else if v = 47 then some 63
  else none

def padding : UInt8 := 61

def encode : Bytes → Bytes
  | a :: b :: c :: rest =>
      let n := a.toNat * 65536 + b.toNat * 256 + c.toNat
      digit (n / 262144) :: digit (n / 4096 % 64) :: digit (n / 64 % 64) :: digit (n % 64)
        :: encode rest
  | [a, b] =>
      let n := a.toNat * 65536 + b.toNat * 256
      [digit (n / 262144), digit (n / 4096 % 64), digit (n / 64 % 64), padding]
  | [a] =>
      let n := a.toNat * 65536
      [digit (n / 262144), digit (n / 4096 % 64), padding, padding]
  | [] => []

def decodeLast (w x y z : UInt8) : Option Bytes :=
  (undigit w).bind fun w ↦ (undigit x).bind fun x ↦
    if y = padding then
      if z = padding then some [UInt8.ofNat ((w * 64 + x) / 16)] else none
    else (undigit y).bind fun y ↦
      if z = padding then
        let n := (w * 64 + x) * 64 + y
        some [UInt8.ofNat (n / 1024), UInt8.ofNat (n / 4)]
      else (undigit z).map fun z ↦
        let n := ((w * 64 + x) * 64 + y) * 64 + z
        [UInt8.ofNat (n / 65536), UInt8.ofNat (n / 256), UInt8.ofNat n]

def decode : Bytes → Option Bytes
  | [] => some []
  | [w, x, y, z] => decodeLast w x y z
  | w :: x :: y :: z :: rest =>
      if y = padding ∨ z = padding then none
      else (decodeLast w x y z).bind fun group ↦ (decode rest).map (group ++ ·)
  | _ => none

theorem undigit_digit {n : ℕ} (h : n < 64) : undigit (digit n) = some n := by
  interval_cases n <;> rfl

theorem digit_ne_padding {n : ℕ} (h : n < 64) : digit n ≠ padding := by
  interval_cases n <;> decide

theorem decodeLast_group (a b c : UInt8) :
    let n := a.toNat * 65536 + b.toNat * 256 + c.toNat
    decodeLast (digit (n / 262144)) (digit (n / 4096 % 64)) (digit (n / 64 % 64)) (digit (n % 64))
      = some [a, b, c] := by
  intro n
  have ha := a.toNat_lt
  have hb := b.toNat_lt
  have hc := c.toNat_lt
  have hn : n = a.toNat * 65536 + b.toNat * 256 + c.toNat := rfl
  have h₁ : n / 262144 < 64 := by omega
  have hm : ∀ k, k % 64 < 64 := fun k ↦ Nat.mod_lt k (by decide)
  simp only [decodeLast, undigit_digit h₁, undigit_digit (hm _), digit_ne_padding (hm _),
    Option.bind_some, if_false, Option.map_some, Option.some_inj]
  have hval : ((n / 262144 * 64 + n / 4096 % 64) * 64 + n / 64 % 64) * 64 + n % 64 = n := by omega
  rw [hval]
  refine List.cons_eq_cons.mpr ⟨?_, List.cons_eq_cons.mpr ⟨?_, List.cons_eq_cons.mpr ⟨?_, rfl⟩⟩⟩
  · rw [← UInt8.toNat_inj, UInt8.toNat_ofNat']
    omega
  · rw [← UInt8.toNat_inj, UInt8.toNat_ofNat']
    omega
  · rw [← UInt8.toNat_inj, UInt8.toNat_ofNat']
    omega

theorem decode_cons_group (a b c : UInt8) (text : Bytes) :
    let n := a.toNat * 65536 + b.toNat * 256 + c.toNat
    decode (digit (n / 262144) :: digit (n / 4096 % 64) :: digit (n / 64 % 64) :: digit (n % 64)
        :: text) = (decode text).map ([a, b, c] ++ ·) := by
  intro n
  have hm : ∀ k, k % 64 < 64 := fun k ↦ Nat.mod_lt k (by decide)
  have hgroup := decodeLast_group a b c
  cases text with
  | nil => exact hgroup
  | cons t text =>
    rw [decode, if_neg (by simp [digit_ne_padding (hm _)]), hgroup]
    · rfl
    · simp

theorem decode_encode (p : Bytes) : decode (encode p) = some p := by
  fun_induction encode p with
  | case1 a b c rest n ih => rw [decode_cons_group, ih, Option.map_some, List.cons_append]; rfl
  | case2 a b n =>
    have ha := a.toNat_lt
    have hb := b.toNat_lt
    have hn : n = a.toNat * 65536 + b.toNat * 256 := rfl
    have h₁ : n / 262144 < 64 := by omega
    have hm : ∀ k, k % 64 < 64 := fun k ↦ Nat.mod_lt k (by decide)
    simp only [decode, decodeLast, undigit_digit h₁, undigit_digit (hm _),
      digit_ne_padding (hm _), Option.bind_some, if_false, if_true, Option.some_inj]
    refine List.cons_eq_cons.mpr ⟨?_, List.cons_eq_cons.mpr ⟨?_, rfl⟩⟩
    · rw [← UInt8.toNat_inj, UInt8.toNat_ofNat']
      omega
    · rw [← UInt8.toNat_inj, UInt8.toNat_ofNat']
      omega
  | case3 a n =>
    have ha := a.toNat_lt
    have hn : n = a.toNat * 65536 := rfl
    have h₁ : n / 262144 < 64 := by omega
    have hm : ∀ k, k % 64 < 64 := fun k ↦ Nat.mod_lt k (by decide)
    simp only [decode, decodeLast, undigit_digit h₁, undigit_digit (hm _), Option.bind_some,
      if_true, Option.some_inj]
    refine List.cons_eq_cons.mpr ⟨?_, rfl⟩
    rw [← UInt8.toNat_inj, UInt8.toNat_ofNat']
    omega
  | case4 => rfl

theorem length_encode (p : Bytes) : (encode p).length = 4 * ((p.length + 2) / 3) := by
  fun_induction encode p with
  | case1 a b c rest n ih =>
    simp only [List.length_cons, ih]
    omega
  | case2 | case3 => simp
  | case4 => rfl

theorem ne_quote_of_mem_encode (p : Bytes) : ∀ c ∈ encode p, c ≠ 34 := by
  have hdigit : ∀ n, digit n ≠ 34 := by
    intro n
    rw [digit, ne_eq, ← UInt8.toNat_inj, UInt8.toNat_ofNat']
    have h34 : (34 : UInt8).toNat = 34 := rfl
    split <;> [skip; split <;> [skip; split <;> [skip; split]]] <;> omega
  fun_induction encode p with
  | case1 a b c rest n ih =>
    intro d hd
    simp only [List.mem_cons] at hd
    rcases hd with rfl | rfl | rfl | rfl | hd
    iterate 4 exact hdigit _
    exact ih d hd
  | case2 | case3 =>
    intro d hd
    simp only [List.mem_cons, List.not_mem_nil, or_false] at hd
    rcases hd with rfl | rfl | rfl | rfl
    all_goals first | exact hdigit _ | decide
  | case4 => exact fun c hc ↦ absurd hc List.not_mem_nil

end Base64

end VortexMQ
