import VortexMQ.Coding.Decimal
import VortexMQ.Coding.Utf8

/-!
# JSON texts

Strings and numbers as `encoding/json` writes them, and readers that take them off the front of a
text again. `encoding/json` reads more than it writes; the readers here are for what it writes.
-/

namespace VortexMQ

namespace Json

/-! ## Literals -/

/-- Take a literal off the front. -/
def expect (lit s : Bytes) : Option Bytes :=
  if lit <+: s then some (s.drop lit.length) else none

theorem expect_append (lit rest : Bytes) : expect lit (lit ++ rest) = some rest := by
  rw [expect, if_pos (List.prefix_append _ _), List.drop_left]

theorem expect_eq_none {lit : Bytes} (front : Bytes) {n : ℕ} (hlit : n ≤ lit.length)
    (hn : n ≤ front.length) (hne : lit.take n ≠ front.take n) (back : Bytes) :
    expect lit (front ++ back) = none := by
  refine if_neg fun hpre ↦ hne ?_
  have htake := List.prefix_iff_eq_take.mp hpre
  rw [htake, List.take_take, Nat.min_eq_left hlit, List.take_append_of_le_length hn]

/-! ## Fields of an object -/

/-- The key of a field, with its colon. -/
def key (name : String) : Bytes := bytesOf "\"" ++ bytesOf name ++ bytesOf "\":"

/-- A field behind another one. -/
def field (name : String) (text : Bytes) : Bytes := 44 :: (key name ++ text)

/-- A field that may be omitted. -/
def optionalField (name : String) (omitted : Prop) [Decidable omitted] (text : Bytes) : Bytes :=
  if omitted then [] else field name text

def readField {α : Type} (name : String) (read : Bytes → Option (α × Bytes)) (s : Bytes) :
    Option (α × Bytes) := (expect (44 :: key name) s).bind read

def readOptional {α : Type} (name : String) (read : Bytes → Option (α × Bytes)) (default : α)
    (s : Bytes) : Option (α × Bytes) :=
  match expect (44 :: key name) s with
  | some s => read s
  | none => some (default, s)

section Fields

variable {α : Type} {name : String} {read : Bytes → Option (α × Bytes)} {a : α} {text rest : Bytes}

theorem field_append (name : String) (text rest : Bytes) :
    field name text ++ rest = (44 :: key name) ++ (text ++ rest) := by
  rw [field, List.cons_append, List.append_assoc, List.cons_append]

theorem readField_field (h : read (text ++ rest) = some (a, rest)) :
    readField name read (field name text ++ rest) = some (a, rest) := by
  rw [readField, field_append, expect_append, Option.bind_some, h]

theorem readOptional_optionalField {omitted : Prop} [Decidable omitted] {default : α}
    (hread : ¬omitted → read (text ++ rest) = some (a, rest)) (hdefault : omitted → a = default)
    (hrest : omitted → expect (44 :: key name) rest = none) :
    readOptional name read default (optionalField name omitted text ++ rest) = some (a, rest) := by
  by_cases h : omitted
  · rw [optionalField, if_pos h, List.nil_append, readOptional, hrest h, hdefault h]
  · rw [optionalField, if_neg h, readOptional, field_append, expect_append]
    exact hread h

theorem expect_field {lit : Bytes} {n : ℕ} (hlit : n ≤ lit.length)
    (hn : n ≤ (44 :: key name).length) (hne : lit.take n ≠ (44 :: key name).take n) :
    expect lit (field name text ++ rest) = none := by
  rw [field_append]
  exact expect_eq_none _ hlit hn hne _

/-- Another field comes first, or, if that one is omitted, whatever comes next. -/
theorem expect_optionalField {lit : Bytes} {omitted : Prop} [Decidable omitted] {n : ℕ}
    (hlit : n ≤ lit.length) (hn : n ≤ (44 :: key name).length)
    (hne : lit.take n ≠ (44 :: key name).take n) (hrest : expect lit rest = none) :
    expect lit (optionalField name omitted text ++ rest) = none := by
  by_cases h : omitted
  · rw [optionalField, if_pos h, List.nil_append, hrest]
  · rw [optionalField, if_neg h]
    exact expect_field hlit hn hne

end Fields

/-! ## Strings -/

def unhex (c : UInt8) : Option ℕ :=
  let v := c.toNat
  if 48 ≤ v ∧ v ≤ 57 then some (v - 48)
  else if 97 ≤ v ∧ v ≤ 102 then some (v - 87)
  else if 65 ≤ v ∧ v ≤ 70 then some (v - 55)
  else none

/-- One character inside a string. Angle brackets and the ampersand are escaped for the sake of
HTML, the two line separators for that of JavaScript. -/
def escapeChar (c : Char) : Bytes :=
  let v := c.toNat
  if v = 34 ∨ v = 92 then [92, UInt8.ofNat v]
  else if v = 8 then [92, 98]
  else if v = 12 then [92, 102]
  else if v = 10 then [92, 110]
  else if v = 13 then [92, 114]
  else if v = 9 then [92, 116]
  else if v < 32 ∨ v = 60 ∨ v = 62 ∨ v = 38 then
    [92, 117, 48, 48, hexDigit (v / 16), hexDigit (v % 16)]
  else if v = 0x2028 ∨ v = 0x2029 then [92, 117, 50, 48, 50, hexDigit (v % 16)]
  else String.utf8EncodeChar c

/-- The inside of a string; a byte that is not UTF-8 becomes an escaped replacement character. -/
def quoteLoop : ℕ → Bytes → Bytes
  | 0, _ => []
  | _ + 1, [] => []
  | fuel + 1, b :: s =>
      match decodeRune (b :: s) with
      | some (c, rest) => escapeChar c ++ quoteLoop fuel rest
      | none => bytesOf "\\ufffd" ++ quoteLoop fuel s

/-- A string literal. -/
def quote (s : Bytes) : Bytes := 34 :: (quoteLoop s.length s ++ [34])

/-- What an escape stands for, the backslash having been read. -/
def unescape : Bytes → Option (Bytes × Bytes)
  | [] => none
  | e :: s =>
      if e = 34 ∨ e = 92 ∨ e = 47 then some ([e], s)
      else if e = 98 then some ([8], s)
      else if e = 102 then some ([12], s)
      else if e = 110 then some ([10], s)
      else if e = 114 then some ([13], s)
      else if e = 116 then some ([9], s)
      else if e = 117 then
        match s with
        | w :: x :: y :: z :: s =>
            (unhex w).bind fun w ↦ (unhex x).bind fun x ↦ (unhex y).bind fun y ↦
              (unhex z).map fun z ↦ (encodeRune (((w * 16 + x) * 16 + y) * 16 + z), s)
        | _ => none
      else none

/-- The rest of a string literal, up to its closing quotation mark. -/
def unquoteLoop : ℕ → Bytes → Option (Bytes × Bytes)
  | 0, _ => none
  | _ + 1, [] => none
  | fuel + 1, b :: s =>
      if b = 34 then some ([], s)
      else if b = 92 then
        (unescape s).bind fun r ↦ (unquoteLoop fuel r.2).map fun t ↦ (r.1 ++ t.1, t.2)
      else if b < 32 then none
      else match decodeRune (b :: s) with
        | some (c, rest) =>
            (unquoteLoop fuel rest).map fun t ↦ (String.utf8EncodeChar c ++ t.1, t.2)
        | none => (unquoteLoop fuel s).map fun t ↦ ([0xEF, 0xBF, 0xBD] ++ t.1, t.2)

/-- Read a string literal. -/
def unquote : Bytes → Option (Bytes × Bytes)
  | 34 :: s => unquoteLoop s.length s
  | _ => none

theorem unhex_hexDigit {n : ℕ} (h : n < 16) : unhex (hexDigit n) = some n := by
  interval_cases n <;> rfl

theorem unescape_hex {w x y z : ℕ} {c : Char} (hw : w < 16) (hx : x < 16) (hy : y < 16)
    (hz : z < 16) (hc : c.toNat = ((w * 16 + x) * 16 + y) * 16 + z) (tail : Bytes) :
    unescape (117 :: hexDigit w :: hexDigit x :: hexDigit y :: hexDigit z :: tail)
      = some (String.utf8EncodeChar c, tail) := by
  simp only [unescape, unhex_hexDigit hw, unhex_hexDigit hx, unhex_hexDigit hy, unhex_hexDigit hz,
    Option.bind_some, Option.map_some, ← hc, encodeRune_toNat]
  rfl

theorem unquoteLoop_escape {s tail : Bytes} {c : Char}
    (h : unescape s = some (String.utf8EncodeChar c, tail)) (fuel : ℕ) :
    unquoteLoop (fuel + 1) (92 :: s)
      = (unquoteLoop fuel tail).map fun t ↦ (String.utf8EncodeChar c ++ t.1, t.2) := by
  rw [unquoteLoop, if_neg (by decide), if_pos rfl, h, Option.bind_some]

theorem unquoteLoop_plain {c : Char} (h32 : 32 ≤ c.toNat) (h34 : c.toNat ≠ 34)
    (h92 : c.toNat ≠ 92) (fuel : ℕ) (tail : Bytes) :
    unquoteLoop (fuel + 1) (String.utf8EncodeChar c ++ tail)
      = (unquoteLoop fuel tail).map fun t ↦ (String.utf8EncodeChar c ++ t.1, t.2) := by
  obtain ⟨b, rest, hb, hne34, hne92, hge⟩ : ∃ b rest, String.utf8EncodeChar c = b :: rest ∧
      b.toNat ≠ 34 ∧ b.toNat ≠ 92 ∧ 32 ≤ b.toNat := by
    rcases Nat.lt_or_ge 127 c.toNat with hbig | hsmall
    · obtain ⟨b, rest, hb, hge⟩ := exists_cons_of_lt hbig
      exact ⟨b, rest, hb, by omega, by omega, by omega⟩
    · refine ⟨_, [], utf8EncodeChar_of_le hsmall, ?_⟩
      rw [UInt8.toNat_ofNat', Nat.mod_eq_of_lt (by omega)]
      exact ⟨h34, h92, h32⟩
  have hdecode := decodeRune_encode_append c tail
  rw [hb, List.cons_append] at hdecode ⊢
  have h₁ : b ≠ 34 := fun h ↦ hne34 (h ▸ rfl)
  have h₂ : b ≠ 92 := fun h ↦ hne92 (h ▸ rfl)
  have h₃ : ¬b < 32 := fun h ↦ absurd (UInt8.lt_iff_toNat_lt.mp h) (Nat.not_lt.mpr hge)
  rw [unquoteLoop, if_neg h₁, if_neg h₂, if_neg h₃, hdecode]
  simp only [hb, List.cons_append]

theorem unquoteLoop_escapeChar (c : Char) (fuel : ℕ) (tail : Bytes) :
    unquoteLoop (fuel + 1) (escapeChar c ++ tail)
      = (unquoteLoop fuel tail).map fun t ↦ (String.utf8EncodeChar c ++ t.1, t.2) := by
  -- the escapes of two characters: what is read is the one byte of `c`
  have hshort : ∀ e : UInt8, c.toNat ≤ 127 →
      unescape (e :: tail) = some ([UInt8.ofNat c.toNat], tail) →
      unquoteLoop (fuel + 1) ([92, e] ++ tail)
        = (unquoteLoop fuel tail).map fun t ↦ (String.utf8EncodeChar c ++ t.1, t.2) := by
    intro e hc he
    rw [← utf8EncodeChar_of_le hc] at he
    exact unquoteLoop_escape he fuel
  rw [escapeChar]
  split_ifs with h₁ h₂ h₃ h₄ h₅ h₆ h₇ h₈
  · rcases h₁ with h | h <;> exact hshort _ (by omega) (by rw [h]; rfl)
  · exact hshort _ (by omega) (by rw [h₂]; rfl)
  · exact hshort _ (by omega) (by rw [h₃]; rfl)
  · exact hshort _ (by omega) (by rw [h₄]; rfl)
  · exact hshort _ (by omega) (by rw [h₅]; rfl)
  · exact hshort _ (by omega) (by rw [h₆]; rfl)
  · exact unquoteLoop_escape (unescape_hex (w := 0) (x := 0) (by decide) (by decide) (by omega)
      (by omega) (by omega) tail) fuel
  · exact unquoteLoop_escape (unescape_hex (w := 2) (x := 0) (y := 2) (by decide) (by decide)
      (by decide) (by omega) (by omega) tail) fuel
  · exact unquoteLoop_plain (by omega) (by omega) (by omega) fuel tail

theorem unquoteLoop_replacement (fuel : ℕ) (tail : Bytes) :
    unquoteLoop (fuel + 1) (bytesOf "\\ufffd" ++ tail)
      = (unquoteLoop fuel tail).map fun t ↦
          (String.utf8EncodeChar (Char.ofNat 0xFFFD) ++ t.1, t.2) :=
  unquoteLoop_escape (unescape_hex (w := 15) (x := 15) (y := 15) (z := 13) (by decide) (by decide)
    (by decide) (by decide) (by decide) tail) fuel

theorem unquoteLoop_quoteLoop : ∀ (n : ℕ) {s : Bytes} {fuel : ℕ} (rest : Bytes),
    (runesLoop n s).length < fuel →
      unquoteLoop fuel (quoteLoop n s ++ 34 :: rest)
        = some ((runesLoop n s).flatMap String.utf8EncodeChar, rest) := by
  intro n
  induction n with
  | zero =>
    intro s fuel rest hfuel
    obtain ⟨fuel, rfl⟩ := Nat.exists_eq_add_one_of_ne_zero (Nat.ne_zero_of_lt hfuel)
    rfl
  | succ n ih =>
    intro s fuel rest hfuel
    obtain ⟨fuel, rfl⟩ := Nat.exists_eq_add_one_of_ne_zero (Nat.ne_zero_of_lt hfuel)
    cases s with
    | nil => rfl
    | cons b s =>
      rw [runesLoop] at hfuel ⊢
      rw [quoteLoop]
      revert hfuel
      rcases decodeRune (b :: s) with - | ⟨c, s'⟩ <;> intro hfuel
      · rw [List.append_assoc, unquoteLoop_replacement, ih rest (Nat.lt_of_succ_lt_succ hfuel)]
        rfl
      · rw [List.append_assoc, unquoteLoop_escapeChar, ih rest (Nat.lt_of_succ_lt_succ hfuel)]
        rfl

theorem length_escapeChar_pos (c : Char) : 1 ≤ (escapeChar c).length := by
  rw [escapeChar]
  split_ifs
  all_goals first
    | exact Nat.succ_pos _
    | exact List.length_pos_iff.mpr String.utf8EncodeChar_ne_nil

theorem length_runesLoop_le : ∀ (n : ℕ) (s : Bytes),
    (runesLoop n s).length ≤ (quoteLoop n s).length := by
  intro n
  induction n with
  | zero => intro s; exact le_rfl
  | succ n ih =>
    intro s
    cases s with
    | nil => exact le_rfl
    | cons b s =>
      rw [runesLoop, quoteLoop]
      rcases decodeRune (b :: s) with - | ⟨c, s'⟩
      · rw [List.length_cons, List.length_append, Nat.add_comm]
        exact Nat.add_le_add (by decide) (ih s)
      · rw [List.length_cons, List.length_append, Nat.add_comm]
        exact Nat.add_le_add (length_escapeChar_pos c) (ih s')

/-- **What is read back of a string**: its characters. -/
theorem unquote_quote_eq (s rest : Bytes) :
    unquote (quote s ++ rest) = some (toValidUtf8 s, rest) := by
  have hquote : quote s ++ rest = 34 :: (quoteLoop s.length s ++ 34 :: rest) := by
    rw [quote, List.cons_append, List.append_assoc]
    rfl
  have hlen := length_runesLoop_le s.length s
  rw [hquote, unquote, toValidUtf8]
  refine unquoteLoop_quoteLoop s.length rest ?_
  rw [List.length_append, List.length_cons]
  omega

theorem unquote_quote {s : Bytes} (h : Utf8 s) (rest : Bytes) :
    unquote (quote s ++ rest) = some (s, rest) := by
  rw [unquote_quote_eq, toValidUtf8_of_utf8 h]

/-! ## Numbers -/

/-- Read a run of digits. -/
def readNat (s : Bytes) : Option (ℕ × Bytes) :=
  let ds := s.takeWhile fun c ↦ Decimal.IsDigit c
  if ds = [] then none else some (Decimal.value ds, s.drop ds.length)

def readSigned (s : Bytes) : Option (ℤ × Bytes) :=
  if s.head? = some 45 then (readNat s.tail).map fun r ↦ (-(r.1 : ℤ), r.2)
  else (readNat s).map fun r ↦ ((r.1 : ℤ), r.2)

/-- Read an integer of 64 bits. -/
def readInt (s : Bytes) : Option (ℤ × Bytes) :=
  (readSigned s).filter fun r ↦ Int64Range r.1

/-- What follows a number is not a digit. -/
def EndsNumber (rest : Bytes) : Prop := ∀ c ∈ rest.head?, ¬Decimal.IsDigit c

theorem endsNumber_cons {c : UInt8} (h : ¬Decimal.IsDigit c) (rest : Bytes) :
    EndsNumber (c :: rest) := by
  rintro d hd
  obtain rfl : c = d := Option.some_inj.mp hd
  exact h

theorem endsNumber_field (name : String) (text rest : Bytes) :
    EndsNumber (field name text ++ rest) := endsNumber_cons (by decide) _

theorem endsNumber_optionalField (name : String) (omitted : Prop) [Decidable omitted]
    (text : Bytes) {rest : Bytes} (h : EndsNumber rest) :
    EndsNumber (optionalField name omitted text ++ rest) := by
  rw [optionalField]
  split
  · exact h
  · exact endsNumber_field _ _ _

theorem readNat_ofNat (n : ℕ) {rest : Bytes} (h : EndsNumber rest) :
    readNat (Decimal.ofNat n ++ rest) = some (n, rest) := by
  have htake : (Decimal.ofNat n ++ rest).takeWhile (fun c ↦ Decimal.IsDigit c)
      = Decimal.ofNat n := by
    rw [List.takeWhile_append_of_pos
      (fun c hc ↦ decide_eq_true (Decimal.isDigit_of_mem_ofNat c hc))]
    cases rest with
    | nil => rw [List.takeWhile_nil, List.append_nil]
    | cons c rest =>
      have hc : ¬Decimal.IsDigit c := h c rfl
      rw [List.takeWhile_cons_of_neg (by simpa using hc), List.append_nil]
  simp only [readNat, htake, if_neg (Decimal.ofNat_ne_nil n), Decimal.value_ofNat, List.drop_left]

theorem readSigned_ofInt (z : ℤ) {rest : Bytes} (h : EndsNumber rest) :
    readSigned (Decimal.ofInt z ++ rest) = some (z, rest) := by
  rw [Decimal.ofInt]
  split
  · rename_i hneg
    have habs : (-(z.natAbs : ℤ)) = z := by omega
    rw [List.cons_append, readSigned, if_pos List.head?_cons, List.tail_cons, readNat_ofNat _ h,
      Option.map_some, habs]
  · rename_i hnonneg
    have habs : (z.natAbs : ℤ) = z := by omega
    have hhead : (Decimal.ofNat z.natAbs ++ rest).head? ≠ some 45 := by
      cases hd : Decimal.ofNat z.natAbs with
      | nil => exact absurd hd (Decimal.ofNat_ne_nil _)
      | cons d ds =>
        have hdig := Decimal.isDigit_of_mem_ofNat d (hd ▸ List.mem_cons_self)
        intro hs
        obtain rfl : d = 45 := Option.some_inj.mp hs
        exact absurd hdig (by decide)
    rw [readSigned, if_neg hhead, readNat_ofNat _ h, Option.map_some, habs]

theorem readInt_ofInt {z : ℤ} (hz : Int64Range z) {rest : Bytes} (h : EndsNumber rest) :
    readInt (Decimal.ofInt z ++ rest) = some (z, rest) := by
  rw [readInt, readSigned_ofInt z h]
  exact if_pos (decide_eq_true hz)

end Json

end VortexMQ
