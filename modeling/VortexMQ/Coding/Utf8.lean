import VortexMQ.Basic.Bytes

/-!
# Runes

Decoding one character off the front of a byte string, as `utf8.DecodeRune` does.
-/

namespace VortexMQ

/-- The first character and what follows it; `none` for an invalid or incomplete encoding. -/
def decodeRune (s : Bytes) : Option (Char × Bytes) :=
  (s.toByteArray.utf8DecodeChar? 0).map fun c ↦ (c, s.drop c.utf8Size)

theorem decodeRune_encode_append (c : Char) (rest : Bytes) :
    decodeRune (String.utf8EncodeChar c ++ rest) = some (c, rest) := by
  rw [decodeRune, List.toByteArray_append, ByteArray.utf8DecodeChar?_utf8EncodeChar_append,
    Option.map_some, List.drop_left' (String.length_utf8EncodeChar c)]

/-- The encoding of a code point, or of the replacement character. -/
def encodeRune (v : ℕ) : Bytes :=
  if v.isValidChar then String.utf8EncodeChar (Char.ofNat v) else [0xEF, 0xBF, 0xBD]

theorem encodeRune_toNat (c : Char) : encodeRune c.toNat = String.utf8EncodeChar c := by
  rw [encodeRune, if_pos (show c.toNat.isValidChar from c.valid), Char.ofNat_toNat]

/-! ## Texts -/

/-- The characters of a text. A byte that starts no character counts as the replacement
character. -/
def runesLoop : ℕ → Bytes → List Char
  | 0, _ => []
  | _ + 1, [] => []
  | fuel + 1, b :: s =>
      match decodeRune (b :: s) with
      | some (c, rest) => c :: runesLoop fuel rest
      | none => Char.ofNat 0xFFFD :: runesLoop fuel s

/-- The text with the replacement character for every byte that starts no character. -/
def toValidUtf8 (s : Bytes) : Bytes := (runesLoop s.length s).flatMap String.utf8EncodeChar

theorem utf8_toValidUtf8 (s : Bytes) : Utf8 (toValidUtf8 s) := ⟨_, rfl⟩

theorem runesLoop_encode : ∀ (cs : List Char) {fuel : ℕ}, cs.length ≤ fuel →
    runesLoop fuel (cs.flatMap String.utf8EncodeChar) = cs := by
  intro cs
  induction cs with
  | nil =>
    intro fuel _
    cases fuel <;> rfl
  | cons c cs ih =>
    intro fuel hfuel
    obtain ⟨fuel, rfl⟩ := Nat.exists_eq_add_one_of_ne_zero (Nat.ne_zero_of_lt hfuel)
    rw [List.flatMap_cons]
    have hdecode := decodeRune_encode_append c (cs.flatMap String.utf8EncodeChar)
    cases hs : String.utf8EncodeChar c ++ cs.flatMap String.utf8EncodeChar with
    | nil => exact absurd (List.append_eq_nil_iff.mp hs).1 String.utf8EncodeChar_ne_nil
    | cons b s =>
      rw [hs] at hdecode
      rw [runesLoop, hdecode]
      exact congrArg _ (ih (Nat.le_of_succ_le_succ hfuel))

theorem toValidUtf8_of_utf8 {s : Bytes} (h : Utf8 s) : toValidUtf8 s = s := by
  obtain ⟨cs, rfl⟩ := h
  have hlen : cs.length ≤ (cs.flatMap String.utf8EncodeChar).length := by
    rw [List.length_flatMap]
    calc cs.length = (cs.map fun _ ↦ 1).sum := by simp
      _ ≤ (cs.map fun c ↦ (String.utf8EncodeChar c).length).sum :=
        List.sum_le_sum fun c _ ↦ List.length_pos_iff.mpr String.utf8EncodeChar_ne_nil
  rw [toValidUtf8, runesLoop_encode cs hlen]

/-! ## Encodings -/

/-- The first byte of an encoding tells whether it is the whole of it. -/
theorem utf8EncodeChar_of_le {c : Char} (h : c.toNat ≤ 127) :
    String.utf8EncodeChar c = [UInt8.ofNat c.toNat] := if_pos h

theorem exists_cons_of_lt {c : Char} (h : 127 < c.toNat) :
    ∃ b rest, String.utf8EncodeChar c = b :: rest ∧ 192 ≤ b.toNat := by
  have hlt : c.toNat < 0x110000 := by
    rcases c.valid with hv | ⟨-, hv⟩
    · exact lt_trans hv (by decide)
    · exact hv
  rw [String.utf8EncodeChar, if_neg (by exact Nat.not_le.mpr h)]
  change 127 < c.val.toNat at h
  change c.val.toNat < 0x110000 at hlt
  split
  · refine ⟨_, _, rfl, ?_⟩
    rw [UInt8.toNat_ofNat']
    omega
  · split
    · refine ⟨_, _, rfl, ?_⟩
      rw [UInt8.toNat_ofNat']
      omega
    · refine ⟨_, _, rfl, ?_⟩
      rw [UInt8.toNat_ofNat']
      omega

end VortexMQ
