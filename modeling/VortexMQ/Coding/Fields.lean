import VortexMQ.Coding.Text

/-!
# Words between white space

`bytes.Fields` decodes a text character by character and takes it apart at the white space. The
words that it finds may be any bytes, valid text or not. It finds them again wherever they have been
put together with ASCII white space, because a byte below 128 is a character of its own: it never
completes a character that the word in front of it has left unfinished.
-/

namespace VortexMQ

/-! ## Where characters end -/

theorem decodeRune_eq_some_iff {s rest : Bytes} {c : Char} :
    decodeRune s = some (c, rest) ↔ s = String.utf8EncodeChar c ++ rest := by
  constructor
  · intro h
    obtain ⟨c', hchar, heq⟩ := Option.map_eq_some_iff.mp h
    obtain ⟨rfl, rfl⟩ := Prod.mk.inj heq
    have htake : String.utf8EncodeChar c' = s.take c'.utf8Size := by
      simpa using congrArg (fun b : ByteArray ↦ b.data.toList)
        (String.toByteArray_utf8EncodeChar_of_utf8DecodeChar?_eq_some hchar)
    rw [htake, List.take_append_drop]
  · rintro rfl
    exact decodeRune_encode_append c rest

theorem le_of_mem_tail_utf8EncodeChar {c : Char} {b : UInt8}
    (h : b ∈ (String.utf8EncodeChar c).tail) : 128 ≤ b := by
  have hfirst : ∀ b : UInt8, b < 128 → b.IsUTF8FirstByte := by decide +kernel
  obtain ⟨i, hi, rfl⟩ := List.mem_iff_getElem.mp h
  rw [List.getElem_tail]
  refine UInt8.not_lt.mp fun hlt ↦ Nat.succ_ne_zero i ?_
  exact UInt8.isUTF8FirstByte_getElem_utf8EncodeChar.mp (hfirst _ hlt)

def AsciiFirst (s : Bytes) : Prop := ∀ b ∈ s.head?, b < 128

theorem decodeRune_append {s rest : Bytes} (hs : s ≠ []) (hrest : AsciiFirst rest) :
    decodeRune (s ++ rest) = (decodeRune s).map fun r ↦ (r.1, r.2 ++ rest) := by
  cases hdecode : decodeRune s with
  | some r =>
    obtain ⟨c, r⟩ := r
    rw [decodeRune_eq_some_iff.mp hdecode, List.append_assoc, decodeRune_encode_append]
    rfl
  | none =>
    have hne : ∀ {c r}, s ≠ String.utf8EncodeChar c ++ r := fun h ↦
      absurd (hdecode.symm.trans (decodeRune_eq_some_iff.mpr h)) (Option.some_ne_none _).symm
    rw [Option.map_none, Option.eq_none_iff_forall_ne_some]
    rintro ⟨c, r⟩ hc
    rcases List.append_eq_append_iff.mp (decodeRune_eq_some_iff.mp hc) with
      ⟨more, hmore, hr⟩ | ⟨more, hmore, -⟩
    · -- the character would have to go on behind the text, with a byte that is ASCII
      cases more with
      | nil => exact hne (hmore ▸ (List.append_nil s).symm.trans (List.append_nil _).symm)
      | cons b more =>
        have hb : b < 128 := hrest b (by rw [hr]; rfl)
        refine absurd (le_of_mem_tail_utf8EncodeChar (c := c) (b := b) ?_) (UInt8.not_le.mpr hb)
        rw [hmore, List.tail_append_of_ne_nil hs]
        exact List.mem_append_right _ List.mem_cons_self
    · exact hne hmore

namespace Text

/-! ## Text without white space -/

/-- A text that has no white space in it: none of its characters is. A byte that starts no character
counts as one. -/
inductive Solid : Bytes → Prop
  | nil : Solid []
  | cons {s : Bytes} : s ≠ [] → (firstRune s).1 = false → Solid (s.drop (firstRune s).2) → Solid s

theorem firstRune_pos (s : Bytes) : 1 ≤ (firstRune s).2 := by
  unfold firstRune
  split
  · exact le_rfl
  · split
    · exact le_rfl
    · split
      · exact Char.utf8Size_pos _
      · exact le_rfl

theorem firstRune_append {s rest : Bytes} (hs : s ≠ []) (hrest : AsciiFirst rest) :
    firstRune (s ++ rest) = firstRune s := by
  have hdecode := decodeRune_append hs hrest
  cases s with
  | nil => exact absurd rfl hs
  | cons b s =>
    rw [List.cons_append, firstRune, firstRune]
    rw [List.cons_append] at hdecode
    rw [hdecode]
    cases decodeRune (b :: s) <;> rfl

theorem firstRune_of_mem_take {s : Bytes} {b : UInt8} (hb : b < 128)
    (h : b ∈ s.take (firstRune s).2) : firstRune s = (isSpaceByte b, 1) := by
  cases s with
  | nil => exact absurd h (by rw [List.take_nil]; exact List.not_mem_nil)
  | cons b' s =>
    by_cases hb' : b' < 128
    · have hfirst : firstRune (b' :: s) = (isSpaceByte b', 1) := if_pos hb'
      rw [hfirst, List.take_succ_cons, List.take_zero, List.mem_singleton] at h
      rw [hfirst, h]
    · -- neither the first byte nor any other of the character is ASCII
      have hne : b ≠ b' := fun h ↦ hb' (h ▸ hb)
      rw [firstRune, if_neg hb'] at h
      cases hdecode : decodeRune (b' :: s) with
      | none =>
        rw [hdecode] at h
        exact absurd (List.mem_singleton.mp h) hne
      | some r =>
        have hs := decodeRune_eq_some_iff.mp hdecode
        obtain ⟨enc, henc⟩ : ∃ enc, String.utf8EncodeChar r.1 = b' :: enc := by
          rcases List.cons_eq_append_iff.mp hs with ⟨hnil, -⟩ | ⟨enc, henc, -⟩
          · exact absurd hnil String.utf8EncodeChar_ne_nil
          · exact ⟨enc, henc⟩
        have htake : (b' :: s).take r.1.utf8Size = String.utf8EncodeChar r.1 := by
          rw [hs, List.take_left' (String.length_utf8EncodeChar r.1)]
        rw [hdecode] at h
        change b ∈ (b' :: s).take r.1.utf8Size at h
        rw [htake, henc] at h
        have htail : b ∈ (String.utf8EncodeChar r.1).tail := by
          rw [henc]
          exact (List.mem_cons.mp h).resolve_left hne
        exact absurd (le_of_mem_tail_utf8EncodeChar htail) (UInt8.not_le.mpr hb)

theorem Solid.isSpaceByte_eq {s : Bytes} (h : Solid s) {b : UInt8} (hmem : b ∈ s) (hb : b < 128) :
    isSpaceByte b = false := by
  induction h with
  | nil => exact absurd hmem List.not_mem_nil
  | @cons s _ hfirst _ ih =>
    rw [← List.take_append_drop (firstRune s).2 s] at hmem
    rcases List.mem_append.mp hmem with hmem | hmem
    · rwa [firstRune_of_mem_take hb hmem] at hfirst
    · exact ih hmem

theorem solid_of_ascii : ∀ {s : Bytes}, (∀ b ∈ s, b < 128 ∧ isSpaceByte b = false) → Solid s := by
  intro s
  induction s with
  | nil => exact fun _ ↦ .nil
  | cons b s ih =>
    intro h
    obtain ⟨hb, hspace⟩ := h b List.mem_cons_self
    have hfirst : firstRune (b :: s) = (false, 1) := by
      rw [firstRune, if_pos hb, hspace]
    refine .cons (List.cons_ne_nil _ _) (by rw [hfirst]) ?_
    rw [hfirst, List.drop_succ_cons, List.drop_zero]
    exact ih fun b' hb' ↦ h b' (List.mem_cons_of_mem b hb')

/-! ## The loop of `bytes.Fields` -/

/-- A text without white space is part of a field, which it starts if there is none. -/
theorem fieldsLoop_solid {t rest : Bytes} (ht : Solid t) (hrest : AsciiFirst rest) :
    ∀ {fuel : ℕ} (i : ℕ) (start : Option ℕ), (t ++ rest).length ≤ fuel → t ≠ [] ∨ start.isSome →
      ∃ fuel', rest.length ≤ fuel' ∧ fieldsLoop fuel i start (t ++ rest) =
        fieldsLoop fuel' (i + t.length) (some (start.getD i)) rest := by
  induction ht with
  | nil =>
    intro fuel i start hfuel hstart
    obtain ⟨j, rfl⟩ := Option.isSome_iff_exists.mp (hstart.resolve_left fun h ↦ h rfl)
    exact ⟨fuel, hfuel, rfl⟩
  | @cons t hne hfirst _ ih =>
    intro fuel i start hfuel _
    have hpos : 1 ≤ t.length := List.length_pos_iff.mpr hne
    have hle := firstRune_le hne
    have hsize := firstRune_pos t
    obtain ⟨fuel, rfl⟩ : ∃ n, fuel = n + 1 := by
      rw [List.length_append] at hfuel
      exact Nat.exists_eq_add_one_of_ne_zero (by omega)
    have hstep : fieldsLoop (fuel + 1) i start (t ++ rest) =
        fieldsLoop fuel (i + (firstRune t).2) (some (start.getD i))
          (t.drop (firstRune t).2 ++ rest) := by
      rw [fieldsLoop, if_neg (List.append_ne_nil_of_left_ne_nil hne rest),
        firstRune_append hne hrest, if_neg (by rw [hfirst]; exact Bool.false_ne_true),
        List.drop_append_of_le_length hle]
    have hshort : (t.drop (firstRune t).2 ++ rest).length ≤ fuel := by
      rw [List.length_append] at hfuel
      rw [List.length_append, List.length_drop]
      omega
    obtain ⟨fuel', hfuel', hloop⟩ :=
      ih (i + (firstRune t).2) (some (start.getD i)) hshort (Or.inr rfl)
    refine ⟨fuel', hfuel', ?_⟩
    rw [hstep, hloop, List.length_drop, Nat.add_assoc, Nat.add_sub_cancel' hle]
    rfl

theorem lt_of_isSpaceByte : ∀ b : UInt8, isSpaceByte b = true → b < 128 := by decide +kernel

theorem fieldsLoop_blank {b : UInt8} (hb : isSpaceByte b = true) (fuel i : ℕ) (start : Option ℕ)
    (s : Bytes) :
    fieldsLoop (fuel + 1) i start (b :: s) =
      (start.map fun j ↦ (j, i)).toList ++ fieldsLoop fuel (i + 1) none s := by
  have hfirst : firstRune (b :: s) = (true, 1) := by
    rw [firstRune, if_pos (lt_of_isSpaceByte b hb), hb]
  rw [fieldsLoop, if_neg (List.cons_ne_nil _ _), hfirst]
  rfl

theorem fieldsLoop_blanks {sep rest : Bytes} (hsep : ∀ b ∈ sep, isSpaceByte b = true) :
    ∀ {fuel : ℕ} (i : ℕ), (sep ++ rest).length ≤ fuel → ∃ fuel', rest.length ≤ fuel' ∧
      fieldsLoop fuel i none (sep ++ rest) = fieldsLoop fuel' (i + sep.length) none rest := by
  induction sep with
  | nil => exact fun _ hfuel ↦ ⟨_, hfuel, rfl⟩
  | cons b sep ih =>
    intro fuel i hfuel
    obtain ⟨fuel, rfl⟩ := Nat.exists_eq_add_one_of_ne_zero (Nat.ne_zero_of_lt hfuel)
    obtain ⟨fuel', hfuel', hloop⟩ := ih (fun b' hb' ↦ hsep b' (List.mem_cons_of_mem b hb'))
      (i + 1) (Nat.le_of_succ_le_succ hfuel)
    refine ⟨fuel', hfuel', ?_⟩
    rw [List.cons_append, fieldsLoop_blank (hsep b List.mem_cons_self), hloop, List.length_cons,
      Nat.add_assoc, Nat.add_comm 1]
    rfl

theorem fieldsLoop_word {t sep rest : Bytes} (hne : t ≠ []) (ht : Solid t) (hsep : sep ≠ [])
    (hspace : ∀ b ∈ sep, isSpaceByte b = true) {fuel : ℕ} (i : ℕ)
    (hfuel : (t ++ (sep ++ rest)).length ≤ fuel) :
    ∃ fuel', rest.length ≤ fuel' ∧ fieldsLoop fuel i none (t ++ (sep ++ rest)) =
      (i, i + t.length) :: fieldsLoop fuel' (i + t.length + sep.length) none rest := by
  obtain ⟨b, sep, rfl⟩ := List.exists_cons_of_ne_nil hsep
  have hb := hspace b List.mem_cons_self
  have hascii : AsciiFirst (b :: sep ++ rest) := fun b' hb' ↦
    Option.mem_some.mp hb' ▸ lt_of_isSpaceByte b hb
  -- the word, the blank that ends it, and the other blanks
  obtain ⟨fuel', hfuel', hword⟩ := fieldsLoop_solid ht hascii i none hfuel (Or.inl hne)
  obtain ⟨fuel', rfl⟩ := Nat.exists_eq_add_one_of_ne_zero (Nat.ne_zero_of_lt hfuel')
  obtain ⟨fuel'', hfuel'', hblanks⟩ :=
    fieldsLoop_blanks (fun b' hb' ↦ hspace b' (List.mem_cons_of_mem b hb')) (i + t.length + 1)
      (Nat.le_of_succ_le_succ hfuel')
  refine ⟨fuel'', hfuel'', ?_⟩
  rw [hword, List.cons_append, fieldsLoop_blank hb, hblanks, List.length_cons, Nat.add_assoc _ 1,
    Nat.add_comm 1]
  rfl

/-! ## Words -/

/-- Words with something in front of each but the first. -/
def spaced (word : Bytes) (more : List (Bytes × Bytes)) : Bytes :=
  word ++ more.flatMap fun p ↦ p.1 ++ p.2

theorem spaced_cons (word : Bytes) (p : Bytes × Bytes) (more : List (Bytes × Bytes)) :
    spaced word (p :: more) = word ++ (p.1 ++ spaced p.2 more) := by
  rw [spaced, List.flatMap_cons, List.append_assoc]
  rfl

theorem slice_append {front t rest : Bytes} :
    slice (front ++ (t ++ rest)) (front.length, front.length + t.length) = t := by
  rw [slice, List.drop_left, Nat.add_sub_cancel_left, List.take_left]

theorem map_slice_fieldsLoop {more : List (Bytes × Bytes)} :
    ∀ (front : Bytes) {word : Bytes} {fuel : ℕ},
      (∀ t ∈ word :: more.map Prod.snd, t ≠ [] ∧ Solid t) →
      (∀ p ∈ more, p.1 ≠ [] ∧ ∀ b ∈ p.1, isSpaceByte b = true) →
      (spaced word more).length ≤ fuel →
      (fieldsLoop fuel front.length none (spaced word more)).map
        (slice (front ++ spaced word more)) = word :: more.map Prod.snd := by
  induction more with
  | nil =>
    intro front word fuel hwords _ hfuel
    obtain ⟨hne, hsolid⟩ := hwords word List.mem_cons_self
    have hascii : AsciiFirst [] := fun b hb ↦ absurd hb.symm (Option.some_ne_none b)
    obtain ⟨fuel', -, hloop⟩ := fieldsLoop_solid hsolid hascii front.length none hfuel (Or.inl hne)
    have hend : fieldsLoop fuel' (front.length + word.length) (some front.length) [] =
        [(front.length, front.length + word.length)] := by
      cases fuel' <;> rfl
    rw [spaced, List.flatMap_nil, hloop, Option.getD_none, hend, List.map_singleton, slice_append]
    rfl
  | cons p more ih =>
    intro front word fuel hwords hblanks hfuel
    obtain ⟨hne, hsolid⟩ := hwords word List.mem_cons_self
    obtain ⟨hsep, hspace⟩ := hblanks p List.mem_cons_self
    rw [spaced_cons] at hfuel ⊢
    obtain ⟨fuel', hfuel', hword⟩ := fieldsLoop_word hne hsolid hsep hspace front.length hfuel
    have hmore := ih (front ++ word ++ p.1)
      (fun t ht ↦ hwords t (List.mem_cons_of_mem word ht))
      (fun q hq ↦ hblanks q (List.mem_cons_of_mem p hq)) hfuel'
    rw [List.length_append, List.length_append, List.append_assoc, List.append_assoc] at hmore
    rw [hword, List.map_cons, slice_append, hmore]
    rfl

/-- **Words.** `bytes.Fields` finds the words of a text that has been put together from words
without white space and white space between them. -/
theorem fields_spaced {word : Bytes} {more : List (Bytes × Bytes)}
    (hwords : ∀ t ∈ word :: more.map Prod.snd, t ≠ [] ∧ Solid t)
    (hblanks : ∀ p ∈ more, p.1 ≠ [] ∧ ∀ b ∈ p.1, isSpaceByte b = true) :
    fields (spaced word more) = word :: more.map Prod.snd :=
  map_slice_fieldsLoop [] hwords hblanks le_rfl

end Text

end VortexMQ
