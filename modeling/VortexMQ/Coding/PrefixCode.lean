import Mathlib

/-!
# Self-delimiting codes

A stream of encodings with nothing in between can be read back when each encoding says where it
ends: the decoder takes one value off the front of the stream and returns the rest, and it refuses
an encoding that has been cut short. These two laws are all that pipelined requests and append-only
logs need. From them follow, for any such code, that a concatenation of encodings is decoded value
by value, and that a stream cut at an arbitrary position yields exactly the values whose encodings
lie wholly before the cut.

What is encoded and what is decoded need not have the same type: the things one can encode may be
subject to bounds of which the decoder knows nothing.
-/

namespace VortexMQ

/-- A code for `α` over the symbols `β`, decoded to values in `γ`. -/
structure PrefixCode (α β γ : Type*) where
  encode : α → List β
  /-- What the decoder makes of an encoding. -/
  value : α → γ
  /-- Take one value off the front of a stream. -/
  decode : List β → Option (γ × List β)
  decode_encode : ∀ a rest, decode (encode a ++ rest) = some (value a, rest)
  /-- An encoding that has been cut short is refused; in particular so is the empty stream. -/
  decode_torn : ∀ a p, p <+: encode a → p ≠ encode a → decode p = none
  decode_nil : decode [] = none

namespace PrefixCode

variable {α β γ : Type*} (C : PrefixCode α β γ)

theorem encode_ne_nil (a : α) : C.encode a ≠ [] := by
  intro h
  have hdec := C.decode_encode a []
  rw [h, List.append_nil, C.decode_nil] at hdec
  exact Option.some_ne_none _ hdec.symm

theorem encode_length_pos (a : α) : 0 < (C.encode a).length :=
  List.length_pos_iff.mpr (C.encode_ne_nil a)

/-- The encodings of a list of values, one after the other. -/
def encodeAll (as : List α) : List β := as.flatMap C.encode

@[simp] theorem encodeAll_nil : C.encodeAll [] = [] := rfl

@[simp] theorem encodeAll_cons (a : α) (as : List α) :
    C.encodeAll (a :: as) = C.encode a ++ C.encodeAll as := rfl

theorem encodeAll_append (as bs : List α) :
    C.encodeAll (as ++ bs) = C.encodeAll as ++ C.encodeAll bs := List.flatMap_append

theorem encodeAll_singleton (a : α) : C.encodeAll [a] = C.encode a := List.flatMap_singleton ..

theorem length_le_length_encodeAll (as : List α) : as.length ≤ (C.encodeAll as).length := by
  induction as with
  | nil => exact Nat.zero_le _
  | cons a as ih =>
    rw [encodeAll_cons, List.length_append, List.length_cons, Nat.add_comm]
    exact Nat.add_le_add (C.encode_length_pos a) ih

theorem encodeAll_eq_nil {as : List α} : C.encodeAll as = [] ↔ as = [] := by
  constructor
  · intro h
    have hlen := C.length_le_length_encodeAll as
    rw [h, List.length_nil] at hlen
    exact List.length_eq_zero_iff.mp (Nat.le_zero.mp hlen)
  · rintro rfl
    rfl

/-! ## Reading a stream -/

/-- Take values off the front for as long as it goes, at most `fuel` of them. -/
def decodeAll : ℕ → List β → List γ × List β
  | 0, s => ([], s)
  | fuel + 1, s =>
      match C.decode s with
      | none => ([], s)
      | some (c, rest) => (c :: (decodeAll fuel rest).1, (decodeAll fuel rest).2)

theorem decodeAll_of_decode_none {s : List β} (h : C.decode s = none) (fuel : ℕ) :
    C.decodeAll fuel s = ([], s) := by
  cases fuel with
  | zero => rfl
  | succ fuel => rw [decodeAll, h]

theorem decodeAll_encode_append (a : α) (rest : List β) (fuel : ℕ) :
    C.decodeAll (fuel + 1) (C.encode a ++ rest)
      = (C.value a :: (C.decodeAll fuel rest).1, (C.decodeAll fuel rest).2) := by
  rw [decodeAll, C.decode_encode]

theorem decodeAll_encodeAll_append_eq {rest : List β} : ∀ {as : List α} {fuel : ℕ},
    as.length ≤ fuel → C.decodeAll fuel (C.encodeAll as ++ rest)
      = (as.map C.value ++ (C.decodeAll (fuel - as.length) rest).1,
          (C.decodeAll (fuel - as.length) rest).2) := by
  intro as
  induction as with
  | nil => intro fuel _; rfl
  | cons a as ih =>
    intro fuel hfuel
    cases fuel with
    | zero => exact absurd hfuel (Nat.not_succ_le_zero _)
    | succ fuel =>
      rw [encodeAll_cons, List.append_assoc, decodeAll_encode_append,
        ih (Nat.le_of_succ_le_succ hfuel), List.map_cons, List.length_cons, Nat.add_sub_add_right]
      rfl

/-- A stream of encodings followed by something that does not decode. -/
theorem decodeAll_encodeAll_append {tail : List β} (htail : C.decode tail = none) {as : List α}
    {fuel : ℕ} (hfuel : as.length ≤ fuel) :
    C.decodeAll fuel (C.encodeAll as ++ tail) = (as.map C.value, tail) := by
  rw [C.decodeAll_encodeAll_append_eq hfuel, C.decodeAll_of_decode_none htail, List.append_nil]

/-- Reading gets to every encoding that stands behind encodings only. -/
theorem value_mem_decodeAll {as : List α} {a : α} {s : List β}
    (h : C.encodeAll (as ++ [a]) <+: s) : C.value a ∈ (C.decodeAll s.length s).1 := by
  obtain ⟨rest, rfl⟩ := h
  have hfuel : (as ++ [a]).length ≤ (C.encodeAll (as ++ [a]) ++ rest).length :=
    (C.length_le_length_encodeAll _).trans (List.prefix_append _ _).length_le
  rw [C.decodeAll_encodeAll_append_eq hfuel]
  refine List.mem_append_left _ (List.mem_map_of_mem ?_)
  exact List.mem_append_right _ (List.mem_singleton.mpr rfl)

/-! ## A given number of values -/

/-- Take a number of values off the front of a stream. -/
def decodeN : ℕ → List β → Option (List γ × List β)
  | 0, s => some ([], s)
  | n + 1, s =>
      (C.decode s).bind fun r ↦ (decodeN n r.2).map fun rs ↦ (r.1 :: rs.1, rs.2)

theorem decodeN_encodeAll (rest : List β) : ∀ as : List α,
    C.decodeN as.length (C.encodeAll as ++ rest) = some (as.map C.value, rest) := by
  intro as
  induction as with
  | nil => rfl
  | cons a as ih =>
    rw [List.length_cons, decodeN, encodeAll_cons, List.append_assoc, C.decode_encode,
      Option.bind_some, ih, Option.map_some, List.map_cons]

theorem decodeN_torn : ∀ {as : List α} {p : List β}, p <+: C.encodeAll as → p ≠ C.encodeAll as →
    C.decodeN as.length p = none := by
  intro as
  induction as with
  | nil =>
    intro p hpre hne
    exact absurd (List.prefix_nil.mp hpre) hne
  | cons a as ih =>
    intro p hpre hne
    rw [encodeAll_cons] at hpre hne
    rw [List.length_cons, decodeN]
    rcases List.prefix_or_prefix_of_prefix hpre (List.prefix_append (C.encode a) _) with hp | hp
    · by_cases heq : p = C.encode a
      · subst heq
        have hrest : [] ≠ C.encodeAll as := fun h ↦ hne (by rw [← h, List.append_nil])
        have hdecode := C.decode_encode a []
        rw [List.append_nil] at hdecode
        rw [hdecode, Option.bind_some, ih List.nil_prefix hrest]
        rfl
      · rw [C.decode_torn a p hp heq]
        rfl
    · obtain ⟨q, rfl⟩ := hp
      have hq : q ≠ C.encodeAll as := fun h ↦ hne (by rw [h])
      rw [C.decode_encode, Option.bind_some, ih ((List.prefix_append_right_inj _).mp hpre) hq]
      rfl

/-! ## Cutting a stream -/

/-- Each member with the position at which its encoding ends, the first one starting at `start`. -/
def ends : ℕ → List α → List (α × ℕ)
  | _, [] => []
  | start, a :: as =>
      (a, start + (C.encode a).length) :: ends (start + (C.encode a).length) as

theorem map_fst_ends (start : ℕ) (as : List α) : (C.ends start as).map Prod.fst = as := by
  induction as generalizing start with
  | nil => rfl
  | cons a as ih => rw [ends, List.map_cons, ih]

theorem lt_of_mem_ends : ∀ {as : List α} {start : ℕ} {e : α × ℕ},
    e ∈ C.ends start as → start < e.2 := by
  intro as
  induction as with
  | nil => intro start e he; exact absurd he List.not_mem_nil
  | cons a as ih =>
    intro start e he
    have hpos := C.encode_length_pos a
    rcases List.mem_cons.mp he with rfl | he
    · exact Nat.lt_add_of_pos_right hpos
    · exact (Nat.lt_add_of_pos_right hpos).trans (ih he)

theorem exists_append_of_mem_ends : ∀ {as : List α} {start : ℕ} {e : α × ℕ},
    e ∈ C.ends start as → ∃ bs cs, as = bs ++ e.1 :: cs ∧
      e.2 = start + (C.encodeAll bs ++ C.encode e.1).length := by
  intro as
  induction as with
  | nil => intro start e he; exact absurd he List.not_mem_nil
  | cons a as ih =>
    intro start e he
    rcases List.mem_cons.mp he with rfl | he
    · exact ⟨[], as, rfl, rfl⟩
    · obtain ⟨bs, cs, rfl, hend⟩ := ih he
      refine ⟨a :: bs, cs, rfl, ?_⟩
      rw [hend, encodeAll_cons, List.append_assoc, Nat.add_assoc, ← List.length_append]

theorem ends_append (start : ℕ) (as bs : List α) :
    C.ends start (as ++ bs) = C.ends start as ++ C.ends (start + (C.encodeAll as).length) bs := by
  induction as generalizing start with
  | nil => rfl
  | cons a as ih =>
    rw [List.cons_append, ends, ih, ends, encodeAll_cons, List.length_append, Nat.add_assoc]
    rfl

/-- **Cutting.** A stream of encodings cut at any position decodes to the values that end before
the cut. The offset `start` makes the induction go through: the tail of the stream starts where its
head ends. -/
theorem decodeAll_take : ∀ {as : List α} (start k : ℕ) {fuel : ℕ},
    ((C.encodeAll as).take k).length ≤ fuel →
    (C.decodeAll fuel ((C.encodeAll as).take k)).1
      = ((C.ends start as).filter fun e ↦ e.2 ≤ start + k).map fun e ↦ C.value e.1 := by
  intro as
  induction as with
  | nil =>
    intro start k fuel _
    rw [encodeAll_nil, List.take_nil, C.decodeAll_of_decode_none C.decode_nil]
    rfl
  | cons a as ih =>
    intro start k fuel hfuel
    have hpos := C.encode_length_pos a
    rw [encodeAll_cons, List.take_append] at hfuel ⊢
    rw [ends]
    by_cases hk : (C.encode a).length ≤ k
    · -- the first encoding survives whole; go on behind it
      rw [List.take_of_length_le hk, List.length_append] at hfuel
      obtain ⟨fuel, rfl⟩ := Nat.exists_eq_add_one_of_ne_zero (n := fuel) (by omega)
      have hkeep : start + (C.encode a).length ≤ start + k := Nat.add_le_add_left hk _
      rw [List.take_of_length_le hk, decodeAll_encode_append,
        List.filter_cons_of_pos (by simpa using hkeep), List.map_cons,
        ih (start + (C.encode a).length) _ (by omega), Nat.add_assoc, Nat.add_sub_cancel' hk]
    · -- the cut goes through the first encoding, and everything else ends later still
      have hk' : k < (C.encode a).length := Nat.lt_of_not_le hk
      have htorn : C.decode ((C.encode a).take k) = none := by
        refine C.decode_torn a _ (List.take_prefix _ _) fun h ↦ ?_
        have hlen := congrArg List.length h
        rw [List.length_take_of_le hk'.le] at hlen
        exact hk'.ne hlen
      have hnone : ((a, start + (C.encode a).length) ::
          C.ends (start + (C.encode a).length) as).filter (fun e ↦ e.2 ≤ start + k) = [] := by
        refine List.filter_eq_nil_iff.mpr fun e he ↦ ?_
        have hlt : start + k < e.2 := by
          rcases List.mem_cons.mp he with rfl | he
          · exact Nat.add_lt_add_left hk' _
          · exact (Nat.add_lt_add_left hk' _).trans (C.lt_of_mem_ends he)
        simpa using hlt
      rw [Nat.sub_eq_zero_of_le hk'.le, List.take_zero, List.append_nil,
        C.decodeAll_of_decode_none htorn, hnone]
      rfl

/-- A stream cut anywhere before its end: complete encodings, not all of them, and a rest that does
not decode. -/
theorem exists_take_encodeAll (a : α) : ∀ {as : List α} {k : ℕ},
    k < (C.encodeAll (as ++ [a])).length →
      ∃ bs rest, (C.encodeAll (as ++ [a])).take k = C.encodeAll bs ++ rest ∧ bs <+: as ∧
        C.decode rest = none := by
  have htorn : ∀ (b : α) {k : ℕ}, k < (C.encode b).length →
      C.decode ((C.encode b).take k) = none := by
    intro b k hk
    refine C.decode_torn b _ (List.take_prefix _ _) fun h ↦ ?_
    have hlen := congrArg List.length h
    rw [List.length_take_of_le hk.le] at hlen
    exact hk.ne hlen
  intro as
  induction as with
  | nil =>
    intro k hk
    rw [List.nil_append, encodeAll_singleton] at hk ⊢
    exact ⟨[], _, rfl, List.prefix_rfl, htorn a hk⟩
  | cons b as ih =>
    intro k hk
    rw [List.cons_append, encodeAll_cons] at hk ⊢
    rw [List.take_append]
    by_cases hb : (C.encode b).length ≤ k
    · rw [List.length_append] at hk
      obtain ⟨bs, rest, htake, hpre, hrest⟩ := ih (k := k - (C.encode b).length) (by omega)
      refine ⟨b :: bs, rest, ?_, (List.prefix_cons_inj b).mpr hpre, hrest⟩
      rw [List.take_of_length_le hb, htake, encodeAll_cons, List.append_assoc]
    · have hlt : k < (C.encode b).length := Nat.lt_of_not_le hb
      refine ⟨[], _, ?_, List.nil_prefix, htorn b hlt⟩
      rw [Nat.sub_eq_zero_of_le hlt.le, List.take_zero, List.append_nil]
      rfl

end PrefixCode

/-! ## Codes without a decoder

That a stream can be read in one way only does not need a decoder; it is enough that no encoding can
be mistaken for another one, whatever follows. -/

section Unique

variable {α β : Type*} {encode : α → List β}

/-- An encoding shows where it ends. -/
def SelfDelimiting (encode : α → List β) : Prop :=
  ∀ ⦃a b : α⦄ ⦃r s : List β⦄, encode a ++ r = encode b ++ s → a = b ∧ r = s

theorem SelfDelimiting.exists_of_append (h : SelfDelimiting encode) {r : List β} :
    ∀ {as bs : List α}, as.flatMap encode ++ r = bs.flatMap encode → as.length ≤ bs.length →
      ∃ cs, bs = as ++ cs ∧ r = cs.flatMap encode := by
  intro as
  induction as with
  | nil => intro bs heq _; exact ⟨bs, rfl, heq⟩
  | cons a as ih =>
    intro bs heq hlen
    cases bs with
    | nil => exact absurd hlen (Nat.not_succ_le_zero _)
    | cons b bs =>
      rw [List.flatMap_cons, List.flatMap_cons, List.append_assoc] at heq
      obtain ⟨rfl, hrest⟩ := h heq
      obtain ⟨cs, rfl, hr⟩ := ih hrest (Nat.le_of_succ_le_succ hlen)
      exact ⟨cs, rfl, hr⟩

/-- **Unique reading.** A stream of encodings is one of exactly one list. -/
theorem SelfDelimiting.flatMap_injective (h : SelfDelimiting encode) (hne : ∀ a, encode a ≠ []) :
    Function.Injective fun as : List α ↦ as.flatMap encode := by
  have hnil : ∀ cs : List α, [] = cs.flatMap encode → cs = [] := by
    intro cs hcs
    cases cs with
    | nil => rfl
    | cons c cs => exact absurd (List.append_eq_nil_iff.mp hcs.symm).1 (hne c)
  have hle : ∀ as bs : List α, as.flatMap encode = bs.flatMap encode → as.length ≤ bs.length →
      as = bs := by
    intro as bs heq hlen
    obtain ⟨cs, rfl, hr⟩ := h.exists_of_append (r := []) (by rwa [List.append_nil]) hlen
    rw [hnil cs hr, List.append_nil]
  intro as bs heq
  rcases le_total as.length bs.length with hlen | hlen
  · exact hle as bs heq hlen
  · exact (hle bs as heq.symm hlen).symm

end Unique

end VortexMQ
