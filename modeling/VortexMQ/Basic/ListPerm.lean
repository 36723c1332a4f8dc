import Mathlib

/-!
# Rearrangements of collections

Bookkeeping for lists of lists and for association lists: what an update puts in and takes out, up
to permutation. Replacing one member of a list of lists is stated in the additive form
`old member + new total = new member + old total`, which needs no subtraction.
-/

namespace VortexMQ

variable {α β : Type*}

theorem flatten_set_perm : ∀ {l : List (List α)} {i : ℕ} (h : i < l.length) (x : List α),
    (l[i] ++ (l.set i x).flatten).Perm (x ++ l.flatten) := by
  intro l
  induction l with
  | nil => intro i h; exact absurd h (Nat.not_lt_zero i)
  | cons a l ih =>
    intro i h x
    cases i with
    | zero =>
      rw [List.getElem_cons_zero, List.set_cons_zero, List.flatten_cons, List.flatten_cons,
        ← List.append_assoc, ← List.append_assoc]
      exact List.perm_append_comm.append_right _
    | succ i =>
      have hi : i < l.length := by simpa using h
      rw [List.getElem_cons_succ, List.set_cons_succ, List.flatten_cons, List.flatten_cons]
      calc (l[i] ++ (a ++ (l.set i x).flatten)).Perm (a ++ (l[i] ++ (l.set i x).flatten)) := by
            rw [← List.append_assoc, ← List.append_assoc]
            exact List.perm_append_comm.append_right _
        List.Perm _ (a ++ (x ++ l.flatten)) := (ih hi x).append_left a
        List.Perm _ (x ++ (a ++ l.flatten)) := by
            rw [← List.append_assoc, ← List.append_assoc]
            exact List.perm_append_comm.append_right _

theorem flatten_eraseIdx_perm : ∀ {l : List (List α)} {i : ℕ} (h : i < l.length),
    (l[i] ++ (l.eraseIdx i).flatten).Perm l.flatten := by
  intro l
  induction l with
  | nil => intro i h; exact absurd h (Nat.not_lt_zero i)
  | cons a l ih =>
    intro i h
    cases i with
    | zero => exact List.Perm.refl _
    | succ i =>
      have hi : i < l.length := by simpa using h
      rw [List.getElem_cons_succ, List.eraseIdx_cons_succ, List.flatten_cons, List.flatten_cons]
      refine List.Perm.trans ?_ ((ih hi).append_left a)
      rw [← List.append_assoc, ← List.append_assoc]
      exact List.perm_append_comm.append_right _

theorem eraseP_eq_perm [DecidableEq α] {l : List α} {a : α} (h : a ∈ l) :
    (a :: l.eraseP fun b ↦ b = a).Perm l := by
  obtain ⟨b, l₁, l₂, -, hb, hl, herase⟩ :=
    List.exists_of_eraseP (p := fun b ↦ decide (b = a)) h (by simp)
  obtain rfl : b = a := by simpa using hb
  rw [herase, hl]
  exact List.perm_middle.symm

/-! ## Keys of an association list -/

section AList

variable [DecidableEq α] {s : AList fun _ : α ↦ β} {a : α} {b : β}

theorem keys_insert_of_notMem (h : a ∉ s) : (s.insert a b).keys = a :: s.keys := by
  rw [AList.keys_insert, List.erase_of_not_mem (mt AList.mem_keys.mpr h)]

theorem keys_insert_of_mem_perm (h : a ∈ s) : (s.insert a b).keys.Perm s.keys := by
  rw [AList.keys_insert]
  exact (List.perm_cons_erase (AList.mem_keys.mp h)).symm

theorem keys_erase_perm (h : a ∈ s) : (a :: (s.erase a).keys).Perm s.keys := by
  rw [AList.keys_erase]
  exact (List.perm_cons_erase (AList.mem_keys.mp h)).symm

theorem mem_of_lookup_eq_some (h : s.lookup a = some b) : a ∈ s :=
  AList.lookup_isSome.mp (Option.isSome_of_eq_some h)

/-- Erasing a key from a list of the keys and from the map keeps the two together. -/
theorem eraseP_perm_keys_erase {l : List α} (h : l.Perm s.keys) (a : α) :
    (l.eraseP fun b ↦ b = a).Perm (s.erase a).keys := by
  by_cases ha : a ∈ s
  · have hl : a ∈ l := h.mem_iff.mpr (AList.mem_keys.mp ha)
    exact (List.perm_cons a).mp ((eraseP_eq_perm hl).trans (h.trans (keys_erase_perm ha).symm))
  · have hl : a ∉ l := mt h.mem_iff.mp (mt AList.mem_keys.mpr ha)
    have hno : ∀ b ∈ l, ¬decide (b = a) = true := by
      rintro b hb hba
      exact hl (of_decide_eq_true hba ▸ hb)
    rw [List.eraseP_of_forall_not hno, AList.keys_erase,
      List.erase_of_not_mem (mt AList.mem_keys.mpr ha)]
    exact h

/-- Updating the value at a key changes the concatenation of the values by what is put in and taken
out. -/
theorem flatMap_insert_perm {γ : Type*} (f : β → List γ) {b' : β} (h : s.lookup a = some b) :
    (f b ++ (s.insert a b').entries.flatMap fun e ↦ f e.2).Perm
      (f b' ++ s.entries.flatMap fun e ↦ f e.2) := by
  obtain ⟨c, l₁, l₂, -, hs, herase⟩ :=
    List.exists_of_kerase (AList.mem_keys.mp (mem_of_lookup_eq_some h))
  have hc : c = b := by
    have hmem' : (⟨a, c⟩ : (_ : α) × β) ∈ s.entries := by rw [hs]; simp
    have := AList.mem_lookup_iff.mpr hmem'
    rw [h, Option.mem_def, Option.some_inj] at this
    exact this.symm
  subst hc
  rw [AList.entries_insert, herase, List.flatMap_cons]
  calc (f c ++ (f b' ++ (l₁ ++ l₂).flatMap fun e ↦ f e.2)).Perm
        (f b' ++ (f c ++ (l₁ ++ l₂).flatMap fun e ↦ f e.2)) := by
        rw [← List.append_assoc, ← List.append_assoc]
        exact List.perm_append_comm.append_right _
    List.Perm _ (f b' ++ s.entries.flatMap fun e ↦ f e.2) := by
        refine List.Perm.append_left _ ?_
        have hmid : s.entries.Perm (⟨a, c⟩ :: (l₁ ++ l₂)) := hs ▸ List.perm_middle
        exact (hmid.flatMap_right fun e ↦ f e.2).symm

end AList

theorem flatMap_concat_perm [DecidableEq α] {f g : α → List β} {b : List β} {a : α}
    (hsame : ∀ x, x ≠ a → g x = f x) (hself : g a = f a ++ b) :
    ∀ {l : List α}, l.Nodup → a ∈ l → (l.flatMap g).Perm (l.flatMap f ++ b) := by
  intro l
  induction l with
  | nil => intro _ ha; exact absurd ha List.not_mem_nil
  | cons x l ih =>
    intro hnodup ha
    obtain ⟨hx, hl⟩ := List.nodup_cons.mp hnodup
    rw [List.flatMap_cons, List.flatMap_cons]
    by_cases hxa : x = a
    · subst hxa
      have hrest : l.flatMap g = l.flatMap f :=
        List.flatMap_congr fun y hy ↦ hsame y fun h ↦ hx (h ▸ hy)
      rw [hself, hrest, List.append_assoc, List.append_assoc]
      exact List.perm_append_comm.append_left _
    · rw [hsame x hxa, List.append_assoc]
      have hmem : a ∈ l := (List.mem_cons.mp ha).resolve_left fun h ↦ hxa h.symm
      exact (ih hl hmem).append_left _

end VortexMQ
