import Mathlib

/-!
# Positions in lists

A list as the function from its positions to its elements: what an update at one position or at the
end does to it, and how the elements are counted and collected by their positions.
-/

namespace VortexMQ

variable {α β : Type*}

/-! ## Updates -/

theorem getElem?_concat_eq_some {l : List α} {x y : α} {i : ℕ} :
    (l ++ [x])[i]? = some y ↔ l[i]? = some y ∨ i = l.length ∧ y = x := by
  rcases lt_trichotomy i l.length with hlt | heq | hgt
  · rw [List.getElem?_append_left hlt, or_iff_left fun h ↦ hlt.ne h.1]
  · rw [heq, List.getElem?_concat_length, List.getElem?_eq_none le_rfl, Option.some_inj]
    exact ⟨fun h ↦ Or.inr ⟨rfl, h.symm⟩, fun h ↦ (h.resolve_left (by simp)).2.symm⟩
  · rw [List.getElem?_eq_none (by rw [List.length_append, List.length_singleton]; omega),
      List.getElem?_eq_none hgt.le]
    exact iff_of_false (by simp) fun h ↦ hgt.ne' (h.resolve_left (by simp)).1

theorem getElem?_modify_eq_some {l : List α} {f : α → α} {i j : ℕ} {b : α} :
    (l.modify i f)[j]? = some b ↔
      j ≠ i ∧ l[j]? = some b ∨ j = i ∧ ∃ a, l[i]? = some a ∧ b = f a := by
  rw [List.getElem?_modify, Option.map_eq_map, Option.map_eq_some_iff]
  by_cases hij : i = j
  · subst hij
    simp only [if_pos, ne_eq, not_true_eq_false, false_and, true_and, false_or, eq_comm]
  · simp only [if_neg hij, ne_eq, Ne.symm hij, not_false_eq_true, true_and, false_and, or_false,
      exists_eq_right]

theorem modify_eq_self {l : List α} {f : α → α} {i : ℕ}
    (h : ∀ x, l[i]? = some x → f x = x) : l.modify i f = l := by
  refine List.ext_getElem? fun j ↦ Option.ext fun y ↦ ?_
  rw [getElem?_modify_eq_some]
  constructor
  · rintro (⟨-, hy⟩ | ⟨rfl, x, hx, rfl⟩)
    · exact hy
    · rw [h x hx, hx]
  · intro hy
    by_cases hij : j = i
    · subst hij
      exact Or.inr ⟨rfl, y, hy, (h y hy).symm⟩
    · exact Or.inl ⟨hij, hy⟩

theorem exists_around {l : List α} {i : ℕ} {a : α} (h : l[i]? = some a) :
    ∃ front back, l = front ++ a :: back ∧ (∀ b, l.set i b = front ++ b :: back) ∧
      l.eraseIdx i = front ++ back := by
  obtain ⟨hlt, rfl⟩ := List.getElem?_eq_some_iff.mp h
  refine ⟨l.take i, l.drop (i + 1), ?_, fun b ↦ ?_, List.eraseIdx_eq_take_drop_succ l i⟩
  · rw [List.getElem_cons_drop, List.take_append_drop]
  · rw [List.set_eq_take_append_cons_drop, if_pos hlt]

/-! ## Counting and collecting -/

/-- The positions of the elements that pass, as many as there are elements that pass. -/
theorem length_filter_range_getElem? (q : α → Bool) (l : List α) :
    ((List.range l.length).filter fun i ↦ l[i]?.any q).length = l.countP q := by
  induction l using List.reverseRecOn with
  | nil => rfl
  | append_singleton l x ih =>
    have hfront : (List.range l.length).filter (fun i ↦ (l ++ [x])[i]?.any q) =
        (List.range l.length).filter fun i ↦ l[i]?.any q :=
      List.filter_congr fun i hi ↦ by rw [List.getElem?_append_left (List.mem_range.mp hi)]
    rw [List.length_append, List.length_singleton, List.range_succ, List.filter_append, hfront,
      List.length_append, ih, List.countP_append, ← List.countP_eq_length_filter,
      List.countP_singleton, List.countP_singleton, List.getElem?_concat_length]
    rfl

/-- Positions without repetition, against the elements that are there. -/
theorem countP_eq_countP_getElem? {p : ℕ → Bool} {q : α → Bool} {is : List ℕ}
    {l : List α} (hnodup : is.Nodup)
    (h : ∀ i, i ∈ is ∧ p i = true ↔ ∃ x, l[i]? = some x ∧ q x = true) :
    is.countP p = l.countP q := by
  rw [← length_filter_range_getElem? q, List.countP_eq_length_filter]
  -- Both filters keep the same positions, and neither list repeats one.
  refine ((List.perm_ext_iff_of_nodup (hnodup.filter _) (List.nodup_range.filter _)).mpr
    fun i ↦ ?_).length_eq
  rw [List.mem_filter, h, List.mem_filter, List.mem_range, Option.any_eq_true]
  constructor
  · rintro ⟨x, hx, hq⟩
    exact ⟨(List.getElem?_eq_some_iff.mp hx).1, x, hx, hq⟩
  · rintro ⟨-, x, hx, hq⟩
    exact ⟨x, hx, hq⟩

theorem flatMap_range_getElem? (f : α → List β) (l : List α) :
    ((List.range l.length).flatMap fun i ↦ ((l[i]?).map f).getD []) = l.flatMap f := by
  have hmap : ((List.range l.length).map fun i ↦ ((l[i]?).map f).getD []) = l.map f := by
    refine List.ext_getElem (by simp) fun i hi _ ↦ ?_
    have hi' : i < l.length := by simpa using hi
    simp [List.getElem?_eq_getElem hi']
  rw [List.flatMap_def, hmap, ← List.flatMap_def]

end VortexMQ
