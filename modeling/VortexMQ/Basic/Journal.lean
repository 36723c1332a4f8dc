import Mathlib.Data.List.Nodup

/-!
# Order of arrival

A journal records what is put into a collection and what is taken out, the latest event first. From
it one can tell what the collection holds, and since when: an element counts from the first time it
was added after it was last removed, and adding it again does not change that.

A list is ordered by a journal if it lists what the collection holds, oldest first.
-/

namespace VortexMQ

namespace Journal

inductive Event (α : Type*) where
  | added (a : α)
  | removed (a : α)

variable {α : Type*} [DecidableEq α]

/-- When `a` was first added after it was last removed; events are numbered from the first. -/
def born (a : α) : List (Event α) → Option ℕ
  | [] => none
  | .added b :: past => if b = a then some ((born a past).getD past.length) else born a past
  | .removed b :: past => if b = a then none else born a past

/-- `a` has been there for longer than `b`. -/
def Older (journal : List (Event α)) (a b : α) : Prop :=
  ∃ i j, born a journal = some i ∧ born b journal = some j ∧ i < j

/-- The list has what is there, oldest first. -/
structure Orders (journal : List (Event α)) (l : List α) : Prop where
  mem_iff : ∀ a, a ∈ l ↔ (born a journal).isSome
  pairwise : l.Pairwise (Older journal)

variable {journal : List (Event α)} {l l' lost : List α} {a b : α}

theorem born_lt : ∀ {journal : List (Event α)} {i : ℕ}, born a journal = some i →
    i < journal.length := by
  intro journal
  induction journal with
  | nil => intro i h; exact nomatch h
  | cons e past ih =>
    intro i h
    cases e with
    | added b =>
      rw [born] at h
      split at h
      · obtain rfl := Option.some_inj.mp h
        cases hpast : born a past with
        | none => exact Nat.lt_succ_self _
        | some j => exact Nat.lt_succ_of_lt (ih hpast)
      · exact Nat.lt_succ_of_lt (ih h)
    | removed b =>
      rw [born] at h
      split at h
      · exact nomatch h
      · exact Nat.lt_succ_of_lt (ih h)

theorem born_added_self (a : α) (journal : List (Event α)) :
    born a (.added a :: journal) = some ((born a journal).getD journal.length) := if_pos rfl

theorem born_added_of_ne (h : b ≠ a) : born a (.added b :: journal) = born a journal := if_neg h

theorem born_removed : ∀ lost : List α,
    born a (lost.map .removed ++ journal) = if a ∈ lost then none else born a journal := by
  intro lost
  induction lost with
  | nil => rfl
  | cons b lost ih =>
    rw [List.map_cons, List.cons_append, born, ih]
    by_cases hb : b = a
    · rw [if_pos hb, if_pos (hb ▸ List.mem_cons_self)]
    · have hmem : a ∈ b :: lost ↔ a ∈ lost :=
        List.mem_cons.trans (or_iff_right fun h ↦ hb h.symm)
      simp only [if_neg hb, hmem]

namespace Orders

theorem nil : Orders ([] : List (Event α)) [] :=
  ⟨fun _ ↦ iff_of_false List.not_mem_nil nofun, List.Pairwise.nil⟩

theorem older_congr {journal' : List (Event α)} (ha : born a journal' = born a journal)
    (hb : born b journal' = born b journal) (h : Older journal a b) : Older journal' a b := by
  obtain ⟨i, j, hi, hj, hlt⟩ := h
  exact ⟨i, j, ha.trans hi, hb.trans hj, hlt⟩

theorem added_of_mem (h : Orders journal l) (ha : a ∈ l) : Orders (.added a :: journal) l := by
  have hborn : ∀ b, born b (.added a :: journal) = born b journal := by
    intro b
    by_cases hab : a = b
    · obtain rfl := hab
      obtain ⟨i, hi⟩ := Option.isSome_iff_exists.mp ((h.mem_iff a).mp ha)
      rw [born_added_self, hi]
      rfl
    · exact born_added_of_ne hab
  constructor
  · intro b
    rw [hborn, h.mem_iff]
  · exact h.pairwise.imp fun hold ↦ older_congr (hborn _) (hborn _) hold

theorem added_of_notMem (h : Orders journal l) (ha : a ∉ l) :
    Orders (.added a :: journal) (l ++ [a]) := by
  have hself : born a (.added a :: journal) = some journal.length := by
    rw [born_added_self, Option.not_isSome_iff_eq_none.mp (mt (h.mem_iff a).mpr ha)]
    rfl
  have hother : ∀ b ∈ l, born b (.added a :: journal) = born b journal := fun b hb ↦
    born_added_of_ne fun hab ↦ ha (hab ▸ hb)
  constructor
  · intro b
    rw [List.mem_append, List.mem_singleton]
    by_cases hab : b = a
    · rw [hab, hself]
      exact iff_of_true (Or.inr rfl) rfl
    · rw [born_added_of_ne (Ne.symm hab), or_iff_left hab, h.mem_iff]
  · refine List.pairwise_append.mpr ⟨?_, List.pairwise_singleton _ _, ?_⟩
    · exact h.pairwise.imp_of_mem fun hb hc hold ↦ older_congr (hother _ hb) (hother _ hc) hold
    · intro b hb c hc
      obtain rfl := List.mem_singleton.mp hc
      obtain ⟨i, hi⟩ := Option.isSome_iff_exists.mp ((h.mem_iff b).mp hb)
      exact ⟨i, journal.length, (hother b hb).trans hi, hself, born_lt hi⟩

theorem removed (h : Orders journal l) (hsub : l'.Sublist l)
    (hlost : ∀ a ∈ l, a ∈ l' ↔ a ∉ lost) : Orders (lost.map .removed ++ journal) l' := by
  have hkeep : ∀ a ∈ l', born a (lost.map .removed ++ journal) = born a journal := by
    intro a ha
    rw [born_removed, if_neg ((hlost a (hsub.subset ha)).mp ha)]
  constructor
  · intro a
    constructor
    · intro ha
      rw [hkeep a ha]
      exact (h.mem_iff a).mp (hsub.subset ha)
    · intro hborn
      rw [born_removed] at hborn
      split at hborn
      · exact nomatch hborn
      · rename_i hnot
        exact (hlost a ((h.mem_iff a).mpr hborn)).mpr hnot
  · exact (h.pairwise.sublist hsub).imp_of_mem fun ha hb hold ↦
      older_congr (hkeep _ ha) (hkeep _ hb) hold

end Orders

end Journal

end VortexMQ
