import Mathlib

/-!
# Bounded double-ended queues

The abstract object a bounded buffer is meant to be: a list with a bound that the list never
exceeds. A push at one end of a full deque discards the element at the other end, and a closed
deque refuses pushes but can still be emptied.

The operations come with a small request language, `Deque.Op`, so that a whole sequence of calls
and the answers to it can be compared with those of an implementation.
-/

namespace VortexMQ

/-- A double-ended queue of at most `bound` elements. -/
structure Deque (α : Type) where
  /-- Front first. -/
  items : List α
  bound : ℕ
  closed : Bool
  bound_pos : 0 < bound
  length_le : items.length ≤ bound

namespace Deque

variable {α : Type}

/-- The open, empty deque. -/
def empty (bound : ℕ) (h : 0 < bound) : Deque α := ⟨[], bound, false, h, Nat.zero_le _⟩

/-- Append at the back. A full deque loses its front element. -/
def pushBack (d : Deque α) (x : α) : Bool × Deque α :=
  if d.closed then (false, d)
  else (true, { d with
    items := (if d.items.length < d.bound then d.items else d.items.tail) ++ [x]
    length_le := by
      have h := d.length_le
      have hpos := d.bound_pos
      split <;> simp only [List.length_append, List.length_tail, List.length_singleton] <;> omega })

/-- Prepend at the front. A full deque loses its back element. -/
def pushFront (d : Deque α) (x : α) : Bool × Deque α :=
  if d.closed then (false, d)
  else (true, { d with
    items := x :: (if d.items.length < d.bound then d.items else d.items.dropLast)
    length_le := by
      have h := d.length_le
      have hpos := d.bound_pos
      split <;> simp only [List.length_cons, List.length_dropLast] <;> omega })

/-- Remove the front element, if there is one. -/
def popFront (d : Deque α) : Option α × Deque α :=
  (d.items.head?, { d with
    items := d.items.tail
    length_le := by
      have h := d.length_le
      rw [List.length_tail]
      omega })

/-- `n` pops in a row and everything they returned. -/
def popFronts (d : Deque α) : ℕ → List (Option α) × Deque α
  | 0 => ([], d)
  | n + 1 => (d.popFront.1 :: (popFronts d.popFront.2 n).1, (popFronts d.popFront.2 n).2)

/-- Refuse pushes from now on. -/
def close (d : Deque α) : Deque α := { d with closed := true }

/-! ## What a push leaves -/

section Push

variable (d : Deque α) {x : α}

theorem items_pushBack_of_lt (hc : ¬d.closed) (h : d.items.length < d.bound) :
    (d.pushBack x).2.items = d.items ++ [x] := by
  rw [pushBack, if_neg hc]
  simp only [if_pos h]

theorem items_pushBack_of_eq (hc : ¬d.closed) (h : d.items.length = d.bound) :
    (d.pushBack x).2.items = d.items.tail ++ [x] := by
  rw [pushBack, if_neg hc]
  simp only [if_neg h.not_lt]

theorem items_pushFront_of_lt (hc : ¬d.closed) (h : d.items.length < d.bound) :
    (d.pushFront x).2.items = x :: d.items := by
  rw [pushFront, if_neg hc]
  simp only [if_pos h]

theorem items_pushFront_of_eq (hc : ¬d.closed) (h : d.items.length = d.bound) :
    (d.pushFront x).2.items = x :: d.items.dropLast := by
  rw [pushFront, if_neg hc]
  simp only [if_neg h.not_lt]

@[simp] theorem closed_pushBack : (d.pushBack x).2.closed = d.closed := by
  rw [pushBack]
  split <;> rfl

@[simp] theorem bound_pushBack : (d.pushBack x).2.bound = d.bound := by
  rw [pushBack]
  split <;> rfl

@[simp] theorem closed_pushFront : (d.pushFront x).2.closed = d.closed := by
  rw [pushFront]
  split <;> rfl

@[simp] theorem bound_pushFront : (d.pushFront x).2.bound = d.bound := by
  rw [pushFront]
  split <;> rfl

theorem accepted_pushBack : (d.pushBack x).1 = !d.closed := by
  rw [pushBack]
  cases d.closed <;> rfl

theorem accepted_pushFront : (d.pushFront x).1 = !d.closed := by
  rw [pushFront]
  cases d.closed <;> rfl

theorem length_pushBack_le : (d.pushBack x).2.items.length ≤ d.items.length + 1 := by
  rw [pushBack]
  split
  · exact Nat.le_succ _
  · simp only [List.length_append, List.length_singleton]
    split
    · exact le_rfl
    · rw [List.length_tail]
      omega

theorem length_pushFront_le : (d.pushFront x).2.items.length ≤ d.items.length + 1 := by
  rw [pushFront]
  split
  · exact Nat.le_succ _
  · simp only [List.length_cons]
    split
    · exact le_rfl
    · rw [List.length_dropLast]
      omega

theorem mem_of_mem_pushBack {y : α} (h : y ∈ (d.pushBack x).2.items) : y = x ∨ y ∈ d.items := by
  rw [pushBack] at h
  split at h
  · exact Or.inr h
  · simp only [List.mem_append, List.mem_singleton] at h
    rcases h with h | rfl
    · split at h
      · exact Or.inr h
      · exact Or.inr (List.mem_of_mem_tail h)
    · exact Or.inl rfl

theorem mem_of_mem_pushFront {y : α} (h : y ∈ (d.pushFront x).2.items) : y = x ∨ y ∈ d.items := by
  rw [pushFront] at h
  split at h
  · exact Or.inr h
  · rcases List.mem_cons.mp h with rfl | h
    · exact Or.inl rfl
    · split at h
      · exact Or.inr h
      · exact Or.inr (List.mem_of_mem_dropLast h)

theorem pushFront_eq_pushBack (h : d.items = []) : d.pushFront x = d.pushBack x := by
  rw [pushFront, pushBack]
  split
  · rfl
  · simp only [h, List.length_nil, d.bound_pos, if_true, List.nil_append]

end Push

theorem popFronts_le : ∀ (n : ℕ) (d : Deque α),
    (d.popFronts n).2.items.length ≤ d.items.length ∧ (d.popFronts n).2.closed = d.closed := by
  intro n
  induction n with
  | zero => intro d; exact ⟨le_rfl, rfl⟩
  | succ n ih =>
    intro d
    obtain ⟨hlen, hclosed⟩ := ih d.popFront.2
    refine ⟨hlen.trans ?_, hclosed⟩
    rw [popFront, List.length_tail]
    exact Nat.sub_le _ _

/-! ## Calls and answers -/

inductive Op (α : Type) where
  | pushBack (x : α)
  | pushFront (x : α)
  | popFront
  | popBatch (max : ℤ)
  | length
  | close

inductive Answer (α : Type) where
  /-- Whether a push was accepted. -/
  | accepted (ok : Bool)
  /-- The element, nil when there was none, and whether there was one. -/
  | popped (x : Option α) (ok : Bool)
  | batch (xs : List (Option α))
  | length (n : ℤ)
  | done

/-- Answer one call. A batch is as many single pops as are asked for and available. -/
def step (d : Deque α) : Op α → Answer α × Deque α
  | .pushBack x => (.accepted (d.pushBack x).1, (d.pushBack x).2)
  | .pushFront x => (.accepted (d.pushFront x).1, (d.pushFront x).2)
  | .popFront => (.popped d.popFront.1 d.popFront.1.isSome, d.popFront.2)
  | .popBatch max =>
      let n := (min max d.items.length).toNat
      (.batch (d.popFronts n).1, (d.popFronts n).2)
  | .length => (.length d.items.length, d)
  | .close => (.done, d.close)

/-- Answer a sequence of calls. -/
def run (d : Deque α) : List (Op α) → List (Answer α) × Deque α
  | [] => ([], d)
  | op :: ops => ((d.step op).1 :: (run (d.step op).2 ops).1, (run (d.step op).2 ops).2)

end Deque

end VortexMQ
