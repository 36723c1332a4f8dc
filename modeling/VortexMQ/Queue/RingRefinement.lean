import VortexMQ.Queue.Deque
import VortexMQ.Queue.Ring

/-!
# The ring buffer is a bounded deque

The representation predicate `RingBuffer.Repr` says that the slots from `head` to `tail` hold a
given list. Everything about slot indices goes through one identity: because the capacity is a
power of two it divides `2 ^ 64`, so masking a wrapped counter is the same as reducing the
unwrapped one, and the `i`-th live element sits at `(head + i) % capacity` whether or not a counter
has wrapped on the way.

The two saturated branches are then the ordinary ones after a counter has moved: dropping the
oldest element is advancing `head`, dropping the newest is retreating `tail`, and in both cases the
slot that becomes free is the one the new element is written to.
-/

namespace VortexMQ

namespace RingBuffer

variable {α : Type} {rb : RingBuffer α} {xs : List α}

/-- The slot of the `i`-th element counted from `head`. -/
def slot (rb : RingBuffer α) (i : ℕ) : UInt64 := (rb.head + UInt64.ofNat i) &&& rb.mask

/-- The nodes from `head` to `tail`. -/
def window (rb : RingBuffer α) : List (Option α) :=
  (List.range (rb.tail - rb.head).toNat).map fun i ↦ rb.nodes (rb.slot i)

/-- What masking needs: the capacity is a power of two that fits an `int`, and the mask is the one
that belongs to it. -/
structure Shape (rb : RingBuffer α) : Prop where
  pow : ∃ k ≤ 62, rb.capacity.toNat = 2 ^ k
  mask_eq : rb.mask = rb.capacity - 1

/-- The buffer holds exactly `xs`, oldest first. -/
structure Repr (rb : RingBuffer α) (xs : List α) : Prop extends Shape rb where
  size_eq : (rb.tail - rb.head).toNat = xs.length
  length_le : xs.length ≤ rb.capacity.toNat
  get : ∀ i < xs.length, rb.nodes (rb.slot i) = xs[i]?

/-! ## Slot arithmetic -/

theorem Shape.and_mask_toNat (h : rb.Shape) (x : UInt64) :
    (x &&& rb.mask).toNat = x.toNat % rb.capacity.toNat := by
  obtain ⟨k, hk, hcap⟩ := h.pow
  have hle : (1 : UInt64) ≤ rb.capacity := by
    rw [UInt64.le_iff_toNat_le, hcap]
    exact Nat.two_pow_pos k
  rw [h.mask_eq, UInt64.toNat_and, UInt64.toNat_sub_of_le _ _ hle, hcap]
  exact Nat.and_two_pow_sub_one_eq_mod x.toNat k

theorem Shape.capacity_pos (h : rb.Shape) : 0 < rb.capacity.toNat := by
  obtain ⟨k, -, hcap⟩ := h.pow
  rw [hcap]
  exact Nat.two_pow_pos k

theorem Shape.capacity_le (h : rb.Shape) : rb.capacity.toNat ≤ 2 ^ 62 := by
  obtain ⟨k, hk, hcap⟩ := h.pow
  rw [hcap]
  exact Nat.pow_le_pow_right (by omega) hk

theorem Shape.slot_lt (h : rb.Shape) (x : UInt64) :
    (x &&& rb.mask).toNat < rb.capacity.toNat := by
  rw [h.and_mask_toNat]
  exact Nat.mod_lt _ h.capacity_pos

theorem Shape.slot_toNat (h : rb.Shape) (i : ℕ) :
    (rb.slot i).toNat = (rb.head.toNat + i) % rb.capacity.toNat := by
  obtain ⟨k, hk, hcap⟩ := h.pow
  have hdvd : rb.capacity.toNat ∣ 2 ^ 64 := by
    rw [hcap]
    exact Nat.pow_dvd_pow 2 (by omega)
  rw [slot, h.and_mask_toNat, UInt64.toNat_add, UInt64.toNat_ofNat', Nat.add_mod_mod,
    Nat.mod_mod_of_dvd _ hdvd]

theorem Shape.slot_inj (h : rb.Shape) {i j : ℕ} (hi : i < rb.capacity.toNat)
    (hj : j < rb.capacity.toNat) (hs : rb.slot i = rb.slot j) : i = j := by
  have hmod := congrArg UInt64.toNat hs
  rw [h.slot_toNat, h.slot_toNat] at hmod
  exact Nat.ModEq.eq_of_lt_of_lt (Nat.ModEq.add_left_cancel' rb.head.toNat hmod) hi hj

theorem slot_zero (rb : RingBuffer α) : rb.slot 0 = rb.head &&& rb.mask :=
  congrArg (· &&& rb.mask) (add_zero rb.head)

theorem slot_succ (rb : RingBuffer α) (i : ℕ) :
    rb.slot (i + 1) = rb.dropOldest.slot i := by
  rw [slot, slot, UInt64.ofNat_add, add_comm (UInt64.ofNat i), ← add_assoc]
  rfl

theorem Repr.tail_eq (h : rb.Repr xs) : rb.tail = rb.head + UInt64.ofNat xs.length := by
  rw [← h.size_eq, UInt64.ofNat_toNat, add_sub_cancel]

theorem Repr.window_eq (h : rb.Repr xs) : rb.window = xs.map some := by
  rw [window, h.size_eq]
  refine List.ext_getElem (by simp) fun i hi hi' ↦ ?_
  rw [List.length_map] at hi'
  rw [List.getElem_map, List.getElem_range, h.get i hi', List.getElem_map, List.getElem?_eq_getElem]

theorem Repr.len_eq (h : rb.Repr xs) : rb.len = xs.length := by
  have hcap := h.capacity_le
  have hlen := h.length_le
  have hlt : (rb.tail - rb.head).toNat < 2 ^ 63 := by rw [h.size_eq]; omega
  rw [len, goInt, ← h.size_eq, ← UInt64.ofNat_toNat (x := rb.tail - rb.head),
    UInt64.toInt64_ofNat', Int64.toInt_ofNat_of_lt hlt, UInt64.ofNat_toNat]

theorem Repr.head_eq_tail_iff (h : rb.Repr xs) : rb.head = rb.tail ↔ xs = [] := by
  rw [← List.length_eq_zero_iff, ← h.size_eq]
  constructor
  · intro he
    rw [he, sub_self]
    rfl
  · intro hz
    have : rb.tail - rb.head = 0 := UInt64.toNat_inj.mp hz
    exact (sub_eq_zero.mp this).symm

/-! ## Moving one counter -/

private theorem toNat_sub_one {x : UInt64} {n : ℕ} (h : x.toNat = n + 1) : (x - 1).toNat = n := by
  have hle : (1 : UInt64) ≤ x := by
    rw [UInt64.le_iff_toNat_le, h]
    exact Nat.le_add_left 1 n
  rw [UInt64.toNat_sub_of_le _ _ hle, h]
  rfl

private theorem toNat_add_one {x : UInt64} {n : ℕ} (h : x.toNat = n) (hn : n < 2 ^ 62) :
    (x + 1).toNat = n + 1 := by
  rw [UInt64.toNat_add, h]
  exact Nat.mod_eq_of_lt (by simp only [UInt64.reduceToNat]; omega)

theorem Repr.dropOldest {x : α} (h : rb.Repr (x :: xs)) :
    rb.dropOldest.Repr xs := by
  refine ⟨⟨h.pow, h.mask_eq⟩, ?_, (Nat.le_succ _).trans h.length_le, fun i hi ↦ ?_⟩
  · change (rb.tail - (rb.head + 1)).toNat = xs.length
    rw [← sub_sub]
    exact toNat_sub_one h.size_eq
  · rw [← slot_succ]
    exact h.get (i + 1) (by simpa using hi)

theorem Repr.dropNewest {x : α} (h : rb.Repr (xs ++ [x])) :
    rb.dropNewest.Repr xs := by
  have hsize := h.size_eq
  have hle := h.length_le
  rw [List.length_append, List.length_singleton] at hsize hle
  refine ⟨⟨h.pow, h.mask_eq⟩, ?_, (Nat.le_succ _).trans hle, fun i hi ↦ ?_⟩
  · change (rb.tail - 1 - rb.head).toNat = xs.length
    rw [sub_right_comm]
    exact toNat_sub_one hsize
  · have hget := h.get i (by simp; omega)
    rwa [List.getElem?_append_left hi] at hget

/-! ## Writing one slot -/

theorem Repr.writeTail (h : rb.Repr xs) (hlt : xs.length < rb.capacity.toNat) (x : α) :
    (rb.writeTail x).Repr (xs ++ [x]) := by
  have hcap := h.capacity_le
  have htail : rb.tail &&& rb.mask = rb.slot xs.length := by rw [h.tail_eq]; rfl
  refine ⟨⟨h.pow, h.mask_eq⟩, ?_, by rw [List.length_append]; exact hlt, fun i hi ↦ ?_⟩
  · change (rb.tail + 1 - rb.head).toNat = (xs ++ [x]).length
    rw [add_sub_right_comm, List.length_append]
    exact toNat_add_one h.size_eq (by omega)
  · rw [List.length_append, List.length_singleton] at hi
    change Function.update rb.nodes (rb.tail &&& rb.mask) (some x) (rb.slot i) = _
    rw [htail]
    rcases Nat.lt_succ_iff_lt_or_eq.mp hi with hi' | rfl
    · have hne : rb.slot i ≠ rb.slot xs.length := fun he ↦
        hi'.ne (h.slot_inj (hi'.trans hlt) hlt he)
      rw [Function.update_of_ne hne, h.get i hi', List.getElem?_append_left hi']
    · rw [Function.update_self, List.getElem?_append_right le_rfl, Nat.sub_self]
      rfl

/-- The slot before `head` is free as long as the buffer is not full. -/
theorem Repr.writeHead (h : rb.Repr xs) (hlt : xs.length < rb.capacity.toNat) (x : α) :
    (rb.writeHead x).Repr (x :: xs) := by
  have hcap := h.capacity_le
  have hshape : Shape { rb with head := rb.head - 1 } := ⟨h.pow, h.mask_eq⟩
  have hslot : ∀ i, slot { rb with head := rb.head - 1 } (i + 1) = rb.slot i := by
    intro i
    rw [slot_succ, slot, slot]
    exact congrArg (fun x ↦ (x + UInt64.ofNat i) &&& rb.mask) (sub_add_cancel rb.head 1)
  refine ⟨⟨h.pow, h.mask_eq⟩, ?_, hlt, fun i hi ↦ ?_⟩
  · change (rb.tail - (rb.head - 1)).toNat = xs.length + 1
    rw [sub_sub_eq_add_sub, add_sub_right_comm]
    exact toNat_add_one h.size_eq (by omega)
  · rw [List.length_cons] at hi
    change Function.update rb.nodes ((rb.head - 1) &&& rb.mask) (some x)
      (slot { rb with head := rb.head - 1 } i) = _
    rw [← slot_zero { rb with head := rb.head - 1 }]
    cases i with
    | zero => rw [Function.update_self]; rfl
    | succ i =>
      have hne : slot { rb with head := rb.head - 1 } (i + 1)
          ≠ slot { rb with head := rb.head - 1 } 0 := fun he ↦
        absurd (hshape.slot_inj (by simp; omega) h.capacity_pos he) (by omega)
      rw [Function.update_of_ne hne, hslot, h.get i (by omega)]
      rfl

/-- Taking the head returns the oldest element; clearing its slot disturbs no other. -/
theorem Repr.takeHead {x : α} (h : rb.Repr (x :: xs)) :
    rb.takeHead.1 = some x ∧ rb.takeHead.2.Repr xs := by
  have hadv := h.dropOldest
  have hle := h.length_le
  rw [List.length_cons] at hle
  refine ⟨?_, ⟨hadv.pow, hadv.mask_eq⟩, hadv.size_eq, hadv.length_le, fun i hi ↦ ?_⟩
  · change rb.nodes (rb.head &&& rb.mask) = some x
    rw [← slot_zero, h.get 0 (by simp)]
    rfl
  · change Function.update rb.nodes (rb.head &&& rb.mask) none
      (rb.dropOldest.slot i) = _
    have hne : rb.slot (i + 1) ≠ rb.slot 0 := fun he ↦
      absurd (h.slot_inj (by omega) h.capacity_pos he) (by omega)
    rw [← slot_zero, ← slot_succ, Function.update_of_ne hne, slot_succ]
    exact hadv.get i hi

/-! ## Growth -/

/-- After `n` rounds the new slice holds the first `n` elements at their own indices. -/
theorem growNodes_apply (rb : RingBuffer α) : ∀ {n : ℕ}, n ≤ 2 ^ 64 → ∀ i < n,
    rb.growNodes n (UInt64.ofNat i) = rb.nodes (rb.slot i) := by
  intro n
  induction n with
  | zero => intro _ i hi; exact absurd hi (Nat.not_lt_zero i)
  | succ n ih =>
    intro hn i hi
    rw [growNodes]
    rcases Nat.lt_succ_iff_lt_or_eq.mp hi with hi' | rfl
    · have hne : UInt64.ofNat i ≠ UInt64.ofNat n := by
        intro he
        have := congrArg UInt64.toNat he
        rw [UInt64.toNat_ofNat', UInt64.toNat_ofNat', Nat.mod_eq_of_lt (by omega),
          Nat.mod_eq_of_lt (by omega)] at this
        omega
      rw [Function.update_of_ne hne]
      exact ih (by omega) i hi'
    · rw [Function.update_self, slot]

theorem Repr.grow (h : rb.Repr xs) (hsat : rb.capacity < saturationCapacity) :
    rb.grow.Repr xs ∧ rb.grow.capacity.toNat = 2 * rb.capacity.toNat := by
  have hlt : rb.capacity.toNat < 16777216 := UInt64.lt_iff_toNat_lt.mp hsat
  have hcap : (rb.capacity * 2).toNat = 2 * rb.capacity.toNat := by
    rw [UInt64.toNat_mul]
    simp only [UInt64.reduceToNat]
    omega
  have hle := h.length_le
  have hpow : ∃ k ≤ 62, (rb.capacity * 2).toNat = 2 ^ k := by
    obtain ⟨k, hk, hk'⟩ := h.pow
    have hk24 : k < 24 := (Nat.pow_lt_pow_iff_right (by omega : 1 < 2)).mp (by omega)
    exact ⟨k + 1, by omega, by rw [hcap, hk', pow_succ, mul_comm]⟩
  have hshape : rb.grow.Shape := ⟨hpow, rfl⟩
  refine ⟨⟨hshape, ?_, by rw [RingBuffer.grow, hcap]; omega, fun i hi ↦ ?_⟩, hcap⟩
  · rw [RingBuffer.grow, sub_zero, h.size_eq]
  · have hslot : rb.grow.slot i = UInt64.ofNat i := by
      have hs : (rb.grow.slot i).toNat = (0 + i) % (rb.capacity * 2).toNat := hshape.slot_toNat i
      rw [hcap, zero_add, Nat.mod_eq_of_lt (by omega)] at hs
      refine UInt64.toNat_inj.mp ?_
      rw [hs, UInt64.toNat_ofNat', Nat.mod_eq_of_lt (by omega)]
    rw [hslot, RingBuffer.grow, h.size_eq]
    change rb.growNodes xs.length (UInt64.ofNat i) = _
    rw [rb.growNodes_apply (by omega) i hi, h.get i hi]

/-! ## The refinement

The abstract deque knows nothing of capacities and growth. Its bound is the capacity at which the
ring stops growing: `saturationCapacity`, or the initial capacity when that is larger. -/

structure Refines (rb : RingBuffer α) (d : Deque α) : Prop where
  repr : rb.Repr d.items
  closed_eq : rb.closed = d.closed
  bound_eq : d.bound = max rb.capacity.toNat saturationCapacity.toNat

variable {d : Deque α}

theorem Repr.full_iff (h : rb.Repr xs) :
    rb.capacity ≤ rb.tail - rb.head ↔ xs.length = rb.capacity.toNat := by
  have hle := h.length_le
  rw [UInt64.le_iff_toNat_le, h.size_eq]
  omega

/-- A full ring below saturation doubles, and the bound stays where it is. -/
theorem Refines.grow (h : rb.Refines d) (hsat : rb.capacity < saturationCapacity) :
    rb.grow.Refines d := by
  obtain ⟨hrepr, hcap⟩ := h.repr.grow hsat
  have hlt : rb.capacity.toNat < saturationCapacity.toNat := UInt64.lt_iff_toNat_lt.mp hsat
  have hdouble : 2 * rb.capacity.toNat ≤ saturationCapacity.toNat := by
    obtain ⟨k, -, hk⟩ := h.repr.pow
    have h24 : saturationCapacity.toNat = 2 ^ 24 := rfl
    rw [hk, h24] at hlt
    have hk24 : k < 24 := (Nat.pow_lt_pow_iff_right (by omega : 1 < 2)).mp hlt
    rw [hk, h24, mul_comm, ← pow_succ]
    exact Nat.pow_le_pow_right (by omega) hk24
  refine ⟨hrepr, h.closed_eq, ?_⟩
  rw [h.bound_eq, hcap, max_eq_right hlt.le, max_eq_right hdouble]

/-- Making room leaves a buffer that is not full, unless the deque is at its bound: then it is the
`drop` that makes it. -/
theorem Refines.makeRoom (h : rb.Refines d) (drop : RingBuffer α → RingBuffer α) :
    (d.items.length < d.bound ∧ (rb.makeRoom drop).Refines d ∧
        d.items.length < (rb.makeRoom drop).capacity.toNat) ∨
      (d.items.length = d.bound ∧ rb.makeRoom drop = drop rb ∧
        d.items.length = rb.capacity.toNat) := by
  have hb := h.bound_eq
  have hle := h.repr.length_le
  have hpos := h.repr.capacity_pos
  rw [RingBuffer.makeRoom]
  by_cases hfull : rb.capacity ≤ rb.tail - rb.head
  · have hlen := h.repr.full_iff.mp hfull
    rw [if_pos hfull]
    by_cases hsat : saturationCapacity ≤ rb.capacity
    · have hsat' := UInt64.le_iff_toNat_le.mp hsat
      rw [if_pos hsat]
      exact Or.inr ⟨by omega, rfl, hlen⟩
    · have hlt := UInt64.not_le.mp hsat
      have hlt' := UInt64.lt_iff_toNat_lt.mp hlt
      rw [if_neg hsat, (h.repr.grow hlt).2]
      exact Or.inl ⟨by omega, h.grow hlt, by omega⟩
  · have hne := mt h.repr.full_iff.mpr hfull
    rw [if_neg hfull]
    exact Or.inl ⟨by omega, h, by omega⟩

theorem Refines.push (h : rb.Refines d) (x : α) :
    (rb.push x).1 = (d.pushBack x).1 ∧ (rb.push x).2.Refines (d.pushBack x).2 := by
  by_cases hc : d.closed
  · rw [RingBuffer.push, Deque.pushBack, if_pos (h.closed_eq.trans hc), if_pos hc]
    exact ⟨rfl, h⟩
  rw [RingBuffer.push, if_neg (by rwa [h.closed_eq])]
  refine ⟨by rw [Deque.pushBack, if_neg hc], ?_⟩
  rcases h.makeRoom RingBuffer.dropOldest with ⟨hlt, hroom, hfree⟩ | ⟨hlen, hroom, hcap⟩
  · have hrepr := hroom.repr.writeTail hfree x
    rw [← d.items_pushBack_of_lt hc hlt] at hrepr
    exact ⟨hrepr, by rw [d.closed_pushBack]; exact hroom.closed_eq,
      by rw [d.bound_pushBack]; exact hroom.bound_eq⟩
  · obtain ⟨y, ys, hys⟩ : ∃ y ys, d.items = y :: ys :=
      List.exists_cons_of_ne_nil (List.ne_nil_of_length_pos (hlen ▸ d.bound_pos))
    have hrepr : (rb.dropOldest.writeTail x).Repr (ys ++ [x]) := by
      have hold := h.repr
      rw [hys] at hold hcap
      exact hold.dropOldest.writeTail ((Nat.lt_succ_self _).trans_eq hcap) x
    rw [show ys = d.items.tail from by rw [hys]; rfl,
      ← d.items_pushBack_of_eq hc hlen] at hrepr
    rw [hroom]
    exact ⟨hrepr, by rw [d.closed_pushBack]; exact h.closed_eq,
      by rw [d.bound_pushBack]; exact h.bound_eq⟩

theorem Refines.pushFront (h : rb.Refines d) (x : α) :
    (rb.pushFront x).1 = (d.pushFront x).1 ∧
      (rb.pushFront x).2.Refines (d.pushFront x).2 := by
  by_cases hc : d.closed
  · rw [RingBuffer.pushFront, Deque.pushFront, if_pos (h.closed_eq.trans hc), if_pos hc]
    exact ⟨rfl, h⟩
  rw [RingBuffer.pushFront, if_neg (by rwa [h.closed_eq])]
  refine ⟨by rw [Deque.pushFront, if_neg hc], ?_⟩
  rcases h.makeRoom RingBuffer.dropNewest with ⟨hlt, hroom, hfree⟩ | ⟨hlen, hroom, hcap⟩
  · have hrepr := hroom.repr.writeHead hfree x
    rw [← d.items_pushFront_of_lt hc hlt] at hrepr
    exact ⟨hrepr, by rw [d.closed_pushFront]; exact hroom.closed_eq,
      by rw [d.bound_pushFront]; exact hroom.bound_eq⟩
  · have hpos : 0 < d.items.length := hlen ▸ d.bound_pos
    have hrepr : (rb.dropNewest.writeHead x).Repr (x :: d.items.dropLast) := by
      have hold := h.repr
      have hsplit := List.dropLast_append_getLast (List.ne_nil_of_length_pos hpos)
      have hshort : d.items.dropLast.length < rb.dropNewest.capacity.toNat := by
        rw [List.length_dropLast]
        exact (Nat.sub_lt hpos one_pos).trans_eq hcap
      rw [← hsplit] at hold
      exact hold.dropNewest.writeHead hshort x
    rw [← d.items_pushFront_of_eq hc hlen] at hrepr
    rw [hroom]
    exact ⟨hrepr, by rw [d.closed_pushFront]; exact h.closed_eq,
      by rw [d.bound_pushFront]; exact h.bound_eq⟩

theorem Refines.takeHead (h : rb.Refines d) (hne : d.items ≠ []) :
    rb.takeHead.1 = d.popFront.1 ∧ rb.takeHead.2.Refines d.popFront.2 := by
  obtain ⟨y, ys, hys⟩ := List.exists_cons_of_ne_nil hne
  have hrepr := h.repr
  rw [hys] at hrepr
  obtain ⟨hget, hrest⟩ := hrepr.takeHead
  refine ⟨?_, ?_, h.closed_eq, h.bound_eq⟩
  · change rb.takeHead.1 = d.items.head?
    rw [hget, hys, List.head?_cons]
  · change rb.takeHead.2.Repr d.items.tail
    rw [hys]
    exact hrest

theorem Refines.pop (h : rb.Refines d) :
    rb.pop.1 = (d.popFront.1, d.popFront.1.isSome) ∧ rb.pop.2.Refines d.popFront.2 := by
  rw [RingBuffer.pop]
  by_cases hemp : d.items = []
  · rw [if_pos (h.repr.head_eq_tail_iff.mpr hemp)]
    refine ⟨by simp [Deque.popFront, hemp], ?_, h.closed_eq, h.bound_eq⟩
    have hrepr := h.repr
    change rb.Repr d.items.tail
    rw [hemp] at hrepr ⊢
    exact hrepr
  · rw [if_neg (mt h.repr.head_eq_tail_iff.mp hemp)]
    obtain ⟨hget, hrest⟩ := h.takeHead hemp
    refine ⟨?_, hrest⟩
    rw [hget]
    simp [Deque.popFront, List.head?_eq_some_head hemp]

theorem Refines.takeBatch : ∀ {n : ℕ} {rb : RingBuffer α} {d : Deque α}, rb.Refines d →
    n ≤ d.items.length →
      (rb.takeBatch n).1 = (d.popFronts n).1 ∧ (rb.takeBatch n).2.Refines (d.popFronts n).2 := by
  intro n
  induction n with
  | zero => intro rb d h _; exact ⟨rfl, h⟩
  | succ n ih =>
    intro rb d h hn
    have hne : d.items ≠ [] := by rintro he; simp [he] at hn
    obtain ⟨hget, hrest⟩ := h.takeHead hne
    have hlen : n ≤ d.popFront.2.items.length := by
      rw [Deque.popFront, List.length_tail]
      omega
    obtain ⟨hbatch, hend⟩ := ih hrest hlen
    refine ⟨?_, hend⟩
    rw [RingBuffer.takeBatch, Deque.popFronts]
    simp only [hget, hbatch]

theorem Refines.close (h : rb.Refines d) : rb.close.Refines d.close :=
  ⟨⟨⟨h.repr.pow, h.repr.mask_eq⟩, h.repr.size_eq, h.repr.length_le, h.repr.get⟩, rfl, h.bound_eq⟩

/-- A batch is the number of single pops asked for or available, whichever is smaller; in
particular its slice is never allocated with a negative length. -/
theorem Refines.popBatch (h : rb.Refines d) (max : ℤ) :
    ∃ rb', rb.popBatch max = some ((d.popFronts (min max d.items.length).toNat).1, rb') ∧
      rb'.Refines (d.popFronts (min max d.items.length).toNat).2 := by
  have havail : goInt (rb.tail - rb.head) = d.items.length := h.repr.len_eq
  rw [RingBuffer.popBatch]
  by_cases hmax : max ≤ 0
  · refine ⟨rb, ?_⟩
    rw [if_pos hmax, show (min max (d.items.length : ℤ)).toNat = 0 from by omega]
    exact ⟨rfl, h⟩
  simp only [if_neg hmax, havail]
  by_cases hz : (d.items.length : ℤ) = 0
  · refine ⟨rb, ?_⟩
    rw [if_pos hz, show (min max (d.items.length : ℤ)).toNat = 0 from by omega]
    exact ⟨rfl, h⟩
  have hcount : (if (d.items.length : ℤ) < max then (d.items.length : ℤ) else max)
      = min max d.items.length := by
    split <;> omega
  rw [if_neg hz, hcount, if_neg (show ¬min max (d.items.length : ℤ) < 0 by omega)]
  obtain ⟨hbatch, hend⟩ := h.takeBatch (n := (min max (d.items.length : ℤ)).toNat) (by omega)
  exact ⟨_, by rw [← hbatch], hend⟩

/-! ## Construction -/

/-- The loop only ever holds powers of two and stops at the first one that is large enough. Above
`2 ^ 63` there is none: the counter shifts out to zero and the loop never ends. -/
theorem roundUp_cases (cap : UInt64) : ∀ (fuel : ℕ) {k : ℕ}, k + fuel = 65 → k ≤ 63 →
    (1 ≤ k → 2 ^ (k - 1) < cap.toNat) →
      (2 ^ 63 < cap.toNat ∧ roundUp cap fuel (UInt64.ofNat (2 ^ k)) = none) ∨
      ∃ j ≤ 63, ∃ r, roundUp cap fuel (UInt64.ofNat (2 ^ k)) = some r ∧ r.toNat = 2 ^ j ∧
        cap.toNat ≤ 2 ^ j ∧ (1 ≤ j → 2 ^ (j - 1) < cap.toNat) := by
  intro fuel
  induction fuel with
  | zero => intro k hk hk63 _; omega
  | succ fuel ih =>
    intro k hk hk63 hsmall
    have hpow : (UInt64.ofNat (2 ^ k)).toNat = 2 ^ k := by
      rw [UInt64.toNat_ofNat']
      exact Nat.mod_eq_of_lt (Nat.pow_lt_pow_right (by omega) (by omega))
    have hshift : UInt64.ofNat (2 ^ k) <<< 1 = UInt64.ofNat (2 ^ (k + 1)) := by
      refine UInt64.toNat_inj.mp ?_
      rw [UInt64.toNat_shiftLeft, hpow, UInt64.toNat_ofNat', pow_succ, Nat.shiftLeft_eq]
      rfl
    have hcmp : UInt64.ofNat (2 ^ k) < cap ↔ 2 ^ k < cap.toNat := by
      rw [UInt64.lt_iff_toNat_lt, hpow]
    rw [roundUp, hshift]
    by_cases hlt : 2 ^ k < cap.toNat
    · rw [if_pos (hcmp.mpr hlt)]
      rcases Nat.lt_or_ge k 63 with hk' | hk'
      · exact ih (by omega) (by omega) fun _ ↦ hlt
      · obtain rfl : k = 63 := by omega
        obtain rfl : fuel = 1 := by omega
        refine Or.inl ⟨hlt, ?_⟩
        have hpos : UInt64.ofNat (2 ^ (63 + 1)) < cap := by
          rw [UInt64.lt_iff_toNat_lt]
          exact (Nat.two_pow_pos 63).trans hlt
        rw [roundUp, if_pos hpos, roundUp]
    · rw [if_neg (mt hcmp.mp hlt)]
      exact Or.inr ⟨k, hk63, _, rfl, hpow, Nat.le_of_not_lt hlt, hsmall⟩

/-- A buffer can be had for every request up to `2 ^ 62`. Beyond that `make` panics, and beyond
`2 ^ 63` the rounding loop does not even reach it. -/
theorem newRingBuffer_cases (cap : UInt64) :
    (2 ^ 62 < cap.toNat ∧ (newRingBuffer cap : Option (RingBuffer α)) = none) ∨
      ∃ rb : RingBuffer α, newRingBuffer cap = some rb ∧ rb.Repr [] ∧ rb.closed = false := by
  rcases roundUp_cases cap 65 (k := 0) rfl (by omega) (by omega) with
    ⟨hbig, hnone⟩ | ⟨j, hj, r, hr, hrpow, hle, hsmall⟩
  · refine Or.inl ⟨by omega, ?_⟩
    have hnone' : roundUp cap 65 1 = none := hnone
    rw [newRingBuffer, hnone', Option.bind_none]
  · have hr' : roundUp cap 65 1 = some r := hr
    rw [newRingBuffer, hr', Option.bind_some]
    rcases Nat.lt_or_ge 62 j with hj' | hj'
    · obtain rfl : j = 63 := by omega
      have hnot : ¬r < 1024 := by
        rw [UInt64.lt_iff_toNat_lt, hrpow]
        decide
      refine Or.inl ⟨hsmall (by omega), ?_⟩
      rw [if_neg hnot, if_pos hrpow.ge]
    · have hcap : ∃ k ≤ 62, (if r < 1024 then 1024 else r).toNat = 2 ^ k := by
        split
        · exact ⟨10, by omega, rfl⟩
        · exact ⟨j, hj', hrpow⟩
      obtain ⟨k, hk, hkcap⟩ := hcap
      have hlt : ¬2 ^ 63 ≤ (if r < 1024 then 1024 else r).toNat := by
        rw [hkcap, not_le]
        exact Nat.pow_lt_pow_right (by omega) (by omega)
      refine Or.inr ⟨_, if_neg hlt, ⟨⟨⟨k, hk, hkcap⟩, rfl⟩, by simp, Nat.zero_le _, ?_⟩, rfl⟩
      intro i hi
      exact absurd hi (Nat.not_lt_zero i)

theorem exists_refines_of_new {cap : UInt64} (h : newRingBuffer cap = some rb) :
    ∃ d : Deque α, rb.Refines d := by
  rcases newRingBuffer_cases (α := α) cap with ⟨-, hnone⟩ | ⟨rb', hnew, hrepr, hopen⟩
  · rw [hnone] at h
    exact absurd h (by simp)
  · rw [h, Option.some_inj] at hnew
    subst hnew
    exact ⟨Deque.empty _ (lt_max_of_lt_left hrepr.capacity_pos), hrepr, hopen, rfl⟩

/-! ## Whole runs -/

/-- One call on the buffer; `none` is a panic. -/
def step (rb : RingBuffer α) : Deque.Op α → Option (Deque.Answer α × RingBuffer α)
  | .pushBack msg => some (.accepted (rb.push msg).1, (rb.push msg).2)
  | .pushFront msg => some (.accepted (rb.pushFront msg).1, (rb.pushFront msg).2)
  | .popFront => some (.popped rb.pop.1.1 rb.pop.1.2, rb.pop.2)
  | .popBatch max => (rb.popBatch max).map fun r ↦ (.batch r.1, r.2)
  | .length => some (.length rb.len, rb)
  | .close => some (.done, rb.close)

def run (rb : RingBuffer α) : List (Deque.Op α) → Option (List (Deque.Answer α) × RingBuffer α)
  | [] => some ([], rb)
  | op :: ops =>
      (rb.step op).bind fun r ↦ (r.2.run ops).map fun rest ↦ (r.1 :: rest.1, rest.2)

theorem Refines.step (h : rb.Refines d) (op : Deque.Op α) :
    ∃ rb', rb.step op = some ((d.step op).1, rb') ∧ rb'.Refines (d.step op).2 := by
  cases op with
  | pushBack x =>
    obtain ⟨hok, hrest⟩ := h.push x
    exact ⟨_, by rw [RingBuffer.step, hok]; rfl, hrest⟩
  | pushFront x =>
    obtain ⟨hok, hrest⟩ := h.pushFront x
    exact ⟨_, by rw [RingBuffer.step, hok]; rfl, hrest⟩
  | popFront =>
    obtain ⟨hres, hrest⟩ := h.pop
    exact ⟨_, by rw [RingBuffer.step, hres]; rfl, hrest⟩
  | popBatch max =>
    obtain ⟨rb', hres, hrest⟩ := h.popBatch max
    exact ⟨rb', by rw [RingBuffer.step, hres]; rfl, hrest⟩
  | length => exact ⟨rb, by rw [RingBuffer.step, h.repr.len_eq]; rfl, h⟩
  | close => exact ⟨_, rfl, h.close⟩

theorem Refines.run : ∀ (ops : List (Deque.Op α)) {rb : RingBuffer α} {d : Deque α},
    rb.Refines d → ∃ rb', rb.run ops = some ((d.run ops).1, rb') ∧ rb'.Refines (d.run ops).2 := by
  intro ops
  induction ops with
  | nil => intro rb d h; exact ⟨rb, rfl, h⟩
  | cons op ops ih =>
    intro rb d h
    obtain ⟨rb₁, hstep, h₁⟩ := h.step op
    obtain ⟨rb₂, hrun, h₂⟩ := ih h₁
    refine ⟨rb₂, ?_, h₂⟩
    rw [RingBuffer.run, hstep, Option.bind_some, hrun, Option.map_some]
    rfl

/-- **The ring buffer is a bounded deque.** A buffer from `NewRingBuffer` answers every sequence of
calls as the abstract deque does and holds the same elements afterwards; no growth shows. The
deque's bound is the capacity of a ring that has stopped growing, so a push is lossy exactly when
the ring is full at `saturationCapacity` or more. -/
theorem newRingBuffer_refines_deque (cap : UInt64) :
    (2 ^ 62 < cap.toNat ∧ (newRingBuffer cap : Option (RingBuffer α)) = none) ∨
      ∃ (rb : RingBuffer α) (d : Deque α), newRingBuffer cap = some rb ∧
        d.items = [] ∧ d.closed = false ∧
        d.bound = max rb.capacity.toNat saturationCapacity.toNat ∧
        ∀ ops : List (Deque.Op α), ∃ rb' : RingBuffer α,
          rb.run ops = some ((d.run ops).1, rb') ∧
          (∃ k, rb'.capacity.toNat = 2 ^ k) ∧
          (rb'.tail - rb'.head).toNat ≤ rb'.capacity.toNat ∧
          rb'.window = (d.run ops).2.items.map some ∧
          rb'.closed = (d.run ops).2.closed ∧
          (saturationCapacity ≤ rb'.capacity → (d.run ops).2.bound = rb'.capacity.toNat) := by
  rcases newRingBuffer_cases (α := α) cap with hnone | ⟨rb, hnew, hrepr, hopen⟩
  · exact Or.inl hnone
  have hpos : 0 < max rb.capacity.toNat saturationCapacity.toNat :=
    lt_max_of_lt_left hrepr.capacity_pos
  refine Or.inr ⟨rb, Deque.empty _ hpos, hnew, rfl, rfl, rfl, fun ops ↦ ?_⟩
  have h : rb.Refines (Deque.empty _ hpos) := ⟨hrepr, hopen, rfl⟩
  obtain ⟨rb', hrun, h'⟩ := Refines.run ops h
  obtain ⟨k, -, hk⟩ := h'.repr.pow
  refine ⟨rb', hrun, ⟨k, hk⟩, ?_, h'.repr.window_eq, h'.closed_eq, fun hsat ↦ ?_⟩
  · rw [h'.repr.size_eq]
    exact h'.repr.length_le
  · rw [h'.bound_eq]
    exact max_eq_left (UInt64.le_iff_toNat_le.mp hsat)

end RingBuffer

/-! ## Valid rings

A ring together with the fact that it represents something. The rest of the development uses rings
only in this form, through `Ring.items`. -/

structure Ring (α : Type) where
  buf : RingBuffer α
  valid : ∃ d : Deque α, buf.Refines d

namespace Ring

variable {α : Type} (r : Ring α)

/-- The unconsumed elements, oldest first. -/
def items : List α := r.buf.window.reduceOption

def closed : Bool := r.buf.closed

def push (msg : α) : Bool × Ring α :=
  ((r.buf.push msg).1, ⟨(r.buf.push msg).2,
    let ⟨d, hd⟩ := r.valid; ⟨(d.pushBack msg).2, (hd.push msg).2⟩⟩)

def pushFront (msg : α) : Bool × Ring α :=
  ((r.buf.pushFront msg).1, ⟨(r.buf.pushFront msg).2,
    let ⟨d, hd⟩ := r.valid; ⟨(d.pushFront msg).2, (hd.pushFront msg).2⟩⟩)

/-- A pop that reports a message reports a real one, so the flag of the source is the constructor
of the option here. -/
def pop : Option α × Ring α :=
  (r.buf.pop.1.1, ⟨r.buf.pop.2, let ⟨d, hd⟩ := r.valid; ⟨d.popFront.2, hd.pop.2⟩⟩)

def close : Ring α :=
  ⟨r.buf.close, let ⟨d, hd⟩ := r.valid; ⟨d.close, hd.close⟩⟩

/-- `NewRingBuffer`, for the requests it serves. -/
def new (cap : UInt64) : Option (Ring α) :=
  match h : (RingBuffer.newRingBuffer cap : Option (RingBuffer α)) with
  | none => none
  | some rb => some ⟨rb, RingBuffer.exists_refines_of_new h⟩

variable {r}

theorem items_eq {d : Deque α} (h : r.buf.Refines d) : r.items = d.items := by
  rw [items, h.repr.window_eq, List.reduceOption, List.filterMap_map]
  exact List.filterMap_some

theorem new_eq {cap : UInt64} (h : new cap = some r) : r.items = [] ∧ r.closed = false := by
  unfold new at h
  split at h
  · exact absurd h (by simp)
  · rename_i rb hrb
    rw [Option.some_inj] at h
    subst h
    rcases RingBuffer.newRingBuffer_cases (α := α) cap with ⟨-, hnone⟩ | ⟨rb', hnew, hrepr, hopen⟩
    · rw [hnone] at hrb
      exact absurd hrb (by simp)
    · rw [hrb, Option.some_inj] at hnew
      subst hnew
      refine ⟨?_, hopen⟩
      rw [items, hrepr.window_eq]
      rfl

/-- Below saturation an open ring accepts every push and loses nothing. -/
theorem push_eq (msg : α) (hopen : r.closed = false)
    (hlen : r.items.length < saturationCapacity.toNat) :
    (r.push msg).1 = true ∧ (r.push msg).2.items = r.items ++ [msg] ∧
      (r.push msg).2.closed = false := by
  obtain ⟨d, hd⟩ := r.valid
  obtain ⟨hok, hrest⟩ := hd.push msg
  have hc : d.closed = false := hd.closed_eq.symm.trans hopen
  have hlt : d.items.length < d.bound := by
    rw [items_eq hd] at hlen
    exact hlen.trans_le (hd.bound_eq ▸ le_max_right _ _)
  refine ⟨?_, ?_, ?_⟩
  · rw [push, hok, Deque.pushBack, if_neg (by simp [hc])]
  · rw [items_eq hrest, items_eq hd, d.items_pushBack_of_lt (by simp [hc]) hlt]
  · exact hrest.closed_eq.trans (d.closed_pushBack.trans hc)

theorem pushFront_eq (msg : α) (hopen : r.closed = false)
    (hlen : r.items.length < saturationCapacity.toNat) :
    (r.pushFront msg).1 = true ∧ (r.pushFront msg).2.items = msg :: r.items ∧
      (r.pushFront msg).2.closed = false := by
  obtain ⟨d, hd⟩ := r.valid
  obtain ⟨hok, hrest⟩ := hd.pushFront msg
  have hc : d.closed = false := hd.closed_eq.symm.trans hopen
  have hlt : d.items.length < d.bound := by
    rw [items_eq hd] at hlen
    exact hlen.trans_le (hd.bound_eq ▸ le_max_right _ _)
  refine ⟨?_, ?_, ?_⟩
  · rw [pushFront, hok, Deque.pushFront, if_neg (by simp [hc])]
  · rw [items_eq hrest, items_eq hd, d.items_pushFront_of_lt (by simp [hc]) hlt]
  · exact hrest.closed_eq.trans (d.closed_pushFront.trans hc)

/-- A push is accepted unless the ring is closed, and closes nothing. -/
theorem closed_push (r : Ring α) (msg : α) :
    (r.push msg).1 = !r.closed ∧ (r.push msg).2.closed = r.closed := by
  obtain ⟨d, hd⟩ := r.valid
  obtain ⟨hok, hrest⟩ := hd.push msg
  have hclosed : r.closed = d.closed := hd.closed_eq
  refine ⟨?_, (hrest.closed_eq.trans d.closed_pushBack).trans hclosed.symm⟩
  rw [push, hok, hclosed]
  exact d.accepted_pushBack

theorem closed_pushFront (r : Ring α) (msg : α) :
    (r.pushFront msg).1 = !r.closed ∧ (r.pushFront msg).2.closed = r.closed := by
  obtain ⟨d, hd⟩ := r.valid
  obtain ⟨hok, hrest⟩ := hd.pushFront msg
  have hclosed : r.closed = d.closed := hd.closed_eq
  refine ⟨?_, (hrest.closed_eq.trans d.closed_pushFront).trans hclosed.symm⟩
  rw [pushFront, hok, hclosed]
  exact d.accepted_pushFront

theorem mem_items_push (msg : α) (hopen : r.closed = false) : msg ∈ (r.push msg).2.items := by
  obtain ⟨d, hd⟩ := r.valid
  have hc : d.closed = false := hd.closed_eq.symm.trans hopen
  rw [items_eq (hd.push msg).2, Deque.pushBack, if_neg (by simp [hc])]
  exact List.mem_append_right _ (List.mem_singleton.mpr rfl)

theorem mem_items_pushFront (msg : α) (hopen : r.closed = false) :
    msg ∈ (r.pushFront msg).2.items := by
  obtain ⟨d, hd⟩ := r.valid
  have hc : d.closed = false := hd.closed_eq.symm.trans hopen
  rw [items_eq (hd.pushFront msg).2, Deque.pushFront, if_neg (by simp [hc])]
  exact List.mem_cons_self

theorem mem_of_mem_push {m msg : α} (h : m ∈ (r.push msg).2.items) : m = msg ∨ m ∈ r.items := by
  obtain ⟨d, hd⟩ := r.valid
  rw [items_eq (hd.push msg).2] at h
  rw [items_eq hd]
  exact d.mem_of_mem_pushBack h

theorem mem_of_mem_pushFront {m msg : α} (h : m ∈ (r.pushFront msg).2.items) :
    m = msg ∨ m ∈ r.items := by
  obtain ⟨d, hd⟩ := r.valid
  rw [items_eq (hd.pushFront msg).2] at h
  rw [items_eq hd]
  exact d.mem_of_mem_pushFront h

theorem push_of_closed (msg : α) (h : r.closed = true) :
    r.push msg = (false, r) ∧ r.pushFront msg = (false, r) := by
  have hpush : r.buf.push msg = (false, r.buf) := if_pos h
  have hpushFront : r.buf.pushFront msg = (false, r.buf) := if_pos h
  simp only [push, pushFront, hpush, hpushFront, and_self]

theorem items_close (r : Ring α) : r.close.items = r.items := by
  obtain ⟨d, hd⟩ := r.valid
  exact (items_eq (r := r.close) hd.close).trans (items_eq hd).symm

theorem pop_eq (r : Ring α) :
    r.pop.1 = r.items.head? ∧ r.pop.2.items = r.items.tail ∧ r.pop.2.closed = r.closed := by
  obtain ⟨d, hd⟩ := r.valid
  obtain ⟨hres, hrest⟩ := hd.pop
  refine ⟨?_, ?_, ?_⟩
  · rw [pop, hres, items_eq hd]
    rfl
  · rw [items_eq hrest, items_eq hd]
    rfl
  · exact hrest.closed_eq.trans hd.closed_eq.symm

end Ring

end VortexMQ
