import Mathlib.Data.List.Nodup
import Mathlib.Tactic.Common
import VortexMQ.Basic.ListIndex

/-!
# Doubly linked lists in memory

A memory is a list of nodes, and the address of a node is its place in the list, so that an
allocation is an append. A node has a value and two pointers. Reading and writing through a pointer
can fail, with a nil pointer or with one that leads out of the memory.

## What a pointer leads to

`Segment h prev p xs` says that from the pointer `p` the `next` pointers lead through the nodes
`xs`, listed with their addresses, to nil, and that the `prev` pointers lead back, the first one to
`prev`. `LinkedLists h ps xss` says that several such lists have no node in common. A change to one
list leaves the others alone (`LinkedLists.set`): they are only read through nodes of their own.
-/

namespace VortexMQ

/-- Nil, or an address. -/
abbrev Pointer := Option ℕ

structure Node (ν : Type*) where
  val : ν
  next : Pointer
  prev : Pointer
  deriving DecidableEq

/-- The nodes in the order of their allocation. -/
abbrev Heap (ν : Type*) := List (Node ν)

/-- What can go wrong with a pointer. -/
inductive PointerFault where
  | null
  | dangling
  deriving DecidableEq

namespace Heap

variable {ν : Type*}

/-- Read through a pointer. -/
def load (h : Heap ν) : Pointer → Except PointerFault (Node ν)
  | none => .error .null
  | some a =>
      match h[a]? with
      | none => .error .dangling
      | some node => .ok node

/-- Write through a pointer. -/
def store (h : Heap ν) (f : Node ν → Node ν) : Pointer → Except PointerFault (Heap ν)
  | none => .error .null
  | some a => if a < h.length then .ok (h.modify a f) else .error .dangling

/-- Put a node before the node that `p` leads to, if any. -/
def linkFront (h : Heap ν) (a p : Pointer) : Except PointerFault (Heap ν) := do
  let h ← h.store (fun node ↦ { node with next := p }) a
  if p.isSome then h.store (fun node ↦ { node with prev := a }) p else return h

theorem load_eq {h : Heap ν} {a : ℕ} {node : Node ν} (hnode : h[a]? = some node) :
    h.load (some a) = .ok node := by
  rw [load, hnode]

theorem store_eq {h : Heap ν} {a : ℕ} (ha : a < h.length) (f : Node ν → Node ν) :
    h.store f (some a) = .ok (h.modify a f) := if_pos ha

end Heap

section Segment

variable {ν : Type*} {h h' : Heap ν} {prev p : Pointer} {xs : List (ℕ × ν)}

/-- The nodes from `p` on. -/
inductive Segment (h : Heap ν) : Pointer → Pointer → List (ℕ × ν) → Prop
  | nil {prev : Pointer} : Segment h prev none []
  | cons {prev next : Pointer} {a : ℕ} {v : ν} {xs : List (ℕ × ν)} :
      h[a]? = some ⟨v, next, prev⟩ → Segment h (some a) next xs →
        Segment h prev (some a) ((a, v) :: xs)

namespace Segment

/-- **A list is read only through its own nodes.** -/
theorem frame (hseg : Segment h prev p xs) : (∀ x ∈ xs, h'[x.1]? = h[x.1]?) →
    Segment h' prev p xs := by
  induction hseg with
  | nil => exact fun _ ↦ .nil
  | cons hnode _ ih =>
    intro hsame
    exact .cons ((hsame _ List.mem_cons_self).trans hnode)
      (ih fun x hx ↦ hsame x (List.mem_cons_of_mem _ hx))

theorem lt_length (hseg : Segment h prev p xs) : ∀ x ∈ xs, x.1 < h.length := by
  induction hseg with
  | nil => exact fun x hx ↦ absurd hx List.not_mem_nil
  | cons hnode _ ih =>
    intro x hx
    rcases List.mem_cons.mp hx with rfl | hx
    · exact (List.getElem?_eq_some_iff.mp hnode).1
    · exact ih x hx

theorem length_le (hseg : Segment h prev p xs) (hnodup : (xs.map Prod.fst).Nodup) :
    xs.length ≤ h.length := by
  have hsub : xs.map Prod.fst ⊆ List.range h.length := by
    intro a ha
    obtain ⟨x, hx, rfl⟩ := List.mem_map.mp ha
    exact List.mem_range.mpr (hseg.lt_length x hx)
  have hle := (hnodup.subperm hsub).length_le
  rwa [List.length_map, List.length_range] at hle

theorem setPrev (hseg : Segment h prev p xs) (hnodup : (xs.map Prod.fst).Nodup) {b : ℕ}
    (hp : p = some b) (prev' : Pointer) :
    Segment (h.modify b fun node ↦ { node with prev := prev' }) prev' p xs := by
  cases hseg with
  | nil => cases hp
  | @cons _ next a v xs hnode hrest =>
    obtain rfl := Option.some_inj.mp hp
    refine .cons ?_ (hrest.frame fun x hx ↦ ?_)
    · rw [List.getElem?_modify_eq, hnode]
      rfl
    · rw [List.getElem?_modify_ne]
      rintro rfl
      exact (List.nodup_cons.mp hnodup).1 (List.mem_map.mpr ⟨x, hx, rfl⟩)

end Segment

/-- **A node is put before a list.** -/
theorem Heap.linkFront_spec {a : ℕ} {v : ν} {n q : Pointer} (hseg : Segment h prev p xs)
    (hnodup : (xs.map Prod.fst).Nodup) (ha : a ∉ xs.map Prod.fst) (hnode : h[a]? = some ⟨v, n, q⟩) :
    ∃ h', h.linkFront (some a) p = .ok h' ∧ h'.length = h.length ∧ h'[a]? = some ⟨v, p, q⟩ ∧
      Segment h' (some a) p xs ∧ ∀ c ≠ a, c ∉ xs.map Prod.fst → h'[c]? = h[c]? := by
  have hlt : a < h.length := (List.getElem?_eq_some_iff.mp hnode).1
  set h₁ := h.modify a fun node ↦ { node with next := p } with hh₁
  have hseg₁ : Segment h₁ prev p xs := by
    refine hseg.frame fun x hx ↦ ?_
    rw [hh₁, List.getElem?_modify_ne]
    rintro rfl
    exact ha (List.mem_map_of_mem hx)
  have hnode₁ : h₁[a]? = some ⟨v, p, q⟩ := by
    rw [hh₁, List.getElem?_modify_eq, hnode]
    rfl
  have hsame₁ : ∀ c ≠ a, h₁[c]? = h[c]? := fun c hc ↦ by
    rw [hh₁, List.getElem?_modify_ne _ _ hc.symm]
  have hlength₁ : h₁.length = h.length := List.length_modify ..
  cases p with
  | none =>
    cases hseg₁
    refine ⟨h₁, ?_, hlength₁, hnode₁, .nil, fun c hc _ ↦ hsame₁ c hc⟩
    rw [linkFront, store_eq hlt]
    rfl
  | some b =>
    have hb : b ∈ xs.map Prod.fst := by
      cases hseg₁
      exact List.mem_cons_self
    have hblt : b < h₁.length := by
      obtain ⟨x, hx, rfl⟩ := List.mem_map.mp hb
      exact hseg₁.lt_length x hx
    refine ⟨h₁.modify b fun node ↦ { node with prev := some a }, ?_, ?_, ?_,
      hseg₁.setPrev hnodup rfl (some a), fun c hc hcxs ↦ ?_⟩
    · rw [linkFront, store_eq hlt]
      exact store_eq hblt _
    · rw [List.length_modify, hlength₁]
    · rw [List.getElem?_modify_ne, hnode₁]
      rintro rfl
      exact ha hb
    · rw [List.getElem?_modify_ne, hsame₁ c hc]
      rintro rfl
      exact hcxs hb

end Segment

/-! ## Several lists -/

section LinkedLists

variable {ν : Type*} {h h' : Heap ν} {ps : List Pointer} {xss : List (List (ℕ × ν))}

/-- The pointers lead to lists that have no node in common. -/
structure LinkedLists (h : Heap ν) (ps : List Pointer) (xss : List (List (ℕ × ν))) : Prop where
  length_eq : ps.length = xss.length
  segment : ∀ {i : ℕ} {p xs}, ps[i]? = some p → xss[i]? = some xs → Segment h none p xs
  nodup : ∀ {i : ℕ} {xs}, xss[i]? = some xs → (xs.map Prod.fst).Nodup
  apart : ∀ {i j : ℕ} {xs ys}, i ≠ j → xss[i]? = some xs → xss[j]? = some ys →
    ∀ x ∈ xs, ∀ y ∈ ys, x.1 ≠ y.1

theorem linkedLists_replicate (h : Heap ν) (n : ℕ) :
    LinkedLists h (List.replicate n none) (List.replicate n []) where
  length_eq := by rw [List.length_replicate, List.length_replicate]
  segment := by
    intro i p xs hp hxs
    rw [List.eq_of_mem_replicate (List.mem_of_getElem? hp),
      List.eq_of_mem_replicate (List.mem_of_getElem? hxs)]
    exact .nil
  nodup := by
    intro i xs hxs
    rw [List.eq_of_mem_replicate (List.mem_of_getElem? hxs)]
    exact List.nodup_nil
  apart := by
    intro i j xs ys _ hxs _ x hx
    rw [List.eq_of_mem_replicate (List.mem_of_getElem? hxs)] at hx
    exact absurd hx List.not_mem_nil

/-- **One list changes.** If the memory has changed only in its nodes and beyond the end, the other
lists are as before. -/
theorem LinkedLists.set {i : ℕ} {p : Pointer} {xs xs' : List (ℕ × ν)} (hl : LinkedLists h ps xss)
    (hi : xss[i]? = some xs) (hseg : Segment h' none p xs') (hnodup : (xs'.map Prod.fst).Nodup)
    (haddr : ∀ x ∈ xs', x.1 ∈ xs.map Prod.fst ∨ h.length ≤ x.1)
    (hsame : ∀ c < h.length, c ∉ xs.map Prod.fst → h'[c]? = h[c]?) :
    LinkedLists h' (ps.set i p) (xss.set i xs') := by
  have hlt : i < xss.length := (List.getElem?_eq_some_iff.mp hi).1
  have hlt' : i < ps.length := hl.length_eq ▸ hlt
  -- a node of another list is neither a node of this list nor a new one
  have hother : ∀ {j ys}, j ≠ i → xss[j]? = some ys →
      ∀ y ∈ ys, y.1 < h.length ∧ y.1 ∉ xs.map Prod.fst := by
    intro j ys hj hys y hy
    have hjlt : j < ps.length := hl.length_eq ▸ (List.getElem?_eq_some_iff.mp hys).1
    refine ⟨(hl.segment (List.getElem?_eq_getElem hjlt) hys).lt_length y hy, fun hmem ↦ ?_⟩
    obtain ⟨x, hx, heq⟩ := List.mem_map.mp hmem
    exact hl.apart hj hys hi y hy x hx heq.symm
  have hnew : ∀ {j ys}, j ≠ i → xss[j]? = some ys → ∀ x ∈ xs', ∀ y ∈ ys, x.1 ≠ y.1 := by
    intro j ys hj hys x hx y hy heq
    obtain ⟨hylt, hyxs⟩ := hother hj hys y hy
    rcases haddr x hx with hmem | hle
    · exact hyxs (heq ▸ hmem)
    · exact absurd (heq ▸ hle) hylt.not_ge
  constructor
  · rw [List.length_set, List.length_set, hl.length_eq]
  · intro j q ys hq hys
    by_cases hj : j = i
    · subst hj
      rw [List.getElem?_set_self hlt', Option.some_inj] at hq
      rw [List.getElem?_set_self hlt, Option.some_inj] at hys
      exact hq ▸ hys ▸ hseg
    · rw [List.getElem?_set_ne (Ne.symm hj)] at hq hys
      exact (hl.segment hq hys).frame fun y hy ↦
        hsame _ (hother hj hys y hy).1 (hother hj hys y hy).2
  · intro j ys hys
    by_cases hj : j = i
    · subst hj
      rw [List.getElem?_set_self hlt, Option.some_inj] at hys
      exact hys ▸ hnodup
    · rw [List.getElem?_set_ne (Ne.symm hj)] at hys
      exact hl.nodup hys
  · intro j k ys zs hjk hys hzs y hy z hz
    by_cases hj : j = i
    · subst hj
      rw [List.getElem?_set_self hlt, Option.some_inj] at hys
      rw [List.getElem?_set_ne hjk] at hzs
      exact hnew hjk.symm hzs y (hys ▸ hy) z hz
    · rw [List.getElem?_set_ne (Ne.symm hj)] at hys
      by_cases hk : k = i
      · subst hk
        rw [List.getElem?_set_self hlt, Option.some_inj] at hzs
        exact (hnew hj hys z (hzs ▸ hz) y hy).symm
      · rw [List.getElem?_set_ne (Ne.symm hk)] at hzs
        exact hl.apart hjk hys hzs y hy z hz

end LinkedLists

end VortexMQ
