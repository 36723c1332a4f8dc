import VortexMQ.Basic.LinkedList
import VortexMQ.Queue.TimingWheel

/-!
# The timing wheel as it is in memory

`TimingWheel` has a list of entries in each bucket. The source has a pointer to a `timerEntry` with
a `next` and a `prev` of its own, and moves entries about by assigning to these pointers, also while
it walks along them: `advance` turns the bucket over and drops what is due in one pass. This module
is the wheel on that level.

## What can go wrong here

A nil pointer could be followed, and the loop of `advance` could come back to an entry it has seen
and never end. That neither happens is `calls_eq`: whatever is called, every call returns, with the
messages of the wheel of lists, and leaves the pointers as that wheel has its buckets. Each bucket
is then a list that ends in nil, with `prev` leading back, and no entry is in two buckets.

The loop has fuel for as many entries as were ever allocated. To run out of it is a fault like the
others.
-/

namespace VortexMQ

structure LinkedWheel (α : Type) where
  interval : ℤ
  slots : ℕ
  /-- The heads of the buckets. -/
  buckets : List Pointer
  currentSlot : ℕ
  closed : Bool
  heap : Heap (TimerEntry α)

namespace LinkedWheel

variable {α : Type}

inductive Fault where
  | pointer (e : PointerFault)
  | index
  | division
  /-- A loop has not come to its end. -/
  | unfinished

def deref {β : Type} (x : Except PointerFault β) : Except Fault β := x.mapError .pointer

/-- `NewTimingWheel`, with its defaults. -/
def newTimingWheel (interval : ℤ) (slots : ℤ) : LinkedWheel α where
  interval := if interval ≤ 0 then 50 * millisecond else interval
  slots := if slots ≤ 0 then 3600 else slots.toNat
  buckets := List.replicate (if slots ≤ 0 then 3600 else slots.toNat) none
  currentSlot := 0
  closed := false
  heap := []

/-- The number of ticks `Add` waits. -/
def ticks (tw : LinkedWheel α) (delay : ℤ) : ℕ :=
  let t := (delay.tdiv tw.interval).toNat
  if t = 0 then 1 else t

/-- The slot `Add` inserts into. -/
def targetSlot (tw : LinkedWheel α) (delay : ℤ) : ℕ :=
  (tw.currentSlot + tw.ticks delay % tw.slots) % tw.slots

/-- `Add` behind its checks: a new entry goes to the front of a bucket. -/
def insert (tw : LinkedWheel α) (msg : α) (delay : ℤ) : Except Fault (LinkedWheel α) := do
  if tw.interval = 0 ∨ tw.slots = 0 then throw .division
  let some head := tw.buckets[tw.targetSlot delay]? | throw .index
  let entry := some tw.heap.length
  let heap := tw.heap ++ [⟨⟨msg, (tw.ticks delay / tw.slots : ℕ)⟩, none, none⟩]
  let heap ← deref (heap.linkFront entry head)
  return { tw with heap := heap, buckets := tw.buckets.set (tw.targetSlot delay) entry }

def add (tw : LinkedWheel α) (msg : α) (delay : ℤ) : Except Fault (Option α × LinkedWheel α) :=
  if delay ≤ 0 then return (some msg, tw)
  else if tw.closed then return (none, tw)
  else return (none, ← tw.insert msg delay)

/-- An entry of the loop of `advance` that is not due stays in the bucket, at the front. -/
def retain (heap : Heap (TimerEntry α)) (entry remainingHead : Pointer) :
    Except Fault (Heap (TimerEntry α)) := do
  let heap ← deref (heap.store (fun node ↦
    { node with val := { node.val with rounds := node.val.rounds - 1 } }) entry)
  let heap ← deref (heap.linkFront entry remainingHead)
  deref (heap.store (fun node ↦ { node with prev := none }) entry)

/-- The loop of `advance`: what is due is collected, and the rest is put to the front of a new list,
whose head is `remainingHead`. -/
def advanceLoop : ℕ → Heap (TimerEntry α) → Pointer → List α → Pointer →
    Except Fault (Heap (TimerEntry α) × List α × Pointer)
  | 0, _, _, _, _ => throw .unfinished
  | fuel + 1, heap, entry, expired, remainingHead =>
      if entry.isNone then return (heap, expired, remainingHead)
      else do
        let node ← deref (heap.load entry)
        if node.val.rounds ≤ 0 then
          advanceLoop fuel heap node.next (expired ++ [node.val.msg]) remainingHead
        else
          let heap ← retain heap entry remainingHead
          advanceLoop fuel heap node.next expired entry

/-- The locked part of `advance`. -/
def advance (tw : LinkedWheel α) : Except Fault (List α × LinkedWheel α) := do
  if tw.slots = 0 then throw .division
  let slot := tw.currentSlot
  let some entry := tw.buckets[slot]? | throw .index
  let (heap, expired, remainingHead) ← advanceLoop (tw.heap.length + 1) tw.heap entry [] none
  return (expired, { tw with
    currentSlot := (tw.currentSlot + 1) % tw.slots
    buckets := tw.buckets.set slot remainingHead
    heap := heap })

def stop (tw : LinkedWheel α) : LinkedWheel α := { tw with closed := true }

/-! ## The loop -/

@[simp] theorem deref_ok {β : Type} (b : β) : deref (.ok b) = .ok b := rfl

@[simp] theorem ok_bind {β γ : Type} (b : β) (f : β → Except Fault γ) :
    ((.ok b : Except Fault β) >>= f) = f b := rfl

/-- One entry that stays: its rounds are counted down and it goes to the front of the new list. -/
theorem retain_spec {heap : Heap (TimerEntry α)} {a : ℕ} {v : TimerEntry α} {n q p : Pointer}
    {kept : List (ℕ × TimerEntry α)} (hnode : heap[a]? = some ⟨v, n, q⟩)
    (hkept : Segment heap none p kept) (hnodup : (kept.map Prod.fst).Nodup)
    (ha : a ∉ kept.map Prod.fst) :
    ∃ heap', retain heap (some a) p = .ok heap' ∧
      Segment heap' none (some a) ((a, { v with rounds := v.rounds - 1 }) :: kept) ∧
      ∀ c ≠ a, c ∉ kept.map Prod.fst → heap'[c]? = heap[c]? := by
  have hlt : a < heap.length := (List.getElem?_eq_some_iff.mp hnode).1
  set heap₁ := heap.modify a fun node ↦
    { node with val := { node.val with rounds := node.val.rounds - 1 } } with hheap₁
  have hnode₁ : heap₁[a]? = some ⟨{ v with rounds := v.rounds - 1 }, n, q⟩ := by
    rw [hheap₁, List.getElem?_modify_eq, hnode]
    rfl
  have hkept₁ : Segment heap₁ none p kept := by
    refine hkept.frame fun x hx ↦ ?_
    rw [hheap₁, List.getElem?_modify_ne]
    rintro rfl
    exact ha (List.mem_map_of_mem hx)
  obtain ⟨heap₂, hlink, -, hnode₂, hkept₂, hsame₂⟩ :=
    Heap.linkFront_spec hkept₁ hnodup ha hnode₁
  have hlt₂ : a < heap₂.length := (List.getElem?_eq_some_iff.mp hnode₂).1
  refine ⟨heap₂.modify a fun node ↦ { node with prev := none }, ?_, ?_, ?_⟩
  · rw [retain, Heap.store_eq hlt, deref_ok, ok_bind, hlink, deref_ok, ok_bind, Heap.store_eq hlt₂,
      deref_ok]
  · refine .cons ?_ (hkept₂.frame fun x hx ↦ ?_)
    · rw [List.getElem?_modify_eq, hnode₂]
      rfl
    · rw [List.getElem?_modify_ne]
      rintro rfl
      exact ha (List.mem_map_of_mem hx)
  · intro c hc hckept
    rw [List.getElem?_modify_ne _ _ hc.symm, hsame₂ c hc hckept, hheap₁,
      List.getElem?_modify_ne _ _ hc.symm]

private theorem advanceLoop_cons {fuel a : ℕ} {heap : Heap (TimerEntry α)} {v : TimerEntry α}
    {n q remainingHead : Pointer} (expired : List α) (hnode : heap[a]? = some ⟨v, n, q⟩) :
    advanceLoop (fuel + 1) heap (some a) expired remainingHead =
      if v.rounds ≤ 0 then advanceLoop fuel heap n (expired ++ [v.msg]) remainingHead
      else retain heap (some a) remainingHead >>= fun heap ↦
        advanceLoop fuel heap n expired (some a) := by
  rw [advanceLoop, if_neg (by exact Bool.false_ne_true), Heap.load_eq hnode, deref_ok, ok_bind]

/-- **The loop ends**, and does to the pointers what `expireLoop` does to lists. -/
theorem advanceLoop_spec : ∀ {xs : List (ℕ × TimerEntry α)} {fuel : ℕ}
    {heap : Heap (TimerEntry α)} {prev entry remainingHead : Pointer} (expired : List α)
    {kept : List (ℕ × TimerEntry α)}, Segment heap prev entry xs →
    Segment heap none remainingHead kept → ((xs ++ kept).map Prod.fst).Nodup → xs.length < fuel →
    ∃ heap' head' kept',
      advanceLoop fuel heap entry expired remainingHead =
        .ok (heap', (TimingWheel.expireLoop (xs.map Prod.snd) expired (kept.map Prod.snd)).1,
          head') ∧
      Segment heap' none head' kept' ∧
      kept'.map Prod.snd =
        (TimingWheel.expireLoop (xs.map Prod.snd) expired (kept.map Prod.snd)).2 ∧
      (kept'.map Prod.fst).Nodup ∧ (∀ x ∈ kept', x.1 ∈ (xs ++ kept).map Prod.fst) ∧
      ∀ c ∉ (xs ++ kept).map Prod.fst, heap'[c]? = heap[c]? := by
  intro xs
  -- along the nodes that are still ahead; the nodes kept so far are a list of their own
  induction xs with
  | nil =>
    intro fuel heap prev entry remainingHead expired kept hseg hkept hnodup hfuel
    obtain ⟨fuel, rfl⟩ := Nat.exists_eq_add_one.mpr hfuel
    cases hseg
    exact ⟨heap, remainingHead, kept, rfl, hkept, rfl, hnodup,
      fun x hx ↦ List.mem_map_of_mem hx, fun _ _ ↦ rfl⟩
  | cons x xs ih =>
    intro fuel heap prev entry remainingHead expired kept hseg hkept hnodup hfuel
    obtain ⟨fuel, rfl⟩ := Nat.exists_eq_add_one.mpr (Nat.zero_lt_of_lt hfuel)
    have hfuel' : xs.length < fuel := Nat.lt_of_succ_lt_succ hfuel
    cases hseg with
    | @cons _ next a v _ hnode hrest =>
      rw [List.cons_append, List.map_cons, List.nodup_cons] at hnodup
      rw [List.map_cons, TimingWheel.expireLoop, advanceLoop_cons expired hnode]
      by_cases hdue : v.rounds ≤ 0
      · obtain ⟨heap', head', kept', hloop, hseg', hvals, hnodup', haddr, hsame⟩ :=
          ih (expired ++ [v.msg]) hrest hkept hnodup.2 hfuel'
        rw [if_pos hdue, if_pos hdue]
        exact ⟨heap', head', kept', hloop, hseg', hvals, hnodup',
          fun y hy ↦ List.mem_cons_of_mem _ (haddr y hy),
          fun c hc ↦ hsame c (List.not_mem_of_not_mem_cons hc)⟩
      · rw [List.map_append, List.mem_append, not_or] at hnodup
        obtain ⟨⟨haxs, hakept⟩, hnodup⟩ := hnodup
        obtain ⟨heap₁, hretain, hseg₁, hsame₁⟩ :=
          retain_spec hnode hkept hnodup.of_append_right hakept
        have hrest₁ : Segment heap₁ (some a) next xs := by
          refine hrest.frame fun y hy ↦ hsame₁ y.1 ?_ fun hmem ↦ ?_
          · rintro rfl
            exact haxs (List.mem_map.mpr ⟨y, hy, rfl⟩)
          · exact List.disjoint_of_nodup_append hnodup (List.mem_map_of_mem hy) hmem
        have hperm : ((xs ++ (a, { v with rounds := v.rounds - 1 }) :: kept).map Prod.fst).Perm
            (a :: (xs ++ kept).map Prod.fst) := List.perm_middle.map Prod.fst
        have hnodup₁ := hperm.nodup_iff.mpr
          (List.nodup_cons.mpr ⟨by simp [haxs, hakept], List.map_append ▸ hnodup⟩)
        obtain ⟨heap', head', kept', hloop, hseg', hvals, hnodup', haddr, hsame⟩ :=
          ih expired hrest₁ hseg₁ hnodup₁ hfuel'
        rw [if_neg hdue, if_neg hdue, hretain, ok_bind]
        refine ⟨heap', head', kept', hloop, hseg', hvals, hnodup',
          fun y hy ↦ hperm.mem_iff.mp (haddr y hy), fun c hc ↦ ?_⟩
        have hc' := List.ne_and_not_mem_of_not_mem_cons hc
        rw [hsame c fun hmem ↦ hc (hperm.mem_iff.mp hmem)]
        exact hsame₁ c hc'.1 fun hmem ↦
          hc'.2 (List.map_subset Prod.fst (List.subset_append_right xs kept) hmem)

/-! ## The two wheels -/

/-- The wheel of pointers is the wheel of lists in memory. -/
structure Represents (tw : LinkedWheel α) (lists : TimingWheel α) : Prop where
  interval_eq : tw.interval = lists.interval
  slots_eq : tw.slots = lists.slots
  currentSlot_eq : tw.currentSlot = lists.currentSlot
  closed_eq : tw.closed = lists.closed
  linked : ∃ xss, LinkedLists tw.heap tw.buckets xss ∧
    xss.map (List.map Prod.snd) = lists.buckets

private theorem represents_newTimingWheel (interval slots : ℤ) :
    (newTimingWheel interval slots : LinkedWheel α).Represents
      (TimingWheel.newTimingWheel interval slots) where
  interval_eq := rfl
  slots_eq := rfl
  currentSlot_eq := rfl
  closed_eq := rfl
  linked := ⟨_, linkedLists_replicate [] _, List.map_replicate⟩

namespace Represents

variable {tw : LinkedWheel α} {lists : TimingWheel α}

theorem exists_bucket (h : tw.Represents lists) {slot : ℕ} (hslot : slot < lists.slots) :
    ∃ xss head xs, LinkedLists tw.heap tw.buckets xss ∧
      xss.map (List.map Prod.snd) = lists.buckets ∧ tw.buckets[slot]? = some head ∧
      xss[slot]? = some xs ∧ xs.map Prod.snd = lists.bucket slot := by
  obtain ⟨xss, hlinked, hvals⟩ := h.linked
  have hlt : slot < xss.length := by
    rw [← lists.length_buckets, ← hvals, List.length_map] at hslot
    exact hslot
  refine ⟨xss, _, _, hlinked, hvals, List.getElem?_eq_getElem (hlinked.length_eq ▸ hlt),
    List.getElem?_eq_getElem hlt, ?_⟩
  rw [TimingWheel.bucket, ← hvals, List.getElem?_map, List.getElem?_eq_getElem hlt]
  rfl

private theorem insert (h : tw.Represents lists) (msg : α) (delay : ℤ) :
    ∃ tw', tw.insert msg delay = .ok tw' ∧ tw'.Represents (lists.insert msg delay) := by
  obtain ⟨xss, head, xs, hlinked, hvals, hhead, hxs, hbucket⟩ :=
    h.exists_bucket (lists.targetSlot_lt delay)
  obtain ⟨interval, slots, buckets, currentSlot, closed, heap⟩ := tw
  obtain ⟨rfl, rfl, rfl, rfl, -⟩ := h
  have hseg := hlinked.segment hhead hxs
  have hnodup := hlinked.nodup hxs
  have hnew : heap.length ∉ xs.map Prod.fst := fun hmem ↦ by
    obtain ⟨x, hx, heq⟩ := List.mem_map.mp hmem
    exact (hseg.lt_length x hx).ne heq
  set node : Node (TimerEntry α) := ⟨⟨msg, (lists.ticks delay / lists.slots : ℕ)⟩, none, none⟩
    with hnode
  have hseg₁ : Segment (heap ++ [node]) none head xs := hseg.frame fun x hx ↦
    List.getElem?_append_left (hseg.lt_length x hx)
  obtain ⟨heap', hlink, -, hentry, hseg', hsame⟩ :=
    Heap.linkFront_spec hseg₁ hnodup hnew List.getElem?_concat_length
  have hdivision : ¬(lists.interval = 0 ∨ lists.slots = 0) :=
    not_or.mpr ⟨lists.interval_pos.ne', (Nat.zero_lt_of_lt lists.currentSlot_lt).ne'⟩
  refine ⟨⟨lists.interval, lists.slots, buckets.set (lists.targetSlot delay) (some heap.length),
    lists.currentSlot, lists.closed, heap'⟩, ?_, rfl, rfl, rfl, rfl, _,
    hlinked.set hxs (.cons hentry hseg') ?_ ?_ ?_, ?_⟩
  · have hhead' : buckets[LinkedWheel.targetSlot ⟨lists.interval, lists.slots, buckets,
        lists.currentSlot, lists.closed, heap⟩ delay]? = some head := hhead
    simp only [LinkedWheel.insert, if_neg hdivision, hhead']
    change (deref ((heap ++ [node]).linkFront (some heap.length) head) >>= _) = _
    rw [hlink]
    rfl
  · exact List.nodup_cons.mpr ⟨hnew, hnodup⟩
  · intro x hx
    rcases List.mem_cons.mp hx with rfl | hx
    · exact .inr le_rfl
    · exact .inl (List.mem_map_of_mem hx)
  · intro c hc hcxs
    rw [hsame c hc.ne hcxs, List.getElem?_append_left hc]
  · rw [List.map_set, hvals, List.map_cons, hbucket]
    rfl

private theorem advance (h : tw.Represents lists) :
    ∃ tw', tw.advance = .ok (lists.advance.1, tw') ∧ tw'.Represents lists.advance.2 := by
  obtain ⟨xss, head, xs, hlinked, hvals, hhead, hxs, hbucket⟩ :=
    h.exists_bucket lists.currentSlot_lt
  obtain ⟨interval, slots, buckets, currentSlot, closed, heap⟩ := tw
  obtain ⟨rfl, rfl, rfl, rfl, -⟩ := h
  have hseg := hlinked.segment hhead hxs
  have hnodup := hlinked.nodup hxs
  have hfuel : xs.length < heap.length + 1 := Nat.lt_succ_of_le (hseg.length_le hnodup)
  obtain ⟨heap', head', kept', hloop, hseg', hvals', hnodup', haddr, hsame⟩ :=
    advanceLoop_spec [] hseg .nil (by rwa [List.append_nil]) hfuel
  rw [List.append_nil] at haddr hsame
  rw [hbucket] at hloop hvals'
  refine ⟨⟨lists.interval, lists.slots, buckets.set lists.currentSlot head',
    (lists.currentSlot + 1) % lists.slots, lists.closed, heap'⟩, ?_, rfl, rfl, rfl, rfl, _,
    hlinked.set hxs hseg' hnodup' (fun x hx ↦ .inl (haddr x hx)) (fun c _ hc ↦ hsame c hc), ?_⟩
  · simp only [LinkedWheel.advance, if_neg (Nat.zero_lt_of_lt lists.currentSlot_lt).ne', hhead,
      hloop]
    rfl
  · rw [List.map_set, hvals, hvals']
    rfl

private theorem add (h : tw.Represents lists) (msg : α) (delay : ℤ) :
    ∃ tw', tw.add msg delay = .ok ((lists.add msg delay).1, tw') ∧
      tw'.Represents (lists.add msg delay).2 := by
  rw [LinkedWheel.add, TimingWheel.add, h.closed_eq]
  split
  · exact ⟨tw, rfl, h⟩
  · split
    · exact ⟨tw, rfl, h⟩
    · obtain ⟨tw', hinsert, h'⟩ := h.insert msg delay
      exact ⟨tw', by rw [hinsert]; rfl, h'⟩

private theorem stop (h : tw.Represents lists) : tw.stop.Represents lists.stop :=
  ⟨h.interval_eq, h.slots_eq, h.currentSlot_eq, rfl, h.linked⟩

end Represents

/-! ## Calls -/

end LinkedWheel

/-- The calls of a wheel. -/
inductive WheelCall (α : Type) where
  | add (msg : α) (delay : ℤ)
  | advance
  | stop

variable {α : Type}

/-- The messages that a call passes to `onExpire`, and the wheel after it. -/
def TimingWheel.call (tw : TimingWheel α) : WheelCall α → List α × TimingWheel α
  | .add msg delay => ((tw.add msg delay).1.toList, (tw.add msg delay).2)
  | .advance => tw.advance
  | .stop => ([], tw.stop)

/-- Call after call. -/
def TimingWheel.calls : TimingWheel α → List (WheelCall α) → List (List α) × TimingWheel α
  | tw, [] => ([], tw)
  | tw, call :: calls =>
      ((tw.call call).1 :: ((tw.call call).2.calls calls).1, ((tw.call call).2.calls calls).2)

namespace LinkedWheel

def call (tw : LinkedWheel α) : WheelCall α → Except Fault (List α × LinkedWheel α)
  | .add msg delay => do
      let (msg, tw) ← tw.add msg delay
      return (msg.toList, tw)
  | .advance => tw.advance
  | .stop => return ([], tw.stop)

def calls : LinkedWheel α → List (WheelCall α) → Except Fault (List (List α) × LinkedWheel α)
  | tw, [] => return ([], tw)
  | tw, call :: calls => do
      let (msgs, tw) ← tw.call call
      let (msgss, tw) ← tw.calls calls
      return (msgs :: msgss, tw)

namespace Represents

variable {tw : LinkedWheel α} {lists : TimingWheel α}

/-- **One call.** -/
theorem call (h : tw.Represents lists) (call : WheelCall α) :
    ∃ tw', tw.call call = .ok ((lists.call call).1, tw') ∧
      tw'.Represents (lists.call call).2 := by
  cases call with
  | add msg delay =>
    obtain ⟨tw', hadd, h'⟩ := h.add msg delay
    exact ⟨tw', by rw [LinkedWheel.call, hadd]; rfl, h'⟩
  | advance => exact h.advance
  | stop => exact ⟨tw.stop, rfl, h.stop⟩

/-- **Call after call.** -/
theorem calls : ∀ {calls : List (WheelCall α)} {tw : LinkedWheel α} {lists : TimingWheel α},
    tw.Represents lists → ∃ tw', tw.calls calls = .ok ((lists.calls calls).1, tw') ∧
      tw'.Represents (lists.calls calls).2 := by
  intro calls
  induction calls with
  | nil => exact fun {tw _} h ↦ ⟨tw, rfl, h⟩
  | cons call calls ih =>
    intro tw lists h
    obtain ⟨tw₁, hcall, h₁⟩ := h.call call
    obtain ⟨tw₂, hcalls, h₂⟩ := ih h₁
    refine ⟨tw₂, ?_, h₂⟩
    simp only [LinkedWheel.calls, hcall, ok_bind, hcalls]
    rfl

end Represents

/-- **The wheel of pointers is the wheel of lists.** Whatever is called on a new wheel, in whatever
order, all calls return without following a bad pointer and without looping, each with the messages
that the wheel of lists has for it. Afterwards the pointers of every bucket lead along its entries
to nil and back, and no entry is in two buckets. -/
theorem calls_eq (interval slots : ℤ) (calls : List (WheelCall α)) :
    ∃ tw, (newTimingWheel interval slots).calls calls =
        .ok (((TimingWheel.newTimingWheel interval slots).calls calls).1, tw) ∧
      tw.Represents ((TimingWheel.newTimingWheel interval slots).calls calls).2 :=
  (represents_newTimingWheel interval slots).calls

end LinkedWheel

end VortexMQ
