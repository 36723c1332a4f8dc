import VortexMQ.Basic.ListIndex
import VortexMQ.Queue.Conservation

/-!
# Exactly one place

The conservation law of `VortexMQ.Queue.Conservation` weighs the whole system. Here the total is
laid out place by place: the ring, each bucket of the wheel, the pending list of each group, the
dead letter queue, the hands of each operation in progress, and the four ways of leaving. A total
without repetitions means that the places are pairwise disjoint and that no place holds a message
twice.
-/

namespace VortexMQ

/-- Where a message can be. -/
inductive Place where
  | ring
  | bucket (slot : ℕ)
  | pel (groupName : Bytes)
  | dlq
  /-- In the hands of the `i`-th operation in progress. -/
  | hands (i : ℕ)
  | consumed
  | acked
  | removed
  | purged
  deriving DecidableEq

/-- The places a message never leaves. -/
def Place.IsTerminal : Place → Prop
  | .consumed | .acked | .removed | .purged => True
  | _ => False

namespace TopicState

/-- Identifiers of the messages at a place. -/
def idsAt (s : TopicState) : Place → List Bytes
  | .ring => s.topic.ring.items.map Message.id
  | .bucket slot => (s.topic.tw.bucket slot).map fun e ↦ e.msg.id
  | .pel groupName => ((s.topic.groups.lookup groupName).map ConsumerGroup.pending).getD []
  | .dlq => s.topic.dlq.ids
  | .hands i => ((s.tasks[i]?).map Task.heldIds).getD []
  | .consumed => s.ledger.consumed
  | .acked => s.ledger.acked
  | .removed => s.ledger.removed
  | .purged => s.ledger.purged

def places (s : TopicState) : List Place :=
  .ring :: ((List.range s.topic.tw.slots).map .bucket ++ (s.topic.groups.keys.map .pel ++
    (.dlq :: .consumed :: .acked :: .removed :: .purged ::
      (List.range s.tasks.length).map .hands)))

/-! ## The layout covers everything -/

variable {s s' : TopicState}

private theorem flatMap_hands :
    (((List.range s.tasks.length).map Place.hands).flatMap s.idsAt : Multiset Bytes)
      = handIds s.tasks := by
  rw [List.flatMap_map, handIds, ← flatMap_range_getElem? Task.heldIds]
  rfl

private theorem flatMap_bucket :
    (((List.range s.topic.tw.slots).map Place.bucket).flatMap s.idsAt : Multiset Bytes)
      = s.topic.wheelIds := by
  have hread := flatMap_range_getElem? (fun b : List (TimerEntry Message) ↦ b.map fun e ↦ e.msg.id)
    s.topic.tw.buckets
  have hbucket : ∀ slot, s.idsAt (.bucket slot)
      = ((s.topic.tw.buckets[slot]?).map fun b ↦ b.map fun e ↦ e.msg.id).getD [] := by
    intro slot
    rw [idsAt, TimingWheel.bucket]
    cases s.topic.tw.buckets[slot]? with
    | none => rfl
    | some b => rfl
  rw [s.topic.tw.length_buckets] at hread
  rw [List.flatMap_map, List.flatMap_congr fun slot _ ↦ hbucket slot, hread, Topic.wheelIds,
    TimingWheel.messages, List.map_map, List.map_flatten]
  rfl

private theorem flatMap_pel :
    ((s.topic.groups.keys.map Place.pel).flatMap s.idsAt : Multiset Bytes) = s.topic.pelIds := by
  have hlookup : ∀ e ∈ s.topic.groups.entries, s.idsAt (.pel e.1) = e.2.pending := by
    intro e he
    have hl : s.topic.groups.lookup e.1 = some e.2 := AList.mem_lookup_iff.mpr he
    rw [idsAt, hl]
    rfl
  rw [List.flatMap_map, Topic.pelIds, AList.keys, List.keys, List.flatMap_map,
    List.flatMap_congr hlookup]

private theorem holdings_eq :
    (s.places.flatMap s.idsAt : Multiset Bytes)
      = s.topic.ids + ↑s.ledger.terminal + handIds s.tasks := by
  have hsplit : (s.places.flatMap s.idsAt : Multiset Bytes)
      = s.topic.ringIds + (s.topic.wheelIds + (s.topic.pelIds + (s.topic.dlqIds +
        (↑s.ledger.consumed + (↑s.ledger.acked + (↑s.ledger.removed + (↑s.ledger.purged +
          handIds s.tasks))))))) := by
    rw [← flatMap_hands, ← flatMap_bucket, ← flatMap_pel]
    simp only [places, List.flatMap_cons, List.flatMap_append, ← Multiset.coe_add]
    rfl
  rw [hsplit, Topic.ids, Ledger.terminal, ← Multiset.coe_add, ← Multiset.coe_add,
    ← Multiset.coe_add]
  abel

private theorem mem_places {id : Bytes} {p : Place} (h : id ∈ s.idsAt p) : p ∈ s.places := by
  cases p with
  | bucket slot =>
    have hslot : slot < s.topic.tw.slots := by
      by_contra hge
      have hnone : s.topic.tw.buckets[slot]? = none := by
        rw [List.getElem?_eq_none_iff, s.topic.tw.length_buckets]
        exact not_lt.mp hge
      rw [idsAt, TimingWheel.bucket, hnone] at h
      exact List.not_mem_nil h
    simp [places, hslot]
  | pel groupName =>
    have hmem : groupName ∈ s.topic.groups := by
      by_contra hnot
      rw [idsAt, AList.lookup_eq_none.mpr hnot] at h
      exact List.not_mem_nil h
    simp [places, AList.mem_keys.mp hmem]
  | hands i =>
    have hi : i < s.tasks.length := by
      by_contra hge
      rw [idsAt, List.getElem?_eq_none_iff.mpr (not_lt.mp hge)] at h
      exact List.not_mem_nil h
    simp [places, hi]
  | _ => simp [places]

/-! ## Disjointness -/

/-- What `Conserved` says about the places once nothing was issued twice. -/
structure Placed (s : TopicState) : Prop where
  covers : ∀ id ∈ s.ledger.issued, ∃ p, id ∈ s.idsAt p
  nodup : ∀ p, (s.idsAt p).Nodup
  unique : ∀ {id p q}, id ∈ s.idsAt p → id ∈ s.idsAt q → p = q

theorem Conserved.placed (hs : s.Conserved) (hnd : s.ledger.issued.Nodup) : s.Placed := by
  have htotal : (s.places.flatMap s.idsAt : Multiset Bytes) = ↑s.ledger.issued :=
    holdings_eq.trans hs.balance
  have hperm : (s.places.flatMap s.idsAt).Perm s.ledger.issued := Multiset.coe_eq_coe.mp htotal
  obtain ⟨hplace, hdisj⟩ := List.nodup_flatMap.mp (hperm.nodup_iff.mpr hnd)
  refine ⟨?_, ?_, ?_⟩
  · intro id hid
    obtain ⟨p, -, hp⟩ := List.mem_flatMap.mp (hperm.mem_iff.mpr hid)
    exact ⟨p, hp⟩
  · intro p
    by_cases hp : p ∈ s.places
    · exact hplace p hp
    · have hempty : s.idsAt p = [] :=
        List.eq_nil_iff_forall_not_mem.mpr fun id hid ↦ hp (mem_places hid)
      rw [hempty]
      exact List.nodup_nil
  · intro id p q hp hq
    by_contra hne
    have hsymm : Std.Symm (Function.onFun List.Disjoint s.idsAt) := ⟨fun _ _ h ↦ h.symm⟩
    exact hdisj.forall (mem_places hp) (mem_places hq) hne hp hq

end TopicState

/-! ## Leaving for good -/

/-- The terminal lists of `L` are still there in `L'`. -/
structure Ledger.Le (L L' : Ledger) : Prop where
  consumed : L.consumed ⊆ L'.consumed
  acked : L.acked ⊆ L'.acked
  removed : L.removed ⊆ L'.removed
  purged : L.purged ⊆ L'.purged

namespace Ledger

variable {L L' : Ledger}

theorem Le.refl (L : Ledger) : L.Le L :=
  ⟨List.Subset.refl _, List.Subset.refl _, List.Subset.refl _, List.Subset.refl _⟩

private theorem le_issue (L : Ledger) (id : Bytes) : L.Le (L.issue id) := { Le.refl L with }

private theorem le_consume (L : Ledger) (id : Bytes) : L.Le (L.consume id) :=
  { Le.refl L with consumed := List.subset_append_left _ _ }

private theorem le_ack (L : Ledger) (id : Bytes) : L.Le (L.ack id) :=
  { Le.refl L with acked := List.subset_append_left _ _ }

private theorem le_remove (L : Ledger) (id : Bytes) : L.Le (L.remove id) :=
  { Le.refl L with removed := List.subset_append_left _ _ }

private theorem le_purge (L : Ledger) (ids : List Bytes) : L.Le (L.purge ids) :=
  { Le.refl L with purged := List.subset_append_left _ _ }

end Ledger

theorem Topic.start_ledger {t : Topic} {L : Ledger} {c : Call} {r : Section}
    (h : t.start L c = some r) : L.Le r.2.1 := by
  cases c <;> simp only [Topic.start] at h
  case publish msg front =>
    split at h
    · exact absurd h (by simp)
    · split at h <;> cases h
      · exact Ledger.Le.refl L
      · exact L.le_issue _
  case publishDelayed => cases h; exact L.le_issue _
  case consume =>
    split at h <;> cases h
    · exact L.le_consume _
    · exact Ledger.Le.refl L
  case dlqRemove =>
    split at h <;> cases h
    · exact L.le_remove _
    · exact Ledger.Le.refl L
  case dlqPurge => cases h; exact L.le_purge _
  -- the remaining calls do not write to the ledger
  all_goals
    repeat' split at h
    all_goals cases h
    all_goals exact Ledger.Le.refl L

theorem Task.resume_ledger {t : Topic} {L : Ledger} {task : Task} {now : ℤ}
    {order : List Message} {r : Section} (h : task.resume t L now order = some r) :
    L.Le r.2.1 := by
  cases task with
  | ack groupName msgID =>
    rw [Task.resume, Option.map_eq_some_iff] at h
    obtain ⟨⟨ok, t'⟩, -, rfl⟩ := h
    cases ok with
    | false => exact Ledger.Le.refl L
    | true => exact L.le_ack _
  | nack groupName msgID reason =>
    rw [Task.resume, Option.map_eq_some_iff] at h
    obtain ⟨cg, -, h⟩ := h
    split at h <;> cases h <;> exact Ledger.Le.refl L
  | sweep groups timedOut =>
    rcases timedOut with - | ⟨msg, timedOut⟩
    · rcases groups with - | ⟨groupName, groups⟩
      · cases h
        exact Ledger.Le.refl L
      · rw [Task.resume, Option.map_eq_some_iff] at h
        obtain ⟨t', -, rfl⟩ := h
        exact Ledger.Le.refl L
    · rw [Task.resume, Option.some_inj] at h
      subst h
      exact Ledger.Le.refl L
  | expire msgs => cases msgs <;> cases h <;> exact Ledger.Le.refl L
  | popWait | checkout | fail =>
    rw [Task.resume, Option.map_eq_some_iff] at h
    obtain ⟨_, -, rfl⟩ := h
    exact Ledger.Le.refl L
  | publish | replay | closeRing | closeWheel => cases h; exact Ledger.Le.refl L

namespace TopicState

variable {s s' : TopicState}

private theorem ledger_le_of_step {l : TopicLabel} (h : s.step l = some s') :
    s.ledger.Le s'.ledger := by
  cases l with
  | call c =>
    rw [step, Option.map_eq_some_iff] at h
    obtain ⟨r, hr, rfl⟩ := h
    exact Topic.start_ledger hr
  | resume i now order =>
    rw [step, Option.bind_eq_some_iff] at h
    obtain ⟨task, -, h⟩ := h
    rw [Option.map_eq_some_iff] at h
    obtain ⟨r, hr, rfl⟩ := h
    exact Task.resume_ledger hr
  | giveUp i =>
    rw [step, Option.bind_eq_some_iff] at h
    obtain ⟨task, -, h⟩ := h
    split at h
    · cases h
      exact Ledger.Le.refl _
    · exact absurd h (by simp)

private theorem idsAt_subset_of_step {l : TopicLabel} {p : Place} (hp : p.IsTerminal)
    (h : s.step l = some s') : s.idsAt p ⊆ s'.idsAt p := by
  have hle := ledger_le_of_step h
  cases p with
  | consumed => exact hle.consumed
  | acked => exact hle.acked
  | removed => exact hle.removed
  | purged => exact hle.purged
  | ring | bucket | pel | dlq | hands => exact hp.elim

private theorem idsAt_subset_of_run {ok : TopicState → Prop} {labels : List TopicLabel} {p : Place}
    (hp : p.IsTerminal) (h : Run step ok s labels s') : s.idsAt p ⊆ s'.idsAt p := by
  induction h with
  | nil _ => exact List.Subset.refl _
  | cons _ hstep _ ih => exact List.Subset.trans (idsAt_subset_of_step hp hstep) ih

/-- What a step returns to a consumer was in the ring or in the hands of a `ConsumeGroup`. -/
theorem mem_idsAt_of_handedOut {l : TopicLabel} {id : Bytes} (h : s.handedOut l = some id) :
    ∃ p, id ∈ s.idsAt p ∧ ¬p.IsTerminal := by
  unfold handedOut at h
  split at h
  · rw [Option.map_eq_some_iff] at h
    obtain ⟨r, hcon, rfl⟩ := h
    rw [Topic.consume, Topic.pop, Option.map_map, Option.map_eq_some_iff] at hcon
    obtain ⟨msg, hpop, rfl⟩ := hcon
    have hmem : msg ∈ s.topic.ring.items :=
      List.mem_of_head? (s.topic.ring.pop_eq.1 ▸ hpop)
    exact ⟨.ring, List.mem_map_of_mem hmem, fun hp ↦ hp.elim⟩
  · rename_i i now order
    split at h
    · rename_i groupName consumerID msg htask
      rw [Option.some_inj] at h
      subst h
      refine ⟨.hands i, ?_, fun hp ↦ hp.elim⟩
      rw [idsAt, htask]
      exact List.mem_singleton.mpr rfl
    · exact absurd h (by simp)
  · exact absurd h (by simp)

/-! ## Runs -/

open TopicLabel

instance (t : Topic) : Decidable t.InBounds :=
  decidable_of_iff (t.ring.items.length < saturationCapacity.toNat ∧
    (t.dlq.len : ℤ) < t.dlq.maxSize) ⟨fun h ↦ ⟨h.1, h.2⟩, fun h ↦ ⟨h.ring, h.dlq⟩⟩

/-- Along every run before `Close` the ledger's issues are those of the labels, and the
conservation law holds. -/
theorem conserved_of_run {t : Topic} {name : Bytes} {capacity : UInt64}
    {labels : List TopicLabel} (hnew : Topic.newTopic name capacity = some t)
    (hrun : Run step (fun s ↦ s.topic.InBounds) (init t) labels s)
    (hopen : ∀ l ∈ labels, ¬l.IsClose) (hdistinct : (issuedIds labels).Nodup) :
    s.Conserved ∧ s.ledger.issued = issuedIds labels := by
  -- the hypotheses on the labels are handed down to every prefix, so they go into the invariant
  have hind := Run.history (I := fun ls u ↦ (∀ l ∈ ls, ¬l.IsClose) → (issuedIds ls).Nodup →
      u.Conserved ∧ u.ledger.issued = issuedIds ls)
    (fun ls u l v hb _ hstep hI hopen' hdistinct' ↦ ?_) hrun
    (fun _ _ ↦ ⟨conserved_init hnew, rfl⟩)
  · exact hind hopen hdistinct
  · rw [issuedIds, List.flatMap_append, List.flatMap_singleton] at hdistinct' ⊢
    obtain ⟨hcons, hissued⟩ := hI (fun k hk ↦ hopen' k (List.mem_append_left _ hk))
      (List.Nodup.of_append_left hdistinct')
    have hnd : u.ledger.issued.Nodup := hissued ▸ List.Nodup.of_append_left hdistinct'
    have hl : ¬l.IsClose := hopen' l (List.mem_append_right _ (List.mem_singleton.mpr rfl))
    obtain ⟨hcons', hissued'⟩ := hcons.step hnd hb hl hstep
    exact ⟨hcons', by rw [hissued', hissued, issuedIds]⟩

/-- **No loss, no duplication.** Take any interleaving of the operations of a topic before `Close`,
with pairwise distinct identifiers, a ring below saturation and a dead letter queue below its limit.
At its end every message given to a publishing call is at exactly one place, and once there. What
was at a terminal place at some earlier moment is still at that place, and no next step returns it
to a consumer; in particular an acknowledged message is never handed out again. -/
theorem exactly_one_place {t : Topic} {name : Bytes} {capacity : UInt64} {u : TopicState}
    {before after : List TopicLabel} (hnew : Topic.newTopic name capacity = some t)
    (hbefore : Run step (fun s ↦ s.topic.InBounds) (init t) before u)
    (hafter : Run step (fun s ↦ s.topic.InBounds) u after s)
    (hopen : ∀ l ∈ before ++ after, ¬l.IsClose)
    (hdistinct : (issuedIds (before ++ after)).Nodup) :
    (∀ id ∈ issuedIds (before ++ after),
      ∃ p, (s.idsAt p).count id = 1 ∧ ∀ q, id ∈ s.idsAt q → q = p) ∧
    (∀ p, p.IsTerminal → ∀ id ∈ u.idsAt p,
      id ∈ s.idsAt p ∧ ∀ l, s.handedOut l ≠ some id) := by
  obtain ⟨hcons, hissued⟩ := conserved_of_run hnew (hbefore.append hafter) hopen hdistinct
  have hplaced := hcons.placed (hissued.symm ▸ hdistinct)
  refine ⟨?_, ?_⟩
  · intro id hid
    obtain ⟨p, hp⟩ := hplaced.covers id (hissued.symm ▸ hid)
    exact ⟨p, List.count_eq_one_of_mem (hplaced.nodup p) hp, fun q hq ↦ hplaced.unique hq hp⟩
  · intro p hterm id hid
    have hs := idsAt_subset_of_run hterm hafter hid
    refine ⟨hs, fun l hl ↦ ?_⟩
    obtain ⟨q, hq, hnot⟩ := mem_idsAt_of_handedOut hl
    exact hnot (hplaced.unique hs hq ▸ hterm)

/-- A message published, consumed under a group and acknowledged: the later `Consume` runs into an
empty ring, and the message stays where it is. -/
theorem exactly_one_place_acked :
    ∃ t u s msg, Topic.newTopic (bytesOf "q") 4 = some t ∧
      Run step (fun s ↦ s.topic.InBounds) (init t)
        [.call (.publish msg false), .resume 0 0 [],
          .call (.consumeGroup (bytesOf "g") (bytesOf "c")), .resume 0 0 [], .resume 0 0 [],
          .call (.ack (bytesOf "g") msg.id), .resume 0 0 []] u ∧
      Run step (fun s ↦ s.topic.InBounds) u [.call .consume] s ∧
      msg.id ∈ u.idsAt .acked ∧ msg.id ∈ s.idsAt .acked ∧ ∀ l, s.handedOut l ≠ some msg.id := by
  let msg : Message :=
    ⟨bytesOf "m", bytesOf "q", none, Headers.empty, 0, 0, 0, 0, 3, [], 0, []⟩
  let labels : List TopicLabel :=
    [.call (.publish msg false), .resume 0 0 [],
      .call (.consumeGroup (bytesOf "g") (bytesOf "c")), .resume 0 0 [], .resume 0 0 [],
      .call (.ack (bytesOf "g") msg.id), .resume 0 0 []]
  let t := (Topic.newTopic (bytesOf "q") 4).get (by decide +kernel)
  have hnew : Topic.newTopic (bytesOf "q") 4 = some t := (Option.some_get _).symm
  let u := (Run.exec step (fun s ↦ s.topic.InBounds) (init t) labels).get (by decide +kernel)
  have hbefore : Run step (fun s ↦ s.topic.InBounds) (init t) labels u :=
    Run.of_exec (Option.some_get _).symm
  let s := (Run.exec step (fun s ↦ s.topic.InBounds) u [.call .consume]).get (by decide +kernel)
  have hafter : Run step (fun s ↦ s.topic.InBounds) u [.call .consume] s :=
    Run.of_exec (Option.some_get _).symm
  have hacked : msg.id ∈ u.idsAt .acked := by decide +kernel
  have hopen : ∀ l ∈ labels ++ [.call .consume], ¬l.IsClose := by
    simp [labels, TopicLabel.IsClose]
  have hdistinct : (issuedIds (labels ++ [.call .consume])).Nodup := by decide +kernel
  exact ⟨t, u, s, msg, hnew, hbefore, hafter, hacked,
    (exactly_one_place hnew hbefore hafter hopen hdistinct).2 .acked trivial msg.id hacked⟩

end TopicState

end VortexMQ
