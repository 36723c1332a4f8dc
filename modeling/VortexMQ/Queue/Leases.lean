import VortexMQ.Queue.Uniqueness

/-!
# Leases

`ConsumeGroup` does not give a message away: it lends it. `Checkout` enters the message in the
pending list of the group, with the consumer and a deadline thirty seconds ahead, and the message
comes back by `Ack`, by `Nack`, or by a sweep that finds the deadline passed.

This file is about the time in between, with any operations going on in the topic. Which group a
critical section touches, and what it does there, is said once (`GroupSection`). From that, an entry
goes away only by a section that ends the lease (`endsLease`): an entry is overwritten only by
checking out a message of the same identifier, and such a message is nowhere else while it is
pending (`VortexMQ.Queue.Uniqueness`). For the same reason nobody else is handed the message.
-/

namespace VortexMQ

deriving instance DecidableEq for Task

namespace Topic

variable {t t' : Topic} {groupName msgID : Bytes} {msg : Message}

/-- What the pending list of a group has under an identifier. -/
def pendingEntry (t : Topic) (groupName msgID : Bytes) : Option PendingMessage :=
  (t.groups.lookup groupName).bind fun cg ↦ cg.pel.lookup msgID

/-! ## Sections that leave the groups alone -/

theorem groups_schedule (t : Topic) (msg : Message) (delay : ℤ) :
    (t.schedule msg delay).groups = t.groups := by
  unfold schedule
  split <;> rfl

private theorem groups_route (t : Topic) (msg : Message) (now : ℤ) (r : ConsumerGroup.Route) :
    (t.route msg now r).groups = t.groups := by
  cases r with
  | deadLetter => rfl
  | retry delay => exact groups_schedule t msg delay

theorem groups_pop {r : Message × Topic} (h : t.pop = some r) : r.2.groups = t.groups := by
  rw [pop, Option.map_eq_some_iff] at h
  obtain ⟨msg, -, rfl⟩ := h
  rfl

private theorem groups_consume {r : Message × Topic} (h : t.consume = some r) :
    r.2.groups = t.groups := by
  rw [consume, Option.map_eq_some_iff] at h
  obtain ⟨r', hpop, rfl⟩ := h
  exact (groups_pop hpop :)

private theorem groups_start {L : Ledger} {c : Call} {r : Section} (h : t.start L c = some r) :
    r.1.groups = t.groups ∨
      ∃ groupName timeout, r.1 = t.getOrCreateGroup groupName timeout := by
  cases c with
  | publish msg front =>
    rw [start, Option.ite_none_left_eq_some] at h
    obtain ⟨-, h⟩ := h
    split at h <;> exact .inl (Option.some_inj.mp h ▸ rfl)
  | publishDelayed msg delay now =>
    rw [start, Option.some_inj] at h
    subst h
    exact .inl (groups_schedule _ _ _)
  | consume =>
    simp only [start] at h
    split at h
    · rename_i hcon
      exact .inl (Option.some_inj.mp h ▸ groups_consume hcon)
    · exact .inl (Option.some_inj.mp h ▸ rfl)
  | consumeGroup groupName consumerID =>
    rw [start, Option.ite_none_left_eq_some] at h
    exact .inr ⟨groupName, 30 * second, congrArg Prod.fst (Option.some_inj.mp h.2).symm⟩
  | ack groupName msgID =>
    rw [start, Option.ite_none_left_eq_some] at h
    exact .inl (Option.some_inj.mp h.2 ▸ rfl)
  | nack groupName msgID reason =>
    rw [start, Option.ite_none_left_eq_some] at h
    exact .inl (Option.some_inj.mp h.2 ▸ rfl)
  | sweepConsumerTimeouts order =>
    rw [start, Option.ite_none_left_eq_some, Option.ite_none_right_eq_some] at h
    exact .inl (Option.some_inj.mp h.2.2 ▸ rfl)
  | advance => exact .inl (Option.some_inj.mp h ▸ rfl)
  | replayDeadLetter msgID now =>
    simp only [start] at h
    split at h <;> exact .inl (Option.some_inj.mp h ▸ rfl)
  | dlqRemove msgID =>
    simp only [start] at h
    split at h <;> exact .inl (Option.some_inj.mp h ▸ rfl)
  | dlqPurge => exact .inl (Option.some_inj.mp h ▸ rfl)
  | close =>
    rw [start, Option.ite_none_left_eq_some] at h
    obtain ⟨-, h⟩ := h
    split at h <;> exact .inl (Option.some_inj.mp h ▸ rfl)

end Topic

/-! ## Sections of a group -/

/-- The section of `task` at time `now` is in the group `groupName`, which it takes from `cg` to
`cg'`. -/
inductive GroupSection (now : ℤ) : Task → Bytes → ConsumerGroup → ConsumerGroup → Prop
  | checkout (groupName consumerID : Bytes) (msg : Message) (cg : ConsumerGroup) :
      GroupSection now (.checkout groupName consumerID msg) groupName cg
        (cg.checkout msg consumerID (30 * second) now)
  | ack (groupName msgID : Bytes) (cg : ConsumerGroup) :
      GroupSection now (.ack groupName msgID) groupName cg (cg.delete msgID)
  | nack (groupName msgID reason : Bytes) (cg : ConsumerGroup) :
      GroupSection now (.nack groupName msgID reason) groupName cg (cg.delete msgID)
  | sweep (groupName : Bytes) (groups : List Bytes) (cg : ConsumerGroup) :
      GroupSection now (.sweep (groupName :: groups) []) groupName cg (cg.sweepTake now)

/-- A section leaves the groups alone or is a section of one of them. -/
theorem Task.groups_resume {t : Topic} {L : Ledger} {now : ℤ} {order : List Message} {task : Task}
    {r : Section} (h : task.resume t L now order = some r) :
    r.1.groups = t.groups ∨ ∃ groupName cg cg', t.groups.lookup groupName = some cg ∧
      r.1.groups = t.groups.insert groupName cg' ∧ GroupSection now task groupName cg cg' := by
  cases task with
  | publish msg front =>
    rw [resume, Option.some_inj] at h
    subst h
    exact .inl (t.fields_push msg front).2.2.2.1
  | popWait groupName consumerID =>
    rw [resume, Option.map_eq_some_iff] at h
    obtain ⟨r', hpop, rfl⟩ := h
    exact .inl (Topic.groups_pop hpop)
  | checkout groupName consumerID msg =>
    rw [resume, Topic.checkout, Option.map_map, Option.map_eq_some_iff] at h
    obtain ⟨cg, hcg, rfl⟩ := h
    exact .inr ⟨groupName, cg, _, hcg, rfl, .checkout ..⟩
  | ack groupName msgID =>
    rw [resume, Topic.ack, Option.map_map, Option.map_eq_some_iff] at h
    obtain ⟨cg, hcg, rfl⟩ := h
    cases hp : cg.pel.lookup msgID with
    | none =>
      left
      simp only [Function.comp_apply, ConsumerGroup.ack, hp]
      rfl
    | some p =>
      refine .inr ⟨groupName, cg, _, hcg, ?_, .ack ..⟩
      simp only [Function.comp_apply, ConsumerGroup.ack, hp]
      rfl
  | nack groupName msgID reason =>
    rw [resume, Option.map_eq_some_iff] at h
    obtain ⟨cg, hcg, rfl⟩ := h
    cases hp : cg.pel.lookup msgID with
    | none =>
      left
      simp only [ConsumerGroup.nackTake, hp, Option.map_none]
    | some p =>
      refine .inr ⟨groupName, cg, _, hcg, ?_, .nack ..⟩
      simp only [ConsumerGroup.nackTake, hp, Option.map_some]
      rfl
  | fail msg reason =>
    rw [resume, Option.map_eq_some_iff] at h
    obtain ⟨route, -, rfl⟩ := h
    exact .inl (Topic.groups_route ..)
  | sweep groups timedOut =>
    cases timedOut with
    | nil =>
      cases groups with
      | nil => exact .inl (Option.some_inj.mp h ▸ rfl)
      | cons groupName groups =>
        rw [resume, Topic.sweepGroup, Option.map_eq_some_iff] at h
        obtain ⟨t', ht', rfl⟩ := h
        rw [Option.bind_eq_some_iff] at ht'
        obtain ⟨cg, hcg, ht'⟩ := ht'
        rw [Option.ite_none_right_eq_some] at ht'
        exact .inr ⟨groupName, cg, _, hcg, Option.some_inj.mp ht'.2 ▸ rfl, .sweep ..⟩
    | cons msg timedOut =>
      have hr : r.1 = t.route (ConsumerGroup.fail msg ConsumerGroup.timeoutCause) now
          (ConsumerGroup.sweepRoute (ConsumerGroup.fail msg ConsumerGroup.timeoutCause)) := by
        cases groups <;> exact Option.some_inj.mp h ▸ rfl
      rw [hr]
      exact .inl (Topic.groups_route ..)
  | expire msgs => cases msgs <;> exact .inl (Option.some_inj.mp h ▸ rfl)
  | replay msg => exact .inl (Option.some_inj.mp h ▸ rfl)
  | closeRing => exact .inl (Option.some_inj.mp h ▸ rfl)
  | closeWheel => exact .inl (Option.some_inj.mp h ▸ rfl)

namespace ConsumerGroup

variable {cg : ConsumerGroup} {msgID : Bytes} {p : PendingMessage}

private theorem lookup_sweepTake {now : ℤ} (h : cg.pel.lookup msgID = some p)
    (hnow : now < p.ackDeadline) : (cg.sweepTake now).pel.lookup msgID = some p := by
  have hmem : (⟨msgID, p⟩ : (_ : Bytes) × PendingMessage) ∈ cg.pel.entries :=
    AList.mem_lookup_iff.mp h
  exact AList.mem_lookup_iff.mpr (List.mem_filter.mpr ⟨hmem, decide_eq_true hnow⟩)

/-- An entry is there as long as it is not deleted, its deadline is ahead, and no other message of
its identifier is checked out. -/
theorem lookup_of_groupSection {now : ℤ} {task : Task} {groupName : Bytes} {cg' : ConsumerGroup}
    (hsection : GroupSection now task groupName cg cg') (h : cg.pel.lookup msgID = some p)
    (hheld : msgID ∉ task.heldIds) (hack : task ≠ .ack groupName msgID)
    (hnack : ∀ reason, task ≠ .nack groupName msgID reason)
    (hsweep : ∀ groups, task = .sweep (groupName :: groups) [] → now < p.ackDeadline) :
    cg'.pel.lookup msgID = some p := by
  cases hsection with
  | checkout groupName consumerID msg cg =>
    have hne : msgID ≠ msg.id := fun heq ↦ hheld (List.mem_singleton.mpr heq)
    exact (AList.lookup_insert_ne hne).trans h
  | ack groupName id cg =>
    have hne : msgID ≠ id := by rintro rfl; exact hack rfl
    exact (AList.lookup_erase_ne hne).trans h
  | nack groupName id reason cg =>
    have hne : msgID ≠ id := by rintro rfl; exact hnack reason rfl
    exact (AList.lookup_erase_ne hne).trans h
  | sweep groupName groups cg => exact lookup_sweepTake h (hsweep groups rfl)

end ConsumerGroup

namespace TopicState

variable {s s' : TopicState} {groupName msgID : Bytes} {p : PendingMessage}

/-- The step ends a lease with this deadline: it is the section of an `Ack` or a `Nack` that names
the message, or of a sweep that is late enough. -/
def endsLease (groupName msgID : Bytes) (deadline : ℤ) (s : TopicState) : TopicLabel → Bool
  | .resume i now _ =>
      match s.tasks[i]? with
      | some (.ack g id) => g = groupName ∧ id = msgID
      | some (.nack g id _) => g = groupName ∧ id = msgID
      | some (.sweep (g :: _) []) => g = groupName ∧ deadline ≤ now
      | _ => false
  | _ => false

theorem pendingEntry_eq_some :
    s.topic.pendingEntry groupName msgID = some p ↔
      ∃ cg, s.topic.groups.lookup groupName = some cg ∧ cg.pel.lookup msgID = some p :=
  Option.bind_eq_some_iff

/-- What is pending is neither in the ring nor in the hands of an operation. -/
theorem elsewhere_of_pendingEntry (hs : s.weight.Nodup)
    (h : s.topic.pendingEntry groupName msgID = some p) :
    msgID ∉ s.topic.ringIds ∧ ∀ task ∈ s.tasks, msgID ∉ task.heldIds := by
  obtain ⟨cg, hcg, hp⟩ := pendingEntry_eq_some.mp h
  have hpel : msgID ∈ s.topic.pelIds := by
    have hentry := List.mem_flatMap_of_mem (f := fun e : (_ : Bytes) × ConsumerGroup ↦ e.2.pending)
      (AList.mem_lookup_iff.mp hcg) (b := msgID) (by
        change msgID ∈ cg.pending
        rw [ConsumerGroup.pending_eq_keys]
        exact AList.mem_keys.mpr (mem_of_lookup_eq_some hp))
    exact Multiset.mem_coe.mpr hentry
  obtain ⟨htopic, -, hhands⟩ := Multiset.nodup_add.mp hs
  refine ⟨fun hring ↦ ?_, fun task htask hheld ↦ ?_⟩
  · have hparts := (Multiset.nodup_add.mp (Multiset.nodup_add.mp htopic).1).2.2
    exact Multiset.disjoint_left.mp hparts (Multiset.mem_add.mpr (.inl hring)) hpel
  · refine Multiset.disjoint_left.mp hhands ?_
      (Multiset.mem_coe.mpr (List.mem_flatMap.mpr ⟨task, htask, hheld⟩))
    exact Multiset.mem_add.mpr (.inl (Multiset.mem_add.mpr (.inr hpel)))

/-- **One step.** Unless the step ends the lease, the entry stays as it is. -/
theorem pendingEntry_step {l : TopicLabel} (hs : s.weight.Nodup)
    (h : s.topic.pendingEntry groupName msgID = some p) (hstep : s.step l = some s')
    (hkeep : s.endsLease groupName msgID p.ackDeadline l = false) :
    s'.topic.pendingEntry groupName msgID = some p := by
  obtain ⟨cg, hcg, hp⟩ := pendingEntry_eq_some.mp h
  cases l with
  | call c =>
    rw [step, Option.map_eq_some_iff] at hstep
    obtain ⟨r, hr, rfl⟩ := hstep
    refine pendingEntry_eq_some.mpr ⟨cg, ?_, hp⟩
    rcases Topic.groups_start hr with hsame | ⟨name, timeout, hnew⟩
    · exact hsame ▸ hcg
    · change r.1.groups.lookup groupName = some cg
      rw [hnew, Topic.getOrCreateGroup]
      split
      · exact hcg
      · rename_i hnot
        have hne : groupName ≠ name := by
          rintro rfl
          exact hnot (mem_of_lookup_eq_some hcg)
        exact (AList.lookup_insert_ne hne).trans hcg
  | resume i now order =>
    rw [step, Option.bind_eq_some_iff] at hstep
    obtain ⟨task, htask, hstep⟩ := hstep
    rw [Option.map_eq_some_iff] at hstep
    obtain ⟨r, hr, rfl⟩ := hstep
    simp only [endsLease, htask] at hkeep
    rcases Task.groups_resume hr with hsame | ⟨name, cg₁, cg₂, hcg₁, hgroups, hsection⟩
    · exact pendingEntry_eq_some.mpr ⟨cg, hsame ▸ hcg, hp⟩
    · by_cases hname : groupName = name
      · subst hname
        obtain rfl := Option.some_inj.mp (hcg.symm.trans hcg₁)
        refine pendingEntry_eq_some.mpr ⟨cg₂, hgroups ▸ AList.lookup_insert _, ?_⟩
        refine ConsumerGroup.lookup_of_groupSection hsection hp ?_ ?_ ?_ ?_
        · -- a message in the hands of the operation would be in two places
          exact (elsewhere_of_pendingEntry hs h).2 task (List.mem_of_getElem? htask)
        · rintro rfl
          simp at hkeep
        · rintro reason rfl
          simp at hkeep
        · rintro groups rfl
          simpa using hkeep
      · refine pendingEntry_eq_some.mpr ⟨cg, ?_, hp⟩
        change r.1.groups.lookup groupName = some cg
        rw [hgroups, AList.lookup_insert_ne hname, hcg]
  | giveUp i =>
    rw [step, Option.bind_eq_some_iff] at hstep
    obtain ⟨task, -, hstep⟩ := hstep
    split at hstep
    · exact Option.some_inj.mp hstep ▸ h
    · exact absurd hstep (by simp)

private theorem handedOut_ne_of_pendingEntry (hs : s.weight.Nodup)
    (h : s.topic.pendingEntry groupName msgID = some p) (l : TopicLabel) :
    s.handedOut l ≠ some msgID := by
  obtain ⟨hring, hhands⟩ := elsewhere_of_pendingEntry hs h
  intro hout
  unfold handedOut at hout
  split at hout
  · rw [Option.map_eq_some_iff] at hout
    obtain ⟨r, hcon, rfl⟩ := hout
    rw [Topic.consume, Option.map_eq_some_iff] at hcon
    obtain ⟨r', hpop, rfl⟩ := hcon
    rw [Topic.pop, Option.map_eq_some_iff] at hpop
    obtain ⟨msg, hmsg, rfl⟩ := hpop
    have hmem : msg ∈ s.topic.ring.items := List.mem_of_head? (s.topic.ring.pop_eq.1 ▸ hmsg)
    exact hring (Multiset.mem_coe.mpr (List.mem_map_of_mem hmem))
  · split at hout
    · rename_i htask
      exact hhands _ (List.mem_of_getElem? htask)
        (List.mem_singleton.mpr (Option.some_inj.mp hout).symm)
    · exact absurd hout (by simp)
  · exact absurd hout (by simp)

/-- `Checkout` enters the message with its consumer and its deadline. -/
theorem pendingEntry_checkout {i : ℕ} {now : ℤ} {order : List Message} {consumerID : Bytes}
    {msg : Message} (htask : s.tasks[i]? = some (.checkout groupName consumerID msg))
    (hstep : s.step (.resume i now order) = some s') :
    s'.topic.pendingEntry groupName msg.id = some
      ⟨{ msg with consumerID := consumerID, ackDeadline := wrap64 (now + 30 * second) }, consumerID,
        now, wrap64 (now + 30 * second)⟩ := by
  rw [step, htask, Option.bind_some, Task.resume, Topic.checkout, Option.map_map, Option.map_map,
    Option.map_eq_some_iff] at hstep
  obtain ⟨cg, hcg, rfl⟩ := hstep
  exact pendingEntry_eq_some.mpr ⟨_, AList.lookup_insert _, AList.lookup_insert _⟩

/-! ## Runs -/

section Runs

variable {t : Topic} {name : Bytes} {capacity : UInt64}

/-- **Whole runs.** The entry stays and the message is handed out to nobody, as long as no step
ends the lease. -/
theorem leased_of_run (hnew : Topic.newTopic name capacity = some t) :
    ∀ {after : List TopicLabel} {s u : TopicState}, Run step (fun _ ↦ True) s after u →
      ∀ before, Run step (fun _ ↦ True) (init t) before s →
      (TopicLabel.issuedIds (before ++ after)).Nodup →
      s.topic.pendingEntry groupName msgID = some p →
      Run.Guarded step (fun s l ↦ s.endsLease groupName msgID p.ackDeadline l = false) s after →
      u.topic.pendingEntry groupName msgID = some p ∧
        Run.AllSteps step (fun s l _ ↦ s.handedOut l ≠ some msgID) s after := by
  intro after s u hafter
  -- forwards along the run, with the steps already taken moved to the history
  induction hafter with
  | nil _ => exact fun _ _ _ h _ ↦ ⟨h, trivial⟩
  | @cons s v u l after _ hstep hrest ih =>
    intro before hbefore hdistinct h hkept
    have hnodup : s.weight.Nodup := by
      rw [TopicLabel.issuedIds, List.flatMap_append] at hdistinct
      exact nodup_weight_of_run hnew hbefore hdistinct.of_append_left
    have happend : before ++ l :: after = before ++ [l] ++ after := by simp
    rw [happend] at hdistinct
    obtain ⟨hu, hall⟩ := ih (before ++ [l])
      (hbefore.append (Run.cons trivial hstep (Run.nil trivial))) hdistinct
      (pendingEntry_step hnodup h hstep hkept.1) (hkept.2 v hstep)
    refine ⟨hu, fun w hw ↦ ?_⟩
    obtain rfl := Option.some_inj.mp (hstep.symm.trans hw)
    exact ⟨handedOut_ne_of_pendingEntry hnodup h l, hall⟩

/-- **An exclusive lease of thirty seconds.** Take any interleaving of the operations of a topic,
`Close` included, with pairwise distinct identifiers, and let a `ConsumeGroup` check a message out
at time `now`. Then, whatever goes on, the message stays in the pending list under that consumer
with its payload untouched, and no step returns it to a consumer of this group, of another group or
of none, until the section of an `Ack` or `Nack` that names it under this group, or a sweep of the
group no earlier than thirty seconds after `now`. -/
theorem exclusive_lease (hnew : Topic.newTopic name capacity = some t) {s v u : TopicState}
    {before after : List TopicLabel} {i : ℕ} {now : ℤ} {order : List Message}
    {groupName consumerID : Bytes} {msg : Message}
    (hbefore : Run step (fun _ ↦ True) (init t) before s)
    (htask : s.tasks[i]? = some (.checkout groupName consumerID msg))
    (hout : s.step (.resume i now order) = some v) (hafter : Run step (fun _ ↦ True) v after u)
    (hdistinct : (TopicLabel.issuedIds (before ++ after)).Nodup)
    (hkept : Run.Guarded step
      (fun s l ↦ s.endsLease groupName msg.id (wrap64 (now + 30 * second)) l = false) v after) :
    u.topic.pendingEntry groupName msg.id = some
      ⟨{ msg with consumerID := consumerID, ackDeadline := wrap64 (now + 30 * second) }, consumerID,
        now, wrap64 (now + 30 * second)⟩ ∧
      Run.AllSteps step (fun s l _ ↦ s.handedOut l ≠ some msg.id) v after := by
  have hrun : Run step (fun _ ↦ True) (init t) (before ++ [.resume i now order]) v :=
    hbefore.append (Run.cons trivial hout (Run.nil trivial))
  refine leased_of_run hnew hafter _ hrun ?_ (pendingEntry_checkout htask hout) hkept
  rw [TopicLabel.issuedIds, List.append_assoc, List.flatMap_append] at *
  exact hdistinct

/-- A sweep one nanosecond early, a plain `Consume` and an `Ack` under another group change nothing
for a message that was checked out at time 5. -/
theorem exclusive_lease_swept_early :
    ∃ t s v u msg, Topic.newTopic (bytesOf "q") 4 = some t ∧
      Run step (fun _ ↦ True) (init t)
        [.call (.publish msg false), .resume 0 0 [],
          .call (.consumeGroup (bytesOf "g") (bytesOf "c")), .resume 0 0 [],
          .call (.consumeGroup (bytesOf "h") (bytesOf "d"))] s ∧
      s.step (.resume 0 5 []) = some v ∧ s.handedOut (.resume 0 5 []) = some msg.id ∧
      Run step (fun _ ↦ True) v
        [.call (.sweepConsumerTimeouts [bytesOf "g", bytesOf "h"]),
          .resume 1 (4 + 30 * second) [], .call .consume,
          .call (.ack (bytesOf "h") msg.id), .resume 2 6 []] u ∧
      (∃ p, u.topic.pendingEntry (bytesOf "g") msg.id = some p ∧ p.consumerID = bytesOf "c") ∧
      Run.AllSteps step (fun s l _ ↦ s.handedOut l ≠ some msg.id) v
        [.call (.sweepConsumerTimeouts [bytesOf "g", bytesOf "h"]),
          .resume 1 (4 + 30 * second) [], .call .consume,
          .call (.ack (bytesOf "h") msg.id), .resume 2 6 []] := by
  let msg : Message :=
    ⟨bytesOf "m", bytesOf "q", none, Headers.empty, 0, 0, 0, 0, 3, [], 0, []⟩
  let before : List TopicLabel :=
    [.call (.publish msg false), .resume 0 0 [],
      .call (.consumeGroup (bytesOf "g") (bytesOf "c")), .resume 0 0 [],
      .call (.consumeGroup (bytesOf "h") (bytesOf "d"))]
  let after : List TopicLabel :=
    [.call (.sweepConsumerTimeouts [bytesOf "g", bytesOf "h"]),
      .resume 1 (4 + 30 * second) [], .call .consume,
      .call (.ack (bytesOf "h") msg.id), .resume 2 6 []]
  let t := (Topic.newTopic (bytesOf "q") 4).get (by decide +kernel)
  have hnew : Topic.newTopic (bytesOf "q") 4 = some t := (Option.some_get _).symm
  let s := (Run.exec step (fun _ ↦ True) (init t) before).get (by decide +kernel)
  have hbefore : Run step (fun _ ↦ True) (init t) before s :=
    Run.of_exec (Option.some_get _).symm
  let v := (s.step (.resume 0 5 [])).get (by decide +kernel)
  have hout : s.step (.resume 0 5 []) = some v := (Option.some_get _).symm
  let u := (Run.exec step (fun _ ↦ True) v after).get (by decide +kernel)
  have hafter : Run step (fun _ ↦ True) v after u :=
    Run.of_exec (Option.some_get _).symm
  have hhanded : s.handedOut (.resume 0 5 []) = some msg.id := by decide +kernel
  have htask : s.tasks[0]? = some (.checkout (bytesOf "g") (bytesOf "c") msg) := by
    decide +kernel
  have hdistinct : (TopicLabel.issuedIds (before ++ after)).Nodup := by decide +kernel
  have hcheck : Run.checkGuard step (fun s l ↦
      !s.endsLease (bytesOf "g") msg.id (wrap64 (5 + 30 * second)) l) v after = true := by
    decide +kernel
  have hkept := (Run.guarded_of_checkGuard hcheck).mono fun s l h ↦ Bool.not_eq_true' _ ▸ h
  obtain ⟨hentry, hall⟩ := exclusive_lease hnew hbefore htask hout hafter hdistinct hkept
  exact ⟨t, s, v, u, msg, hnew, hbefore, hout, hhanded, hafter, ⟨_, hentry, rfl⟩, hall⟩

end Runs

end TopicState

end VortexMQ
