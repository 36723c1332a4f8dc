import VortexMQ.Basic.Progress
import VortexMQ.Queue.Leases
import VortexMQ.Queue.Provenance
import VortexMQ.Queue.RetryBudget
import VortexMQ.Queue.Schedule

/-!
# Redelivery

A consumer that has checked a message out and disappears does not take it along. This file follows
such a message through an open topic, with any operations going on, from the pending list back to
the ring.

The way has four stages. The message is pending, and a sweep in progress is still to visit its
group (`Leased`); a sweep or a `Nack` has it in its hands and is about to fail it (`Failed`); it
waits in the wheel (`Scheduled`); a tick has it in its hands (`Dispatched`). A step leaves a stage
only for a later one or for the end (`Returned`), which is the ring, the dead letter queue, or an
`Ack` that came first. That the sweep has come to its end, that enough ticks have passed and that
these have come to their ends excludes one stage after the other.
-/

namespace VortexMQ

/-! ## The ring and the wheel -/

/-- What is pushed to an open ring is in it, even if the ring is full. -/
theorem Ring.mem_push {α : Type} (r : Ring α) (msg : α) (hopen : r.closed = false) :
    msg ∈ (r.push msg).2.items := by
  obtain ⟨d, hd⟩ := r.valid
  have hc : d.closed = false := hd.closed_eq.symm.trans hopen
  rw [items_eq (hd.push msg).2, Deque.pushBack, hc, if_neg Bool.false_ne_true]
  exact List.mem_append_right _ (List.mem_singleton_self msg)

namespace TimingWheel

variable {α : Type} {tw : TimingWheel α} {msg : α}

private theorem mem_turn {n : ℕ} {msgs : List α} : msg ∈ tw.turn n msgs ↔ msg ∈ msgs := by
  rw [turn]
  split
  · exact List.mem_reverse
  · exact Iff.rfl

private theorem mem_due_after : ∀ {ops : List (WheelOp α)} {tw : TimingWheel α} {n : ℕ},
    WheelOp.advances ops = 0 → msg ∈ tw.due n → msg ∈ (tw.after ops).due n := by
  intro ops
  induction ops with
  | nil => exact fun _ h ↦ h
  | cons op ops ih =>
    intro tw n hops h
    rw [WheelOp.advances_cons] at hops
    refine ih (by omega) ?_
    cases op with
    | advance => simp [WheelOp.isAdvance] at hops
    | add msg' delay =>
      rw [WheelOp.apply, add]
      split
      · exact h
      · split
        · exact h
        · rw [due_insert]
          split
          · exact List.mem_cons_of_mem _ h
          · exact h

end TimingWheel

namespace Topic

variable {t : Topic} {msg : Message}

/-- What is to wait is in the calendar, and what is not to wait is in the ring. -/
theorem mem_schedule (hopen : t.IsOpen) (msg : Message) (delay : ℤ) :
    msg ∈ (t.schedule msg delay).ring.items ∨
      msg ∈ (t.schedule msg delay).tw.due (t.tw.ticks delay) := by
  by_cases hdelay : 0 < delay
  · right
    rw [schedule, TimingWheel.add_eq hopen.wheel hdelay]
    change msg ∈ (t.tw.insert msg delay).due _
    rw [TimingWheel.due_insert, if_pos rfl]
    exact List.mem_cons_self
  · left
    rw [schedule, TimingWheel.add, if_pos (not_lt.mp hdelay)]
    exact t.ring.mem_push msg hopen.ring

private theorem mem_dlqMessages_deadLetter (t : Topic) (msg : Message) (cause : Bytes) (now : ℤ) :
    msg ∈ (t.deadLetter msg cause now).dlqMessages := by
  have hmem : (⟨msg.id, ⟨msg, now, cause, msg.retryCount⟩⟩ : (_ : Bytes) × DeadLetterEntry)
      ∈ (t.dlq.evict.entries.insert msg.id ⟨msg, now, cause, msg.retryCount⟩).entries := by
    rw [AList.entries_insert]
    exact List.mem_cons_self
  exact List.mem_map_of_mem (f := fun e : (_ : Bytes) × DeadLetterEntry ↦ e.2.message) hmem

end Topic

/-! ## The delay of a retry -/

namespace ConsumerGroup

/-- A route that does not wait for more than ten seconds. -/
def Route.Prompt : Route → Prop
  | .deadLetter => True
  | .retry delay => delay ≤ 10 * second

private theorem prompt_sweepRoute (msg : Message) : (sweepRoute msg).Prompt := by
  rw [sweepRoute]
  split
  · trivial
  · change 500 * millisecond ≤ 10 * second
    decide

private theorem prompt_nackRoute {msg : Message} {r : Route} (h : nackRoute msg = some r) :
    r.Prompt := by
  rw [nackRoute] at h
  split at h
  · obtain rfl := Option.some_inj.mp h
    trivial
  · obtain ⟨delay, hdelay, rfl⟩ := Option.map_eq_some_iff.mp h
    obtain ⟨shifted, -, rfl⟩ := Option.map_eq_some_iff.mp hdelay
    change (if _ then _ else _) ≤ 10 * second
    split
    · exact le_rfl
    · rename_i hle
      exact not_lt.mp hle

end ConsumerGroup

theorem TimingWheel.ticks_le {α : Type} {tw : TimingWheel α} (h : tw.interval = 50 * millisecond)
    {delay : ℤ} (hdelay : delay ≤ 10 * second) : tw.ticks delay ≤ 200 := by
  have hquot : delay.tdiv tw.interval ≤ 200 := by
    rw [h]
    refine Int.le_trans (Int.tdiv_le_tdiv ?_ hdelay) ?_ <;> decide
  simp only [ticks]
  split <;> omega

/-! ## The stages -/

namespace Task

/-- The operation is about to fail messages. -/
def isFailing : Task → Bool
  | .sweep _ _ | .fail _ _ => true
  | _ => false

/-- The operation is about to dispatch expired messages. -/
def isExpiring : Task → Bool
  | .expire _ => true
  | _ => false

end Task

/-- The step takes place at this time or later. -/
def TopicLabel.NotBefore (time : ℤ) : TopicLabel → Prop
  | .resume _ now _ => time ≤ now
  | _ => True

instance (time : ℤ) (l : TopicLabel) : Decidable (l.NotBefore time) := by
  cases l <;> unfold TopicLabel.NotBefore <;> infer_instance

instance (t : Topic) : Decidable t.IsOpen :=
  decidable_of_iff (t.closed = false ∧ t.ring.closed = false ∧ t.tw.closed = false)
    ⟨fun h ↦ ⟨h.1, h.2.1, h.2.2⟩, fun h ↦ ⟨h.topic, h.ring, h.wheel⟩⟩

namespace TopicState

/-- The message is pending, and a sweep is still to visit the group. -/
def Leased (groupName msgID : Bytes) (p : PendingMessage) (s : TopicState) : Prop :=
  s.topic.pendingEntry groupName msgID = some p ∧
    ∃ groups timedOut, Task.sweep groups timedOut ∈ s.tasks ∧ groupName ∈ groups

/-- An operation holds the message and is about to fail it. -/
def Failed (pub : Publication) (s : TopicState) : Prop :=
  ∃ task ∈ s.tasks, task.isFailing = true ∧ pub ∈ task.held.map Message.publication

/-- The message is in the wheel, for `k` more ticks and the one that delivers it. -/
def Scheduled (pub : Publication) (k : ℕ) (s : TopicState) : Prop :=
  pub ∈ (s.topic.tw.due k).map Message.publication

def Dispatched (pub : Publication) (s : TopicState) : Prop :=
  ∃ msgs, Task.expire msgs ∈ s.tasks ∧ pub ∈ msgs.map Message.publication

/-- The message is back, in the ring or as a dead letter, or it has been acknowledged. -/
def Returned (pub : Publication) (s : TopicState) : Prop :=
  pub ∈ s.topic.ring.items.map Message.publication ∨
    pub ∈ s.topic.dlqMessages.map Message.publication ∨ pub.1 ∈ s.ledger.acked

/-! ## Steps -/

section Steps

variable {s s' : TopicState} {l : TopicLabel} {pub : Publication} {groupName msgID : Bytes}
  {p : PendingMessage}

/-- What becomes of an operation in progress: it is where it was, it runs its next section, or it
gives up. -/
theorem mem_tasks_step {task : Task} (htask : task ∈ s.tasks) (hstep : s.step l = some s') :
    task ∈ s'.tasks ∨ (∃ i now order r, l = .resume i now order ∧ s.tasks[i]? = some task ∧
      task.resume s.topic s.ledger now order = some r ∧ s'.topic = r.1 ∧
        ∀ next, r.2.2 = some next → next ∈ s'.tasks) ∨
      ∃ groupName consumerID, task = .popWait groupName consumerID := by
  obtain ⟨j, hj⟩ := List.mem_iff_getElem?.mp htask
  cases l with
  | call c =>
    rw [step, Option.map_eq_some_iff] at hstep
    obtain ⟨r, -, rfl⟩ := hstep
    exact Or.inl (List.mem_append_left _ htask)
  | resume i now order =>
    rw [step, Option.bind_eq_some_iff] at hstep
    obtain ⟨task', hi, hstep⟩ := hstep
    obtain ⟨r, hr, rfl⟩ := Option.map_eq_some_iff.mp hstep
    by_cases hij : i = j
    · subst hij
      obtain rfl := Option.some_inj.mp (hi.symm.trans hj)
      refine Or.inr (Or.inl ⟨i, now, order, r, rfl, hi, hr, rfl, fun next hnext ↦ ?_⟩)
      change next ∈ replaceTask s.tasks i r.2.2
      rw [hnext]
      exact List.mem_set (List.getElem?_eq_some_iff.mp hi).1 next
    · left
      change task ∈ replaceTask s.tasks i r.2.2
      cases r.2.2 with
      | none => exact List.mem_eraseIdx_iff_getElem?.mpr ⟨j, Ne.symm hij, hj⟩
      | some next =>
        refine List.mem_of_getElem? (i := j) ?_
        rw [replaceTask, List.getElem?_set_ne hij, hj]
  | giveUp i =>
    rw [step, Option.bind_eq_some_iff] at hstep
    obtain ⟨task', hi, hstep⟩ := hstep
    split at hstep
    · rename_i g c _
      obtain rfl := Option.some_inj.mp hstep
      by_cases hij : i = j
      · subst hij
        exact Or.inr (Or.inr ⟨g, c, (Option.some_inj.mp (hi.symm.trans hj)).symm⟩)
      · exact Or.inl (List.mem_eraseIdx_iff_getElem?.mpr ⟨j, Ne.symm hij, hj⟩)
    · exact absurd hstep (Option.some_ne_none _).symm

/-- A message that is failed goes to the wheel, to the dead letters or back to the ring. -/
theorem scheduled_or_returned_route {t : Topic} (hopen : t.IsOpen)
    (hinterval : t.tw.interval = 50 * millisecond) {msg : Message} {cause : Bytes} {now : ℤ}
    {r : ConsumerGroup.Route} (hr : r.Prompt) {n : UInt64}
    (htopic : s'.topic = { t.route (ConsumerGroup.fail msg cause) now r with nacked := n }) :
    (∃ k ≤ 200, s'.Scheduled msg.publication k) ∨ s'.Returned msg.publication := by
  have hpub : msg.publication = (ConsumerGroup.fail msg cause).publication := rfl
  rw [hpub]
  unfold Scheduled Returned
  rw [htopic]
  cases r with
  | deadLetter =>
    exact Or.inr (Or.inr (Or.inl (List.mem_map_of_mem (t.mem_dlqMessages_deadLetter _ _ now))))
  | retry delay =>
    rcases t.mem_schedule hopen (ConsumerGroup.fail msg cause) delay with hmem | hmem
    · exact Or.inr (Or.inl (List.mem_map_of_mem hmem))
    · exact Or.inl ⟨_, TimingWheel.ticks_le hinterval hr, List.mem_map_of_mem hmem⟩

/-- **Pending.** A late section of a sweep in the group, or a `Nack`, takes the message; an `Ack`
ends its way. -/
theorem failed_or_returned_of_endsLease (h : s.topic.pendingEntry groupName msgID = some p)
    (hends : s.endsLease groupName msgID p.ackDeadline l = true) (hstep : s.step l = some s') :
    s'.Failed p.message.publication ∨ s'.Returned p.message.publication := by
  obtain ⟨cg, hcg, hp⟩ := pendingEntry_eq_some.mp h
  have hid : p.message.id = msgID := cg.keyed _ (AList.mem_lookup_iff.mp hp)
  cases l with
  | call c => exact absurd hends Bool.false_ne_true
  | giveUp i => exact absurd hends Bool.false_ne_true
  | resume i now order =>
    rw [step, Option.bind_eq_some_iff] at hstep
    obtain ⟨task, hi, hstep⟩ := hstep
    obtain ⟨r, hr, rfl⟩ := Option.map_eq_some_iff.mp hstep
    have hnext : ∀ next, r.2.2 = some next → next ∈ replaceTask s.tasks i r.2.2 := by
      intro next hnext
      rw [hnext]
      exact List.mem_set (List.getElem?_eq_some_iff.mp hi).1 next
    simp only [endsLease, hi] at hends
    split at hends
    · -- `Ack`
      rename_i g id htask
      obtain rfl := Option.some_inj.mp htask
      obtain ⟨rfl, rfl⟩ := of_decide_eq_true hends
      rw [Task.resume, Topic.ack, hcg, Option.map_some, Option.map_some, ConsumerGroup.ack, hp,
        if_pos rfl, Option.some_inj] at hr
      subst hr
      exact Or.inr (Or.inr (Or.inr (hid ▸ List.mem_append_right _ (List.mem_singleton_self _))))
    · -- `Nack`
      rename_i g id reason htask
      obtain rfl := Option.some_inj.mp htask
      obtain ⟨rfl, rfl⟩ := of_decide_eq_true hends
      rw [Task.resume, hcg, Option.map_some, ConsumerGroup.nackTake, hp, Option.map_some,
        Option.some_inj] at hr
      refine Or.inl ⟨.fail p.message reason, hnext _ (hr ▸ rfl), rfl, ?_⟩
      exact List.mem_singleton_self _
    · -- a sweep
      rename_i g groups htask
      obtain rfl := Option.some_inj.mp htask
      obtain ⟨rfl, hnow⟩ := of_decide_eq_true hends
      rw [Task.resume, Option.map_eq_some_iff] at hr
      obtain ⟨t', ht', rfl⟩ := hr
      rw [Topic.sweepGroup, hcg, Option.bind_some, Option.ite_none_right_eq_some] at ht'
      refine Or.inl ⟨.sweep groups order, hnext _ rfl, rfl, ?_⟩
      have hexpired : p ∈ cg.expired now :=
        List.mem_filter.mpr ⟨List.mem_map_of_mem (AList.mem_lookup_iff.mp hp), decide_eq_true hnow⟩
      exact List.mem_map_of_mem (ht'.1.mem_iff.mpr (List.mem_map_of_mem hexpired))
    · exact absurd hends Bool.false_ne_true

private theorem leased_sweep {order : List Bytes}
    (h : s.topic.pendingEntry groupName msgID = some p)
    (hstep : s.step (.call (.sweepConsumerTimeouts order)) = some s') :
    s'.Leased groupName msgID p := by
  obtain ⟨cg, hcg, -⟩ := pendingEntry_eq_some.mp h
  rw [step, Topic.start, Option.map_eq_some_iff] at hstep
  obtain ⟨r, hr, rfl⟩ := hstep
  rw [Option.ite_none_left_eq_some, Option.ite_none_right_eq_some] at hr
  obtain ⟨-, hperm, hr⟩ := hr
  obtain rfl := Option.some_inj.mp hr
  refine ⟨h, order, [], List.mem_append_right _ (List.mem_singleton_self _), ?_⟩
  exact hperm.mem_iff.mpr (AList.mem_keys.mpr (mem_of_lookup_eq_some hcg))

/-- **The first stage.** After the deadline a sweep that is still to visit the group either is not
yet there, or takes the message. -/
theorem Leased.step (hs : s.weight.Nodup) (h : s.Leased groupName msgID p)
    (hlate : l.NotBefore p.ackDeadline) (hstep : s.step l = some s') :
    s'.Leased groupName msgID p ∨ s'.Failed p.message.publication ∨
      s'.Returned p.message.publication := by
  obtain ⟨hentry, groups, timedOut, htask, hgroup⟩ := h
  cases hends : s.endsLease groupName msgID p.ackDeadline l with
  | true => exact Or.inr (failed_or_returned_of_endsLease hentry hends hstep)
  | false =>
    left
    refine ⟨pendingEntry_step hs hentry hstep hends, ?_⟩
    rcases mem_tasks_step htask hstep with hmem | ⟨i, now, order, r, rfl, hi, hr, -, hnext⟩ |
      ⟨g, c, hwait⟩
    · exact ⟨groups, timedOut, hmem, hgroup⟩
    · cases timedOut with
      | nil =>
        cases groups with
        | nil => exact absurd hgroup List.not_mem_nil
        | cons g groups =>
          rw [Task.resume, Option.map_eq_some_iff] at hr
          obtain ⟨t', -, rfl⟩ := hr
          refine ⟨groups, order, hnext _ rfl, (List.mem_cons.mp hgroup).resolve_left ?_⟩
          -- in the group itself the section is late and would have ended the lease
          rintro rfl
          simp only [endsLease, hi, decide_eq_false_iff_not, true_and] at hends
          exact hends hlate
      | cons msg timedOut =>
        rw [Task.resume, Option.some_inj] at hr
        exact ⟨groups, timedOut, hnext _ (hr ▸ rfl), hgroup⟩
    · exact absurd hwait (by simp)

/-- **The second stage.** -/
theorem Failed.step (hopen : s.topic.IsOpen)
    (hinterval : s.topic.tw.interval = 50 * millisecond) (h : s.Failed pub)
    (hstep : s.step l = some s') :
    s'.Failed pub ∨ (∃ k ≤ 200, s'.Scheduled pub k) ∨ s'.Returned pub := by
  obtain ⟨task, htask, hfailing, hpub⟩ := h
  rcases mem_tasks_step htask hstep with hmem | ⟨i, now, order, r, -, -, hr, htopic, hnext⟩ |
    ⟨g, c, rfl⟩
  · exact Or.inl ⟨task, hmem, hfailing, hpub⟩
  · cases task with
    | sweep groups timedOut =>
      cases timedOut with
      | nil => exact absurd hpub List.not_mem_nil
      | cons msg timedOut =>
        rw [Task.resume, Option.some_inj] at hr
        subst hr
        rcases List.mem_cons.mp hpub with heq | hpub
        · right
          rw [heq]
          exact scheduled_or_returned_route hopen hinterval (ConsumerGroup.prompt_sweepRoute _)
            htopic
        · exact Or.inl ⟨_, hnext _ rfl, rfl, hpub⟩
    | fail msg reason =>
      rw [Task.resume, Option.map_eq_some_iff] at hr
      obtain ⟨route, hroute, rfl⟩ := hr
      right
      rw [List.mem_singleton.mp hpub]
      exact scheduled_or_returned_route hopen hinterval (ConsumerGroup.prompt_nackRoute hroute)
        htopic
    | publish | popWait | checkout | ack | nack | expire | replay | closeRing | closeWheel =>
      exact absurd hfailing Bool.false_ne_true
  · exact absurd hfailing Bool.false_ne_true

/-- **The third stage.** Only a tick moves the message on. -/
theorem Scheduled.step {k : ℕ} (hopen : s'.topic.IsOpen) (h : s.Scheduled pub k)
    (hstep : s.step l = some s') :
    (∃ k', k' + l.ticks = k ∧ s'.Scheduled pub k') ∨ s'.Dispatched pub := by
  obtain ⟨msg, hmsg, rfl⟩ := List.mem_map.mp h
  by_cases htick : l = .call .advance
  · subst htick
    obtain rfl := Option.some_inj.mp hstep
    cases k with
    | zero =>
      right
      refine ⟨s.topic.tw.advance.1, List.mem_append_right _ (List.mem_singleton_self _), ?_⟩
      rw [TimingWheel.advance_fst]
      exact h
    | succ k =>
      refine Or.inl ⟨k, rfl, List.mem_map_of_mem ?_⟩
      change msg ∈ s.topic.tw.advance.2.due k
      rw [TimingWheel.due_advance]
      exact TimingWheel.mem_turn.mpr hmsg
  · have hticks : l.ticks = 0 := by
      cases l with
      | call c => cases c <;> first | rfl | exact absurd rfl htick
      | resume => rfl
      | giveUp => rfl
    -- the wheel has seen nothing but calls of `Add`
    obtain ⟨ops, hops, hcount⟩ := turns_step hstep hopen.wheel
    refine Or.inl ⟨k, by rw [hticks, Nat.add_zero], List.mem_map_of_mem ?_⟩
    rw [hops]
    exact TimingWheel.mem_due_after (hcount.trans hticks) hmsg

/-- **The last stage.** -/
theorem Dispatched.step (hopen : s.topic.IsOpen) (h : s.Dispatched pub)
    (hstep : s.step l = some s') : s'.Dispatched pub ∨ s'.Returned pub := by
  obtain ⟨msgs, htask, hpub⟩ := h
  rcases mem_tasks_step htask hstep with hmem | ⟨i, now, order, r, -, -, hr, htopic, hnext⟩ |
    ⟨g, c, hwait⟩
  · exact Or.inl ⟨msgs, hmem, hpub⟩
  · cases msgs with
    | nil => exact absurd hpub List.not_mem_nil
    | cons msg msgs =>
      obtain rfl := Option.some_inj.mp hr
      rcases List.mem_cons.mp hpub with heq | hpub
      · refine Or.inr (Or.inl (List.mem_map.mpr ⟨msg, ?_, heq.symm⟩))
        rw [htopic]
        exact s.topic.ring.mem_push msg hopen.ring
      · exact Or.inl ⟨msgs, hnext _ rfl, hpub⟩
  · exact absurd hwait (by simp)

end Steps

/-! ## Runs -/

section Runs

variable {s v u : TopicState} {t : Topic} {name : Bytes} {capacity : UInt64}
  {groupName msgID : Bytes} {p : PendingMessage} {before after : List TopicLabel}

/-- What the stages need to know of a state. -/
structure Steady (s : TopicState) : Prop where
  isOpen : s.topic.IsOpen
  interval : s.topic.tw.interval = 50 * millisecond
  nodup : s.weight.Nodup

private theorem steady_of_run (hnew : Topic.newTopic name capacity = some t)
    (hbefore : Run step (fun s ↦ s.topic.IsOpen) (init t) before s)
    (hafter : Run step (fun s ↦ s.topic.IsOpen) s after u)
    (hdistinct : (TopicLabel.issuedIds (before ++ after)).Nodup) : Run step Steady s after u := by
  refine hafter.strengthen fun front back w heq hfront ↦ ?_
  have hrun := hbefore.append hfront
  refine ⟨hfront.ok_right, ?_, ?_⟩
  · obtain ⟨ops, hops, -⟩ := turns_run (hrun.mono fun _ h ↦ h.wheel)
    have hframe := congrArg Prod.fst (TimingWheel.frame_after ops t.tw)
    rw [Topic.newTopic, Option.map_eq_some_iff] at hnew
    obtain ⟨ring, -, rfl⟩ := hnew
    rw [hops]
    exact hframe
  · refine nodup_weight_of_run hnew hrun ?_
    rw [heq, ← List.append_assoc, TopicLabel.issuedIds, List.flatMap_append] at hdistinct
    exact hdistinct.of_append_left

/-- **A sweep from its start to its end.** Then the message waits in the wheel, or a tick has it,
or it has come back in the meantime. -/
theorem scheduled_or_meets_of_sweep (hrun : Run step Steady s after v)
    (hleased : s.Leased groupName msgID p) (hlate : ∀ l ∈ after, l.NotBefore p.ackDeadline)
    (hswept : ∀ task ∈ v.tasks, task.isFailing = false) :
    ((∃ k ≤ 200, v.Scheduled p.message.publication k) ∨ v.Dispatched p.message.publication) ∨
      Run.Meets step Steady (Returned p.message.publication) s after v := by
  have hprogress := hrun.progress (Q := Returned p.message.publication)
    (P := fun _ s ↦ s.Leased groupName msgID p ∨ s.Failed p.message.publication ∨
      (∃ k ≤ 200, s.Scheduled p.message.publication k) ∨ s.Dispatched p.message.publication)
    (fun _ s l s' hs hs' hlate hstep h ↦ ?_) hlate (Or.inl hleased)
  · -- the first two stages need an operation that is no longer there
    rcases hprogress with (⟨-, groups, timedOut, htask, -⟩ | ⟨task, htask, hfailing, -⟩ | hway) |
      hmeets
    · exact absurd (hswept _ htask) (Bool.false_ne_true ∘ Eq.symm)
    · exact absurd ((hswept _ htask).symm.trans hfailing) Bool.false_ne_true
    · exact Or.inl hway
    · exact Or.inr hmeets
  · rcases h with h | h | ⟨k, hk, h⟩ | h
    · rcases h.step hs.nodup hlate hstep with h' | h' | h'
      · exact Or.inl (Or.inl h')
      · exact Or.inl (Or.inr (Or.inl h'))
      · exact Or.inr h'
    · rcases h.step hs.isOpen hs.interval hstep with h' | h' | h'
      · exact Or.inl (Or.inr (Or.inl h'))
      · exact Or.inl (Or.inr (Or.inr (Or.inl h')))
      · exact Or.inr h'
    · left; right; right
      rcases h.step hs'.isOpen hstep with ⟨k', hk', h'⟩ | h'
      · exact Or.inl ⟨k', by omega, h'⟩
      · exact Or.inr h'
    · rcases h.step hs.isOpen hstep with h' | h'
      · exact Or.inl (Or.inr (Or.inr (Or.inr h')))
      · exact Or.inr h'

/-- **Enough ticks**, each from its start to its end. -/
theorem meets_of_ticks {pub : Publication} (hrun : Run step Steady v after u)
    (hway : (∃ k ≤ 200, v.Scheduled pub k) ∨ v.Dispatched pub)
    (hcount : 200 < (after.map TopicLabel.ticks).sum)
    (hexpired : ∀ task ∈ u.tasks, task.isExpiring = false) :
    Run.Meets step Steady (Returned pub) v after u := by
  have hprogress := hrun.progress (Q := Returned pub)
    (P := fun ls s ↦ (∃ k, k + (ls.map TopicLabel.ticks).sum ≤ 200 ∧ s.Scheduled pub k) ∨
      s.Dispatched pub)
    (fun ls s l s' hs hs' _ hstep h ↦ ?_) (fun _ _ ↦ (trivial : True)) hway
  · -- there were too many ticks for the wheel, and no tick is left unfinished
    rcases hprogress with (⟨k, hk, -⟩ | ⟨msgs, htask, -⟩) | hmeets
    · omega
    · exact absurd (hexpired _ htask) (Bool.false_ne_true ∘ Eq.symm)
    · exact hmeets
  · rcases h with ⟨k, hk, h⟩ | h
    · left
      rcases h.step hs'.isOpen hstep with ⟨k', hk', h'⟩ | h'
      · refine Or.inl ⟨k', ?_, h'⟩
        rw [List.map_append, List.sum_append, List.map_singleton, List.sum_singleton]
        omega
      · exact Or.inr h'
    · exact (h.step hs.isOpen hstep).imp_left Or.inr

private theorem publication_mem_of_pendingEntry (hnew : Topic.newTopic name capacity = some t)
    (hrun : Run step (fun s ↦ s.topic.IsOpen) (init t) before s)
    (hpending : s.topic.pendingEntry groupName msgID = some p) :
    ∃ msg ∈ before.flatMap TopicLabel.brings, p.message.publication = msg.publication := by
  obtain ⟨cg, hcg, hp⟩ := pendingEntry_eq_some.mp hpending
  have hholds : s.Holds (.pel groupName) p.message :=
    Or.inl ⟨cg, hcg, List.mem_map_of_mem (f := fun e : (_ : Bytes) × PendingMessage ↦ e.2.message)
      (AList.mem_lookup_iff.mp hp)⟩
  obtain ⟨n, hlife⟩ := exists_life (not_holds_init hnew) (hrun.mono fun _ _ ↦ trivial) hholds
  exact hlife.publication_mem

/-- **A lease that has run out.** Take any interleaving of the operations of an open topic, with
pairwise distinct identifiers, and let a message be pending. After its deadline a sweep starts and
comes to its end, and so do the `Nack`s in progress; then there are two hundred ticks of the wheel
and one more, which come to their ends too. The message was published before, and by then it has
been back in the ring with the payload that it was published with, or has become a dead letter, or
has been acknowledged. -/
theorem returned_after_deadline (hnew : Topic.newTopic name capacity = some t)
    {order : List Bytes} {sweeping ticking : List TopicLabel}
    (hbefore : Run step (fun s ↦ s.topic.IsOpen) (init t) before s)
    (hpending : s.topic.pendingEntry groupName msgID = some p)
    (hsweep : Run step (fun s ↦ s.topic.IsOpen) s
      (.call (.sweepConsumerTimeouts order) :: sweeping) v)
    (hlate : ∀ l ∈ sweeping, l.NotBefore p.ackDeadline)
    (hswept : ∀ task ∈ v.tasks, task.isFailing = false)
    (hticks : Run step (fun s ↦ s.topic.IsOpen) v ticking u)
    (hcount : 200 < (ticking.map TopicLabel.ticks).sum)
    (hexpired : ∀ task ∈ u.tasks, task.isExpiring = false)
    (hdistinct : (TopicLabel.issuedIds
      (before ++ (.call (.sweepConsumerTimeouts order) :: sweeping ++ ticking))).Nodup) :
    (∃ msg ∈ before.flatMap TopicLabel.brings, p.message.publication = msg.publication) ∧
    Run.Meets step (fun s ↦ s.topic.IsOpen) (Returned p.message.publication) s
      (.call (.sweepConsumerTimeouts order) :: sweeping ++ ticking) u := by
  refine ⟨publication_mem_of_pendingEntry hnew hbefore hpending, ?_⟩
  rw [← List.append_assoc] at hdistinct
  have hticks' := steady_of_run hnew (hbefore.append hsweep) hticks hdistinct
  rw [TopicLabel.issuedIds, List.flatMap_append] at hdistinct
  have hsweep' := steady_of_run hnew hbefore hsweep hdistinct.of_append_left
  refine Run.Meets.mono (fun s (h : Steady s) ↦ h.isOpen) ?_
  cases hsweep' with
  | @cons _ s₁ _ _ _ hs hstart hrest =>
    have hleased : s₁.Leased groupName msgID p := leased_sweep hpending hstart
    have hfirst : Run step Steady s [.call (.sweepConsumerTimeouts order)] s₁ :=
      Run.cons hs hstart (Run.nil hrest.ok_left)
    have hmeets : Run.Meets step Steady (Returned p.message.publication) s₁
        (sweeping ++ ticking) u := by
      rcases scheduled_or_meets_of_sweep hrest hleased hlate hswept with hway | hmeets
      · exact (meets_of_ticks hticks' hway hcount hexpired).append_left hrest
      · exact hmeets.append_right hticks'
    have hwhole := hmeets.append_left hfirst
    rwa [List.singleton_append] at hwhole

def desertedJob : Message :=
  ⟨bytesOf "m", bytesOf "q", none, Headers.empty, 0, 0, 0, 0, 3, [], 0, []⟩

/-- A consumer takes a message and is never heard of again. -/
theorem returned_after_deadline_deserted :
    ∃ t s v u p, Topic.newTopic (bytesOf "q") 4 = some t ∧
      Run step (fun s ↦ s.topic.IsOpen) (init t)
        [.call (.publish desertedJob false), .resume 0 0 [],
          .call (.consumeGroup (bytesOf "g") (bytesOf "c")), .resume 0 0 [], .resume 0 0 []] s ∧
      s.topic.pendingEntry (bytesOf "g") (bytesOf "m") = some p ∧
      Run step (fun s ↦ s.topic.IsOpen) s
        [.call (.sweepConsumerTimeouts [bytesOf "g"]), .resume 0 (30 * second) [p.message],
          .resume 0 (30 * second) [], .resume 0 (30 * second) []] v ∧
      Run step (fun s ↦ s.topic.IsOpen) v
        ((List.replicate 10 (tick 0)).flatten ++ tick 1 ++
          (List.replicate 190 (tick 0)).flatten) u ∧
      Run.Meets step (fun s ↦ s.topic.IsOpen) (Returned desertedJob.publication) s
        ([.call (.sweepConsumerTimeouts [bytesOf "g"]), .resume 0 (30 * second) [p.message],
          .resume 0 (30 * second) [], .resume 0 (30 * second) []] ++
          ((List.replicate 10 (tick 0)).flatten ++ tick 1 ++
            (List.replicate 190 (tick 0)).flatten)) u := by
  let before : List TopicLabel :=
    [.call (.publish desertedJob false), .resume 0 0 [],
      .call (.consumeGroup (bytesOf "g") (bytesOf "c")), .resume 0 0 [], .resume 0 0 []]
  let p : PendingMessage :=
    ⟨{ desertedJob with consumerID := bytesOf "c", ackDeadline := 30 * second }, bytesOf "c", 0,
      30 * second⟩
  let sweeping : List TopicLabel :=
    [.resume 0 (30 * second) [p.message], .resume 0 (30 * second) [], .resume 0 (30 * second) []]
  let ticking : List TopicLabel :=
    (List.replicate 10 (tick 0)).flatten ++ tick 1 ++ (List.replicate 190 (tick 0)).flatten
  let t := (Topic.newTopic (bytesOf "q") 4).get (by decide +kernel)
  have hnew : Topic.newTopic (bytesOf "q") 4 = some t := (Option.some_get _).symm
  let s := (Run.exec step (fun s ↦ s.topic.IsOpen) (init t) before).get (by decide +kernel)
  have hbefore : Run step (fun s ↦ s.topic.IsOpen) (init t) before s :=
    Run.of_exec (Option.some_get _).symm
  let v := (Run.exec step (fun s ↦ s.topic.IsOpen) s
    (.call (.sweepConsumerTimeouts [bytesOf "g"]) :: sweeping)).get (by decide +kernel)
  have hsweep : Run step (fun s ↦ s.topic.IsOpen) s
      (.call (.sweepConsumerTimeouts [bytesOf "g"]) :: sweeping) v :=
    Run.of_exec (Option.some_get _).symm
  have hexec : (Run.exec step (fun s ↦ s.topic.IsOpen) v ticking).map TopicState.tasks
      = some [] := by decide +kernel
  obtain ⟨u, hu, htasks⟩ := Option.map_eq_some_iff.mp hexec
  have hticks : Run step (fun s ↦ s.topic.IsOpen) v ticking u := Run.of_exec hu
  have hpending : s.topic.pendingEntry (bytesOf "g") (bytesOf "m") = some p := by decide +kernel
  have hlate : ∀ l ∈ sweeping, l.NotBefore p.ackDeadline := by decide +kernel
  have hswept : ∀ task ∈ v.tasks, task.isFailing = false := by decide +kernel
  have hcount : 200 < (ticking.map TopicLabel.ticks).sum := by decide +kernel
  have hexpired : ∀ task ∈ u.tasks, task.isExpiring = false := by
    rw [htasks]
    exact fun _ h ↦ absurd h List.not_mem_nil
  have hdistinct : (TopicLabel.issuedIds (before ++
      (.call (.sweepConsumerTimeouts [bytesOf "g"]) :: sweeping ++ ticking))).Nodup := by
    decide +kernel
  exact ⟨t, s, v, u, p, hnew, hbefore, hpending, hsweep, hticks,
    (returned_after_deadline hnew hbefore hpending hsweep hlate hswept hticks hcount hexpired
      hdistinct).2⟩

end Runs

end TopicState

end VortexMQ
