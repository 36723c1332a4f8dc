import VortexMQ.Queue.RetryBudget
import VortexMQ.Queue.Topicwise
import VortexMQ.Queue.Totals

/-!
# The counts on the messages

`Nack` shifts by the number of failures less one, so a message with a negative count would bring the
process down at its next failure. No such message exists: messages are made with a count of zero and
a limit of three, recovery brings back what was made, a failure adds one, and a message that has
reached its limit goes to the dead letter queue, from which it returns with a count of zero.

`Topic.Sound` says so of the messages in a topic. It is kept by every critical section, hence by
every operation of the broker, however these are interleaved.
-/

namespace VortexMQ

/-- A message that may fail once more. -/
structure Message.Live (m : Message) : Prop where
  nonneg : 0 ≤ m.retryCount
  lt : m.retryCount < 3
  limit : m.maxRetries = 3

namespace Message

variable {m : Message}

theorem Issued.live (h : m.Issued) : m.Live := by
  obtain ⟨hretry, hmax⟩ := h.counters
  exact ⟨hretry.ge, hretry.trans_lt (by decide), hmax⟩

theorem live_message (st : Stamp) (topic : Bytes) (payload : Option Bytes) :
    (st.message topic payload).Live := ⟨le_rfl, (by decide : (0 : ℤ) < 3), rfl⟩

theorem live_revive (hmax : m.maxRetries = 3) (now : ℤ) : (Topic.revive m now).Live :=
  ⟨le_rfl, (by decide : (0 : ℤ) < 3), hmax⟩

theorem Live.retryCount_fail (h : m.Live) (cause : Bytes) :
    (ConsumerGroup.fail m cause).retryCount = m.retryCount + 1 := by
  have hlt := h.lt
  have hnonneg := h.nonneg
  exact wrap64_of_mem (by omega) (by omega)

theorem Live.fail (h : m.Live) {cause : Bytes}
    (hlt : ¬(ConsumerGroup.fail m cause).maxRetries ≤ (ConsumerGroup.fail m cause).retryCount) :
    (ConsumerGroup.fail m cause).Live := by
  have hlimit : (ConsumerGroup.fail m cause).maxRetries = 3 := h.limit
  rw [hlimit, not_le] at hlt
  refine ⟨?_, hlt, hlimit⟩
  rw [h.retryCount_fail]
  exact Int.add_nonneg h.nonneg (by decide)

theorem Live.of_nackRoute (h : m.Live) {cause : Bytes} {delay : ℤ}
    (hroute : ConsumerGroup.nackRoute (ConsumerGroup.fail m cause) = some (.retry delay)) :
    (ConsumerGroup.fail m cause).Live := by
  rw [ConsumerGroup.nackRoute] at hroute
  split at hroute
  · cases Option.some_inj.mp hroute
  · rename_i hlt
    exact h.fail hlt

theorem Live.of_sweepRoute (h : m.Live) {cause : Bytes} {delay : ℤ}
    (hroute : ConsumerGroup.sweepRoute (ConsumerGroup.fail m cause) = .retry delay) :
    (ConsumerGroup.fail m cause).Live := by
  rw [ConsumerGroup.sweepRoute] at hroute
  split at hroute
  · cases hroute
  · rename_i hlt
    exact h.fail hlt

end Message

/-- Every message in the pending list of the group may fail once more. -/
def ConsumerGroup.Sound (cg : ConsumerGroup) : Prop := ∀ e ∈ cg.pel.entries, e.2.message.Live

/-- The limits in the dead letter queue are what they should be. -/
def DeadLetterQueue.Sound (dlq : DeadLetterQueue) : Prop :=
  ∀ e ∈ dlq.entries.entries, e.2.message.maxRetries = 3

/-- All messages of the topic are in order. -/
structure Topic.Sound (t : Topic) : Prop where
  ring : ∀ m ∈ t.ring.items, m.Live
  wheel : ∀ m ∈ t.tw.messages, m.Live
  groups : ∀ groupName cg, t.groups.lookup groupName = some cg → cg.Sound
  dlq : t.dlq.Sound

/-! ## The parts of a topic -/

namespace ConsumerGroup

variable {cg : ConsumerGroup}

private theorem sound_newConsumerGroup (name topicName : Bytes) (timeout : ℤ) :
    (newConsumerGroup name topicName timeout).Sound := fun _ he ↦ absurd he List.not_mem_nil

theorem Sound.checkout (h : cg.Sound) {msg : Message} (hmsg : msg.Live) (consumerID : Bytes)
    (customTimeout now : ℤ) : (cg.checkout msg consumerID customTimeout now).Sound := by
  intro e he
  rw [ConsumerGroup.checkout, AList.entries_insert, List.mem_cons] at he
  rcases he with rfl | he
  · exact ⟨hmsg.nonneg, hmsg.lt, hmsg.limit⟩
  · exact h e ((List.kerase_sublist _ _).subset he)

theorem Sound.delete (h : cg.Sound) (msgID : Bytes) : (cg.delete msgID).Sound :=
  fun e he ↦ h e ((List.kerase_sublist _ _).subset he)

theorem Sound.nackTake (h : cg.Sound) {msgID : Bytes} {r : Message × ConsumerGroup}
    (hr : cg.nackTake msgID = some r) : r.1.Live ∧ r.2.Sound := by
  obtain ⟨pending, hpending, rfl⟩ := Option.map_eq_some_iff.mp hr
  exact ⟨h _ (AList.mem_lookup_iff.mp hpending), h.delete msgID⟩

theorem Sound.sweepTake (h : cg.Sound) (now : ℤ) : (cg.sweepTake now).Sound :=
  fun e he ↦ h e (List.mem_of_mem_filter he)

theorem Sound.expired (h : cg.Sound) {now : ℤ} {msg : Message}
    (hmsg : msg ∈ (cg.expired now).map PendingMessage.message) : msg.Live := by
  obtain ⟨pending, hpending, rfl⟩ := List.mem_map.mp hmsg
  obtain ⟨e, he, rfl⟩ := List.mem_map.mp (List.mem_of_mem_filter hpending)
  exact h e he

end ConsumerGroup

namespace DeadLetterQueue

variable {dlq : DeadLetterQueue}

theorem Sound.drop (h : dlq.Sound) (id : Bytes) : (dlq.drop id).Sound :=
  fun e he ↦ h e ((List.kerase_sublist _ _).subset he)

theorem Sound.remove (h : dlq.Sound) {msgID : Bytes} {r : Message × DeadLetterQueue}
    (hr : dlq.remove msgID = some r) : r.1.maxRetries = 3 ∧ r.2.Sound := by
  obtain ⟨entry, hentry, rfl⟩ := Option.map_eq_some_iff.mp hr
  exact ⟨h _ (AList.mem_lookup_iff.mp hentry), h.drop msgID⟩

theorem Sound.add (h : dlq.Sound) {msg : Message} (hmsg : msg.maxRetries = 3) (cause : Bytes)
    (now : ℤ) : (dlq.add msg cause now).Sound := by
  intro e he
  rcases mem_entries_add he with rfl | he
  · exact hmsg
  · exact h e he

end DeadLetterQueue

/-! ## Topics -/

namespace Topic.Sound

variable {t t' : Topic} {msg : Message}

theorem setGroup (h : t.Sound) {cg : ConsumerGroup} (hcg : cg.Sound) (groupName : Bytes) :
    (t.setGroup groupName cg).Sound := by
  refine ⟨h.ring, h.wheel, fun groupName' cg' hlookup ↦ ?_, h.dlq⟩
  by_cases hname : groupName' = groupName
  · subst hname
    rw [Topic.setGroup, AList.lookup_insert, Option.some_inj] at hlookup
    exact hlookup ▸ hcg
  · rw [Topic.setGroup, AList.lookup_insert_ne hname] at hlookup
    exact h.groups groupName' cg' hlookup

theorem getOrCreateGroup (h : t.Sound) (groupName : Bytes) (timeout : ℤ) :
    (t.getOrCreateGroup groupName timeout).Sound := by
  rw [Topic.getOrCreateGroup]
  split
  · exact h
  · exact h.setGroup (ConsumerGroup.sound_newConsumerGroup _ _ _) groupName

theorem onExpire (h : t.Sound) (hmsg : msg.Live) : (t.onExpire msg).Sound := by
  refine ⟨fun m hm ↦ ?_, h.wheel, h.groups, h.dlq⟩
  rcases Ring.mem_of_mem_push hm with rfl | hm
  · exact hmsg
  · exact h.ring m hm

theorem push (h : t.Sound) (hmsg : msg.Live) (front : Bool) : (t.push msg front).2.Sound := by
  obtain ⟨-, -, htw, hgroups, hdlq⟩ := t.fields_push msg front
  refine ⟨fun m hm ↦ ?_, htw ▸ h.wheel, hgroups ▸ h.groups, hdlq ▸ h.dlq⟩
  rcases Topic.mem_of_mem_push hm with hm | ⟨-, rfl⟩
  · exact h.ring m hm
  · exact hmsg

private theorem runPublish (h : t.Sound) (hmsg : msg.Live) (front : Bool) :
    (t.runPublish msg front).2.Sound := by
  rw [Topic.runPublish]
  split
  · exact h
  · exact h.push hmsg front

theorem schedule (h : t.Sound) (hmsg : msg.Live) (delay : ℤ) : (t.schedule msg delay).Sound := by
  rw [Topic.schedule, TimingWheel.add]
  by_cases hdelay : delay ≤ 0
  · rw [if_pos hdelay]
    exact h.onExpire hmsg
  · rw [if_neg hdelay]
    by_cases hclosed : t.tw.closed
    · rw [if_pos hclosed]
      exact h
    · rw [if_neg hclosed]
      refine ⟨h.ring, fun m hm ↦ ?_, h.groups, h.dlq⟩
      rcases List.mem_cons.mp ((t.tw.messages_insert_perm msg delay).mem_iff.mp hm) with rfl | hm
      · exact hmsg
      · exact h.wheel m hm

theorem publishDelayed (h : t.Sound) (hmsg : msg.Live) (delay now : ℤ) :
    (t.publishDelayed msg delay now).Sound := by
  have hcount : (t.countPublished msg).Sound := ⟨h.ring, h.wheel, h.groups, h.dlq⟩
  have hlive : { msg with deliverAt := wrap64 (now + delay) }.Live :=
    ⟨hmsg.nonneg, hmsg.lt, hmsg.limit⟩
  exact hcount.schedule hlive delay

theorem pop (h : t.Sound) (hpop : t.pop = some (msg, t')) : msg.Live ∧ t'.Sound := by
  rw [Topic.pop, Option.map_eq_some_iff] at hpop
  obtain ⟨m, hm, heq⟩ := hpop
  obtain ⟨rfl, rfl⟩ := Prod.mk.inj heq
  obtain ⟨hhead, htail, -⟩ := t.ring.pop_eq
  rw [hhead] at hm
  refine ⟨h.ring m (List.mem_of_mem_head? hm), fun m' hm' ↦ ?_, h.wheel, h.groups, h.dlq⟩
  rw [htail] at hm'
  exact h.ring m' (List.mem_of_mem_tail hm')

theorem countConsumed (h : t.Sound) (msg : Message) : (t.countConsumed msg).Sound :=
  ⟨h.ring, h.wheel, h.groups, h.dlq⟩

private theorem consume (h : t.Sound) {r : Message × Topic} (hr : t.consume = some r) :
    r.2.Sound := by
  obtain ⟨⟨m, t₁⟩, hpop, rfl⟩ := Option.map_eq_some_iff.mp hr
  exact (h.pop hpop).2.countConsumed m

theorem checkout (h : t.Sound) {groupName consumerID : Bytes} {now : ℤ} (hmsg : msg.Live)
    (ht' : t.checkout groupName consumerID msg now = some t') : t'.Sound := by
  obtain ⟨cg, hcg, rfl⟩ := Option.map_eq_some_iff.mp ht'
  exact (h.setGroup ((h.groups groupName cg hcg).checkout hmsg _ _ _) groupName).countConsumed msg

theorem ack (h : t.Sound) {groupName msgID : Bytes} {r : Bool × Topic}
    (hr : t.ack groupName msgID = some r) : r.2.Sound := by
  obtain ⟨cg, hcg, rfl⟩ := Option.map_eq_some_iff.mp hr
  have hack : (cg.ack msgID).2.Sound := by
    rw [ConsumerGroup.ack]
    split
    · exact (h.groups groupName cg hcg).delete msgID
    · exact h.groups groupName cg hcg
  split
  · have hset := h.setGroup hack groupName
    exact ⟨hset.ring, hset.wheel, hset.groups, hset.dlq⟩
  · exact h

/-- A failed message goes to the dead letter queue, or may fail once more. -/
theorem route (h : t.Sound) (m : Message) {r : ConsumerGroup.Route} (hmax : m.maxRetries = 3)
    (hretry : ∀ delay, r = .retry delay → m.Live) (now : ℤ) : (t.route m now r).Sound := by
  cases r with
  | deadLetter => exact ⟨h.ring, h.wheel, h.groups, h.dlq.add hmax _ _⟩
  | retry delay => exact h.schedule (hretry delay rfl) delay

private theorem routeExpired (h : t.Sound) (hmsg : msg.Live) (now : ℤ) :
    (Topic.routeExpired now t msg).Sound :=
  h.route (ConsumerGroup.fail msg ConsumerGroup.timeoutCause) hmsg.limit
    (fun _ hr ↦ hmsg.of_sweepRoute hr) now

theorem nackRoute (h : t.Sound) (hmsg : msg.Live) {reason : Bytes} {r : ConsumerGroup.Route}
    (hr : ConsumerGroup.nackRoute (ConsumerGroup.fail msg reason) = some r) (now : ℤ) (n : UInt64) :
    { t.route (ConsumerGroup.fail msg reason) now r with nacked := n }.Sound := by
  have hroute := h.route (r := r) (ConsumerGroup.fail msg reason) hmsg.limit
    (fun _ heq ↦ hmsg.of_nackRoute (hr.trans (congrArg some heq))) now
  exact ⟨hroute.ring, hroute.wheel, hroute.groups, hroute.dlq⟩

theorem remove (h : t.Sound) {msgID : Bytes} {r : Message × DeadLetterQueue}
    (hr : t.dlq.remove msgID = some r) : r.1.maxRetries = 3 ∧ { t with dlq := r.2 }.Sound :=
  ⟨(h.dlq.remove hr).1, h.ring, h.wheel, h.groups, (h.dlq.remove hr).2⟩

private theorem advance (h : t.Sound) :
    (∀ m ∈ t.tw.advance.1, m.Live) ∧ { t with tw := t.tw.advance.2 }.Sound := by
  have hperm := t.tw.messages_advance_perm
  exact ⟨fun m hm ↦ h.wheel m (hperm.mem_iff.mp (List.mem_append_left _ hm)), h.ring,
    fun m hm ↦ h.wheel m (hperm.mem_iff.mp (List.mem_append_right _ hm)), h.groups, h.dlq⟩

theorem closeRing (h : t.Sound) : { t with ring := t.ring.close }.Sound :=
  ⟨fun m hm ↦ h.ring m (t.ring.items_close ▸ hm), h.wheel, h.groups, h.dlq⟩

/-! ### Operations from start to end -/

theorem popWait (h : t.Sound) {timeout : ℤ} {r : Option Message × Topic}
    (hr : t.popWait timeout = some r) : (∀ m ∈ r.1, m.Live) ∧ r.2.Sound := by
  rw [Topic.popWait] at hr
  split at hr
  · rename_i m t' hpop
    rw [← Option.some_inj.mp hr]
    refine ⟨?_, (h.pop hpop).2⟩
    rintro m' ⟨⟩
    exact (h.pop hpop).1
  · rw [Option.ite_none_right_eq_some] at hr
    rw [← Option.some_inj.mp hr.2]
    exact ⟨fun m hm ↦ absurd hm (Option.not_mem_none m), h⟩

private theorem runConsumeWait (h : t.Sound) {timeout : ℤ} {r : Option Message × Topic}
    (hr : t.runConsumeWait timeout = some r) : r.2.Sound := by
  obtain ⟨⟨m, t₁⟩, hpop, rfl⟩ := Option.map_eq_some_iff.mp hr
  have ht₁ : t₁.Sound := (h.popWait hpop).2
  cases m with
  | none => exact ht₁
  | some m => exact ht₁.countConsumed m

private theorem runConsumeGroup (h : t.Sound) {groupName consumerID : Bytes} {timeout now : ℤ}
    {r : Option Message × Topic}
    (hr : t.runConsumeGroup groupName consumerID timeout now = some r) : r.2.Sound := by
  obtain ⟨⟨m, t₁⟩, hpop, hr⟩ := Option.bind_eq_some_iff.mp hr
  obtain ⟨hm, ht₁⟩ := (h.getOrCreateGroup groupName _).popWait hpop
  cases m with
  | none =>
    rw [← Option.some_inj.mp hr]
    exact ht₁
  | some m =>
    obtain ⟨cg, -, hr⟩ := Option.bind_eq_some_iff.mp hr
    obtain ⟨t₂, ht₂, rfl⟩ := Option.map_eq_some_iff.mp hr
    exact ht₁.checkout (hm m rfl) ht₂

private theorem runAck (h : t.Sound) (groupName msgID : Bytes) :
    (t.runAck groupName msgID).2.Sound := by
  rw [Topic.runAck]
  cases hack : t.ack groupName msgID with
  | none => exact h
  | some r => exact h.ack hack

private theorem runNack (h : t.Sound) {groupName msgID reason : Bytes} {now : ℤ} {r : Bool × Topic}
    (hr : t.runNack groupName msgID reason now = some r) : r.2.Sound := by
  rw [Topic.runNack] at hr
  split at hr
  · rw [← Option.some_inj.mp hr]
    exact h
  · rename_i m cg' htake
    obtain ⟨cg, hcg, htake⟩ := Option.bind_eq_some_iff.mp htake
    obtain ⟨hm, hcg'⟩ := (h.groups groupName cg hcg).nackTake htake
    obtain ⟨route, hroute, rfl⟩ := Option.map_eq_some_iff.mp hr
    exact (h.setGroup hcg' groupName).nackRoute hm hroute now _

private theorem runReplayDeadLetter (h : t.Sound) (msgID : Bytes) (now : ℤ) :
    (t.runReplayDeadLetter msgID now).2.Sound := by
  rw [Topic.runReplayDeadLetter]
  split
  · rename_i m dlq hremove
    obtain ⟨hmax, ht⟩ := h.remove hremove
    exact ht.onExpire (Message.live_revive hmax now)
  · exact h

end Topic.Sound

theorem Topic.sound_default (name : Bytes) : (Topic.default name).Sound := by
  obtain ⟨-, hitems⟩ := Topic.ring_default name
  have h : newTopic name 131072 = some (Topic.default name) := (Option.some_get _).symm
  obtain ⟨ring, -, heq⟩ := Option.map_eq_some_iff.mp h
  refine ⟨fun m hm ↦ absurd (hitems ▸ hm) List.not_mem_nil, ?_, ?_, ?_⟩
  · rw [← heq]
    intro m hm
    rw [TimingWheel.messages_newTimingWheel] at hm
    exact absurd hm List.not_mem_nil
  · rw [← heq]
    intro groupName cg hcg
    exact absurd hcg (by simp)
  · rw [← heq]
    exact fun e he ↦ absurd he List.not_mem_nil

theorem Topic.kept_sound : Topic.Kept Topic.Sound Message.Live where
  default := Topic.sound_default
  getOrCreateGroup := Topic.Sound.getOrCreateGroup
  runPublish := Topic.Sound.runPublish
  publishDelayed := Topic.Sound.publishDelayed
  runConsumeWait h hr := h.runConsumeWait hr
  runConsumeGroup h hr := h.runConsumeGroup hr
  runAck := Topic.Sound.runAck
  runNack h hr := h.runNack hr
  runReplayDeadLetter := Topic.Sound.runReplayDeadLetter

/-! ## Critical sections -/

def Call.Sound : Call → Prop
  | .publish msg _ | .publishDelayed msg _ _ => msg.Live
  | _ => True

def Task.Sound (task : Task) : Prop := ∀ m ∈ task.held, m.Live

namespace Task

theorem sound_none : ∀ task ∈ (none : Option Task), task.Sound :=
  fun task h ↦ absurd h (Option.not_mem_none task)

theorem sound_some {task : Task} (h : task.Sound) : ∀ task' ∈ some task, task'.Sound :=
  fun _ heq ↦ Option.some_inj.mp heq ▸ h

theorem sound_nil {task : Task} (h : task.held = []) : task.Sound :=
  fun _ hm ↦ absurd (h ▸ hm) List.not_mem_nil

theorem sound_singleton {task : Task} {m : Message} (h : task.held = [m]) (hm : m.Live) :
    task.Sound :=
  fun _ hmem ↦ List.mem_singleton.mp (h ▸ hmem) ▸ hm

end Task

namespace Topic.Sound

variable {t : Topic} {L : Ledger} {r : Section}

private theorem start (h : t.Sound) {call : Call} (hcall : call.Sound)
    (hr : t.start L call = some r) : r.1.Sound ∧ ∀ task ∈ r.2.2, task.Sound := by
  cases call with
  | publish msg front =>
    rw [Topic.start, Option.ite_none_left_eq_some] at hr
    obtain ⟨-, hr⟩ := hr
    split at hr
    · rw [← Option.some_inj.mp hr]
      exact ⟨h, Task.sound_none⟩
    · rw [← Option.some_inj.mp hr]
      exact ⟨h, Task.sound_some (Task.sound_singleton rfl hcall)⟩
  | publishDelayed msg delay now =>
    rw [← Option.some_inj.mp hr]
    exact ⟨h.publishDelayed hcall delay now, Task.sound_none⟩
  | consume =>
    rw [Topic.start] at hr
    split at hr
    · rename_i msg t' hconsume
      rw [← Option.some_inj.mp hr]
      exact ⟨h.consume hconsume, Task.sound_none⟩
    · rw [← Option.some_inj.mp hr]
      exact ⟨h, Task.sound_none⟩
  | consumeGroup groupName consumerID =>
    rw [Topic.start, Option.ite_none_left_eq_some] at hr
    rw [← Option.some_inj.mp hr.2]
    exact ⟨h.getOrCreateGroup _ _, Task.sound_some (Task.sound_nil rfl)⟩
  | ack groupName msgID | nack groupName msgID reason =>
    rw [Topic.start, Option.ite_none_left_eq_some] at hr
    rw [← Option.some_inj.mp hr.2]
    refine ⟨h, fun task htask ↦ ?_⟩
    rw [← Option.some_inj.mp (Option.ite_none_right_eq_some.mp htask).2]
    exact Task.sound_nil rfl
  | sweepConsumerTimeouts order =>
    rw [Topic.start, Option.ite_none_left_eq_some, Option.ite_none_right_eq_some] at hr
    rw [← Option.some_inj.mp hr.2.2]
    exact ⟨h, Task.sound_some (Task.sound_nil rfl)⟩
  | advance =>
    rw [← Option.some_inj.mp hr]
    exact ⟨h.advance.2, Task.sound_some h.advance.1⟩
  | replayDeadLetter msgID now =>
    rw [Topic.start] at hr
    split at hr
    · rename_i msg dlq hremove
      obtain ⟨hmax, ht⟩ := h.remove hremove
      rw [← Option.some_inj.mp hr]
      have hlive := Message.live_revive hmax now
      exact ⟨ht, Task.sound_some (Task.sound_singleton rfl hlive)⟩
    · rw [← Option.some_inj.mp hr]
      exact ⟨h, Task.sound_none⟩
  | dlqRemove msgID =>
    rw [Topic.start] at hr
    split at hr
    · rename_i msg dlq hremove
      rw [← Option.some_inj.mp hr]
      exact ⟨(h.remove hremove).2, Task.sound_none⟩
    · rw [← Option.some_inj.mp hr]
      exact ⟨h, Task.sound_none⟩
  | dlqPurge =>
    rw [← Option.some_inj.mp hr]
    exact ⟨⟨h.ring, h.wheel, h.groups, fun _ he ↦ absurd he List.not_mem_nil⟩, Task.sound_none⟩
  | close =>
    rw [Topic.start, Option.ite_none_left_eq_some] at hr
    obtain ⟨-, hr⟩ := hr
    split at hr
    · rw [← Option.some_inj.mp hr]
      exact ⟨h, Task.sound_none⟩
    · rw [← Option.some_inj.mp hr]
      exact ⟨⟨h.ring, h.wheel, h.groups, h.dlq⟩, Task.sound_some (Task.sound_nil rfl)⟩

private theorem resume (h : t.Sound) {task : Task} {now : ℤ} {order : List Message}
    (htask : task.Sound) (hr : task.resume t L now order = some r) :
    r.1.Sound ∧ ∀ task' ∈ r.2.2, task'.Sound := by
  cases task with
  | publish msg front =>
    rw [← Option.some_inj.mp hr]
    exact ⟨h.push (htask msg (List.mem_singleton.mpr rfl)) front, Task.sound_none⟩
  | popWait groupName consumerID =>
    obtain ⟨⟨msg, t'⟩, hpop, rfl⟩ := Option.map_eq_some_iff.mp hr
    obtain ⟨hmsg, ht'⟩ := h.pop hpop
    exact ⟨ht', Task.sound_some (Task.sound_singleton rfl hmsg)⟩
  | checkout groupName consumerID msg =>
    obtain ⟨t', ht', rfl⟩ := Option.map_eq_some_iff.mp hr
    exact ⟨h.checkout (htask msg (List.mem_singleton.mpr rfl)) ht', Task.sound_none⟩
  | ack groupName msgID =>
    obtain ⟨r', hr', rfl⟩ := Option.map_eq_some_iff.mp hr
    exact ⟨h.ack hr', Task.sound_none⟩
  | nack groupName msgID reason =>
    obtain ⟨cg, hcg, rfl⟩ := Option.map_eq_some_iff.mp hr
    cases htake : cg.nackTake msgID with
    | none => exact ⟨h, Task.sound_none⟩
    | some taken =>
      obtain ⟨hmsg, hcg'⟩ := (h.groups groupName cg hcg).nackTake htake
      exact ⟨h.setGroup hcg' groupName, Task.sound_some (Task.sound_singleton rfl hmsg)⟩
  | fail msg reason =>
    obtain ⟨route, hroute, rfl⟩ := Option.map_eq_some_iff.mp hr
    exact ⟨h.nackRoute (htask msg (List.mem_singleton.mpr rfl)) hroute now _, Task.sound_none⟩
  | sweep groups timedOut =>
    cases timedOut with
    | nil =>
      cases groups with
      | nil =>
        rw [← Option.some_inj.mp hr]
        exact ⟨h, Task.sound_none⟩
      | cons groupName groups =>
        obtain ⟨t', hsweep, rfl⟩ := Option.map_eq_some_iff.mp hr
        obtain ⟨cg, hcg, horder, rfl⟩ := Topic.sweepGroup_eq_some hsweep
        have hsound := h.groups groupName cg hcg
        exact ⟨h.setGroup (hsound.sweepTake now) groupName,
          Task.sound_some fun m hm ↦ hsound.expired (horder.mem_iff.mp hm)⟩
    | cons msg timedOut =>
      rw [Task.resume] at hr
      rw [← Option.some_inj.mp hr]
      exact ⟨h.routeExpired (htask msg List.mem_cons_self) now,
        Task.sound_some fun m hm ↦ htask m (List.mem_cons_of_mem _ hm)⟩
  | expire msgs =>
    cases msgs with
    | nil =>
      rw [← Option.some_inj.mp hr]
      exact ⟨h, Task.sound_none⟩
    | cons msg msgs =>
      rw [← Option.some_inj.mp hr]
      exact ⟨h.onExpire (htask msg List.mem_cons_self),
        Task.sound_some fun m hm ↦ htask m (List.mem_cons_of_mem _ hm)⟩
  | replay msg =>
    rw [← Option.some_inj.mp hr]
    exact ⟨h.onExpire (htask msg (List.mem_singleton.mpr rfl)), Task.sound_none⟩
  | closeRing =>
    rw [← Option.some_inj.mp hr]
    exact ⟨h.closeRing, Task.sound_some (Task.sound_nil rfl)⟩
  | closeWheel =>
    rw [← Option.some_inj.mp hr]
    exact ⟨⟨h.ring, h.wheel, h.groups, h.dlq⟩, Task.sound_none⟩

private theorem closeTopic (h : t.Sound) {t' : Topic} (ht' : PublishSystem.closeTopic t = some t') :
    t'.Sound := by
  rw [PublishSystem.closeTopic] at ht'
  split at ht'
  · rw [← Option.some_inj.mp ht']
    exact ⟨h.ring, h.wheel, h.groups, h.dlq⟩
  · split at ht'
    · rw [← Option.some_inj.mp ht']
      exact h.closeRing
    · rw [Option.ite_none_right_eq_some] at ht'
      rw [← Option.some_inj.mp ht'.2]
      exact ⟨h.ring, h.wheel, h.groups, h.dlq⟩

end Topic.Sound

/-! ## The broker -/

/-- The messages of every topic are in order, and no closed Go channel is in the maps. -/
structure Broker.Sound (b : Broker) : Prop where
  topics : ∀ name t, b.topics.lookup name = some t → t.Sound
  channels : ∀ name subs, b.channels.lookup name = some subs →
    ∀ sub ∈ subs, Subscriber.closed sub = false

/-- The subscribers of a channel are open. -/
def Subscriber.AllOpen (_ : Bytes) (subs : List Subscriber) : Prop :=
  ∀ sub ∈ subs, Subscriber.closed sub = false

theorem Broker.sound_iff {b : Broker} : b.Sound ↔ b.Every Topic.Sound Subscriber.AllOpen :=
  ⟨fun h ↦ ⟨h.topics, h.channels⟩, fun h ↦ ⟨h.topics, h.channels⟩⟩

namespace Broker.Sound

variable {b b' : Broker} {c : Codec} {t : Topic} {topicName groupName msgID : Bytes}

theorem of_eq (h : b.Sound) (htopics : b'.topics = b.topics)
    (hchannels : b'.channels = b.channels) : b'.Sound :=
  ⟨htopics ▸ h.topics, hchannels ▸ h.channels⟩

private theorem setTopic (h : b.Sound) (ht : t.Sound) (name : Bytes) : (b.setTopic name t).Sound :=
  sound_iff.mpr ((sound_iff.mp h).setTopic ht name)

private theorem getOrCreateTopic (h : b.Sound) (name : Bytes) : (b.getOrCreateTopic name).2.Sound :=
  sound_iff.mpr ((sound_iff.mp h).getOrCreateTopic Topic.kept_sound name).2

private theorem logPublish (h : b.Sound) {msg : Message} {r : Except Bytes Unit × Broker}
    (hr : b.logPublish c msg = some r) : r.2.Sound :=
  sound_iff.mpr ((sound_iff.mp h).logPublish hr)

private theorem logAck (h : b.Sound) (hb' : b.logAck topicName groupName msgID = some b') :
    b'.Sound :=
  sound_iff.mpr ((sound_iff.mp h).logAck hb')

private theorem addTotal (h : b.Sound) (n : UInt64) (k : Counter) : (b.addTotal n k).Sound := by
  cases k <;> exact h.of_eq rfl rfl

private theorem syncLog (h : b.Sound) : b.syncLog.Sound := h.of_eq rfl rfl

private theorem newBroker (wal : Option Wal) (now : ℤ) : (Broker.newBroker wal now).Sound :=
  sound_iff.mpr (Every.newBroker wal now)

private theorem foldl_recover {msgs : List Message} (h : b.Sound) (hmsgs : ∀ m ∈ msgs, m.Live) :
    (msgs.foldl Broker.recover b).Sound :=
  sound_iff.mpr (Every.foldl_recover Topic.kept_sound (sound_iff.mp h) hmsgs)

private theorem live_batchMessages (payloads : List (Option Bytes × Stamp)) :
    ∀ m ∈ Broker.batchMessages topicName payloads, m.Live := by
  intro m hm
  obtain ⟨p, -, rfl⟩ := List.mem_map.mp hm
  exact Message.live_message p.2 topicName p.1

end Broker.Sound

/-! ## Every run -/

/-- What an operation of the broker in progress has in its hands. -/
def Job.Sound : Job → Prop
  | .log _ call | .enter _ call => call.Sound
  | .inTopic _ task => task.Sound
  | .batch _ msgs _ => ∀ m ∈ msgs, m.Live
  | .batchCheck _ msg msgs _ | .batchPush _ msg msgs _ => ∀ m ∈ msg :: msgs, m.Live
  | _ => True

theorem Job.sound_none : ∀ job ∈ (none : Option Job), job.Sound :=
  fun job h ↦ absurd h (Option.not_mem_none job)

theorem Job.sound_some (job : Job) (h : job.Sound) : ∀ job' ∈ some job, job'.Sound :=
  fun _ heq ↦ Option.some_inj.mp heq ▸ h

theorem Job.sound_next {topicName : Bytes} {rest : Option Task} {report : Option Counter}
    {record : Option (Bytes × Bytes × Bytes)} (h : ∀ task ∈ rest, task.Sound) :
    ∀ job ∈ next topicName rest report record, job.Sound := by
  cases rest with
  | some task => exact sound_some (.inTopic topicName task) (h task rfl)
  | none =>
    intro job hjob
    obtain ⟨k, -, rfl⟩ := Option.map_eq_some_iff.mp hjob
    trivial

theorem Broker.Sound.job_step {c : Codec} {b : Broker} {now : ℤ} {order : List Message} {job : Job}
    {r : Broker × Option Job} (h : b.Sound) (hjob : job.Sound)
    (hr : job.step c b now order = some r) : r.1.Sound ∧ ∀ job' ∈ r.2, job'.Sound := by
  cases job with
  | log msg call =>
    obtain ⟨r', hr', rfl⟩ := Option.map_eq_some_iff.mp hr
    have hb' := h.logPublish hr'
    cases r'.1 with
    | error err => exact ⟨hb', Job.sound_none⟩
    | ok _ => exact ⟨hb', Job.sound_some _ hjob⟩
  | enter topicName call =>
    obtain ⟨t, ht, hr⟩ := Option.bind_eq_some_iff.mp hr
    obtain ⟨r', hr', rfl⟩ := Option.map_eq_some_iff.mp hr
    obtain ⟨ht', htask⟩ := (h.topics topicName t ht).start hjob hr'
    exact ⟨h.setTopic ht' topicName, Job.sound_next htask⟩
  | inTopic topicName task =>
    obtain ⟨t, ht, hr⟩ := Option.bind_eq_some_iff.mp hr
    obtain ⟨r', hr', rfl⟩ := Option.map_eq_some_iff.mp hr
    obtain ⟨ht', htask⟩ := (h.topics topicName t ht).resume hjob hr'
    exact ⟨h.setTopic ht' topicName, Job.sound_next htask⟩
  | batch topicName msgs count =>
    cases msgs with
    | nil =>
      rw [← Option.some_inj.mp hr]
      exact ⟨h, Job.sound_some _ trivial⟩
    | cons msg msgs =>
      obtain ⟨r', hr', rfl⟩ := Option.map_eq_some_iff.mp hr
      exact ⟨h.logPublish hr', Job.sound_some _ hjob⟩
  | batchCheck topicName msg msgs count =>
    obtain ⟨t, -, hr⟩ := Option.bind_eq_some_iff.mp hr
    rw [Option.ite_none_left_eq_some] at hr
    obtain ⟨-, hr⟩ := hr
    split at hr
    · rw [← Option.some_inj.mp hr]
      exact ⟨h, Job.sound_some _ fun m hm ↦ hjob m (List.mem_cons_of_mem _ hm)⟩
    · rw [← Option.some_inj.mp hr]
      exact ⟨h, Job.sound_some _ hjob⟩
  | batchPush topicName msg msgs count =>
    obtain ⟨t, ht, rfl⟩ := Option.map_eq_some_iff.mp hr
    have ht' := (h.topics topicName t ht).push (hjob msg List.mem_cons_self) false
    exact ⟨h.setTopic ht' topicName,
      Job.sound_some _ fun m hm ↦ hjob m (List.mem_cons_of_mem _ hm)⟩
  | add k n record =>
    rw [← Option.some_inj.mp hr]
    refine ⟨h.addTotal _ k, fun job' hjob' ↦ ?_⟩
    obtain ⟨ids, -, rfl⟩ := Option.map_eq_some_iff.mp hjob'
    trivial
  | logAck topicName groupName msgID =>
    obtain ⟨b', hb', rfl⟩ := Option.map_eq_some_iff.mp hr
    exact ⟨h.logAck hb', Job.sound_none⟩
  | createGroup topicName groupName timeout =>
    obtain ⟨t, ht, hr⟩ := Option.bind_eq_some_iff.mp hr
    rw [Option.ite_none_left_eq_some] at hr
    rw [← Option.some_inj.mp hr.2]
    have ht' := (h.topics topicName t ht).getOrCreateGroup groupName timeout
    exact ⟨h.setTopic ht' topicName, Job.sound_none⟩
  | close order =>
    cases order with
    | nil =>
      rw [← Option.some_inj.mp hr]
      exact ⟨h.of_eq rfl rfl, Job.sound_none⟩
    | cons topicName rest =>
      obtain ⟨t, ht, rfl⟩ := Option.map_eq_some_iff.mp hr
      cases hclose : PublishSystem.closeTopic t with
      | none => exact ⟨h, Job.sound_some _ trivial⟩
      | some t' =>
        have ht' := (h.topics topicName t ht).closeTopic hclose
        exact ⟨h.setTopic ht' topicName, Job.sound_some _ trivial⟩

namespace BrokerState

/-- Messages are in order in the broker and in all operations in progress. -/
structure Sound (s : BrokerState) : Prop where
  broker : s.broker.Sound
  jobs : ∀ job ∈ s.jobs, job.Sound

namespace Sound

variable {c : Codec} {s s' : BrokerState} {topicName : Bytes}

theorem spawn (h : s.Sound) {b : Broker} (hb : b.Sound) (job : Job) (hjob : job.Sound) :
    BrokerState.Sound ⟨b, s.jobs ++ [job]⟩ := by
  refine ⟨hb, fun job' hmem ↦ ?_⟩
  rcases List.mem_append.mp hmem with hmem | hmem
  · exact h.jobs job' hmem
  · exact List.mem_singleton.mp hmem ▸ hjob

private theorem find (h : s.Sound) {call : Call} (hs' : s.find topicName call = some s')
    (hcall : call.Sound) : s'.Sound := by
  rw [BrokerState.find, Option.ite_none_left_eq_some] at hs'
  obtain ⟨-, hs'⟩ := hs'
  split at hs'
  · rw [← Option.some_inj.mp hs']
    exact h
  · rw [← Option.some_inj.mp hs']
    exact h.spawn h.broker (.enter topicName call) hcall

private theorem findOrCreate (h : s.Sound) {job : Job}
    (hs' : s.findOrCreate topicName job = some s') (hjob : job.Sound) : s'.Sound := by
  rw [BrokerState.findOrCreate, Option.ite_none_left_eq_some] at hs'
  rw [← Option.some_inj.mp hs'.2]
  exact h.spawn (h.broker.getOrCreateTopic topicName) job hjob

theorem step (h : s.Sound) {l : Label} (hs' : s.step c l = some s') : s'.Sound := by
  cases l with
  | publish topicName payload st front =>
    exact h.findOrCreate hs' (Message.live_message st topicName payload)
  | publishDelayed topicName payload delay st now =>
    exact h.findOrCreate hs' (Message.live_message st topicName payload)
  | publishBatch topicName payloads =>
    rw [BrokerState.step] at hs'
    split at hs'
    · rw [← Option.some_inj.mp hs']
      exact h
    · exact h.findOrCreate hs' (Broker.Sound.live_batchMessages payloads)
  | consumeGroup | createGroup => exact h.findOrCreate hs' trivial
  | consume | ack | nack | replayDLQ | purgeDLQ | sweep => exact h.find hs' trivial
  | tick topicName =>
    obtain ⟨t, -, rfl⟩ := Option.map_eq_some_iff.mp hs'
    exact h.spawn h.broker (.enter topicName .advance) trivial
  | syncLog =>
    rw [← Option.some_inj.mp hs']
    exact ⟨h.broker.syncLog, h.jobs⟩
  | close order =>
    rw [BrokerState.step, Option.ite_none_left_eq_some] at hs'
    obtain ⟨-, hs'⟩ := hs'
    split at hs'
    · rw [← Option.some_inj.mp hs']
      exact h
    · rw [Option.ite_none_right_eq_some] at hs'
      rw [← Option.some_inj.mp hs'.2]
      refine h.spawn ?_ (.close order) trivial
      exact h.broker.of_eq rfl rfl
  | resume i now order =>
    obtain ⟨job, hjob, hs'⟩ := Option.bind_eq_some_iff.mp hs'
    obtain ⟨r, hr, rfl⟩ := Option.map_eq_some_iff.mp hs'
    obtain ⟨hb, hnext⟩ := h.broker.job_step (h.jobs job (List.mem_of_getElem? hjob)) hr
    refine ⟨hb, fun job' hmem ↦ ?_⟩
    rcases List.mem_append.mp hmem with hmem | hmem
    · exact h.jobs job' (List.mem_of_mem_eraseIdx hmem)
    · exact hnext job' (Option.mem_toList.mp hmem)
  | giveUp i =>
    rw [BrokerState.step] at hs'
    split at hs'
    · obtain ⟨t, -, hs'⟩ := Option.bind_eq_some_iff.mp hs'
      rw [Option.ite_none_right_eq_some] at hs'
      rw [← Option.some_inj.mp hs'.2]
      exact ⟨h.broker, fun job' hmem ↦ h.jobs job' (List.mem_of_mem_eraseIdx hmem)⟩
    · exact absurd hs' (Option.some_ne_none s').symm

theorem idle (start : Start) (now : ℤ) (h : ∀ m ∈ start.messages c, m.Issued) :
    (BrokerState.idle (start.broker c now)).Sound := by
  refine ⟨?_, fun job hjob ↦ absurd hjob List.not_mem_nil⟩
  cases start with
  | inMemory => exact Broker.Sound.newBroker none now
  | withLog dir policy =>
    exact Broker.Sound.foldl_recover (Broker.Sound.newBroker _ now) fun m hm ↦ (h m hm).live

end Sound

end BrokerState

end VortexMQ
