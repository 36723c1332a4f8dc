import VortexMQ.Queue.Leases
import VortexMQ.Queue.Provenance

/-!
# The topics of a broker

There are two models of the operations in progress. `TopicState` is one topic on its own, with the
operations on it. `BrokerState` is the whole broker: many topics, a log, totals, and operations that
look topics up, write records, loop over batches or close everything. This file shows that the
second refines the first: seen from one topic, a run of the broker is a run of that topic, so what
is proved of a topic on its own holds of every topic of a broker.

## What is seen

A job is seen as the critical section of the topic that it is about to run, if any. `PublishBatch`
is seen as one `Publish` after another. `Close` goes through the topics while it holds the mutex of
the broker; on each topic it is at the point that the flags of the topic show (`closeTasks`). A
topic that does not exist yet is seen as a new one.

Not every step of the broker is seen. The records and the totals are not, and neither is what goes
on in other topics.
-/

namespace VortexMQ

/-! ## Events of a topic -/

/-- A step of the operations on a topic, or `XGROUP CREATE`, which is not a call on the topic alone
and has no operation of its own. -/
inductive TopicEvent where
  | op (l : TopicLabel)
  | createGroup (groupName : Bytes) (timeout : ℤ)

/-- The identifiers an event brings in. -/
def TopicEvent.issues : TopicEvent → List Bytes
  | .op l => l.issues
  | .createGroup _ _ => []

def TopicState.react (s : TopicState) : TopicEvent → Option TopicState
  | .op l => s.step l
  | .createGroup groupName timeout =>
      if s.topic.closing then none
      else some { s with topic := s.topic.getOrCreateGroup groupName timeout }

/-! ## The flags of a topic -/

namespace Topic

variable {t t' : Topic} {msg : Message} {L : Ledger}

/-- The three flags that `Close` sets, in this order. -/
def switches (t : Topic) : Bool × Bool × Bool := (t.closed, t.ring.closed, t.tw.closed)

/-- They have been set in this order. -/
structure ClosesInOrder (t : Topic) : Prop where
  ring : t.closed = false → t.ring.closed = false
  wheel : t.ring.closed = false → t.tw.closed = false

theorem ClosesInOrder.of_switches (h : t.ClosesInOrder) (heq : t'.switches = t.switches) :
    t'.ClosesInOrder := by
  simp only [switches, Prod.mk.injEq] at heq
  obtain ⟨hclosed, hring, hwheel⟩ := heq
  exact ⟨by rw [hclosed, hring]; exact h.ring, by rw [hring, hwheel]; exact h.wheel⟩

theorem switches_eq (hflags : t'.flags = t.flags) (hwheel : t'.tw.closed = t.tw.closed) :
    t'.switches = t.switches := by
  rw [flags, flags, Prod.mk.injEq] at hflags
  rw [switches, switches, hflags.1, hflags.2, hwheel]

theorem switches_schedule (t : Topic) (msg : Message) (delay : ℤ) :
    (t.schedule msg delay).switches = t.switches := by
  refine switches_eq (t.flags_schedule msg delay) ?_
  have hadd : (t.tw.add msg delay).2.closed = t.tw.closed := by
    unfold TimingWheel.add
    split
    · rfl
    · split <;> rfl
  rw [schedule]
  split <;> (rename_i heq; rw [heq] at hadd; exact hadd)

private theorem switches_route (t : Topic) (msg : Message) (now : ℤ) (r : ConsumerGroup.Route) :
    (t.route msg now r).switches = t.switches := by
  cases r with
  | deadLetter => rfl
  | retry delay => exact t.switches_schedule msg delay

private theorem switches_onExpire (t : Topic) (msg : Message) :
    (t.onExpire msg).switches = t.switches :=
  switches_eq (t.flags_onExpire msg) rfl

theorem switches_pop {r : Message × Topic} (h : t.pop = some r) : r.2.switches = t.switches := by
  obtain ⟨msg, t'⟩ := r
  refine switches_eq (flags_pop h) ?_
  rw [pop, Option.map_eq_some_iff] at h
  obtain ⟨m, -, heq⟩ := h
  exact (Prod.mk.inj heq).2 ▸ rfl

theorem switches_getOrCreateGroup (t : Topic) (groupName : Bytes) (timeout : ℤ) :
    (t.getOrCreateGroup groupName timeout).switches = t.switches := by
  rw [getOrCreateGroup]
  split <;> rfl

/-- What a section does, apart from `Close`: no flag is touched, and the rest of the operation has
nothing to do with `Close` either. -/
structure Leaves (t : Topic) (r : Section) : Prop where
  switches : r.1.switches = t.switches
  rest : ∀ task, r.2.2 = some task → ¬task.IsClosing

private theorem leaves_start {c : Call} {r : Section} (h : t.start L c = some r) (hc : c ≠ .close) :
    t.Leaves r := by
  cases c with
  | publish msg front =>
    rw [start, Option.ite_none_left_eq_some] at h
    obtain ⟨-, h⟩ := h
    split at h
    · exact Option.some_inj.mp h ▸ ⟨rfl, by simp⟩
    · exact Option.some_inj.mp h ▸ ⟨rfl, by simp [Task.IsClosing]⟩
  | publishDelayed msg delay now =>
    rw [start, Option.some_inj] at h
    subst h
    exact ⟨switches_schedule (t.countPublished msg) _ _, by simp⟩
  | consume =>
    simp only [start] at h
    split at h
    · rename_i msg t' hcon
      rw [consume, Option.map_eq_some_iff] at hcon
      obtain ⟨r', hpop, heq⟩ := hcon
      obtain ⟨-, rfl⟩ := Prod.mk.inj heq
      exact Option.some_inj.mp h ▸ ⟨switches_pop hpop, by simp⟩
    · exact Option.some_inj.mp h ▸ ⟨rfl, by simp⟩
  | consumeGroup groupName consumerID =>
    rw [start, Option.ite_none_left_eq_some] at h
    obtain rfl := Option.some_inj.mp h.2
    exact ⟨t.switches_getOrCreateGroup _ _, by simp [Task.IsClosing]⟩
  | ack groupName msgID =>
    rw [start, Option.ite_none_left_eq_some] at h
    obtain rfl := Option.some_inj.mp h.2
    refine ⟨rfl, ?_⟩
    dsimp only
    split <;> simp [Task.IsClosing]
  | nack groupName msgID reason =>
    rw [start, Option.ite_none_left_eq_some] at h
    obtain rfl := Option.some_inj.mp h.2
    refine ⟨rfl, ?_⟩
    dsimp only
    split <;> simp [Task.IsClosing]
  | sweepConsumerTimeouts order =>
    rw [start, Option.ite_none_left_eq_some, Option.ite_none_right_eq_some] at h
    exact Option.some_inj.mp h.2.2 ▸ ⟨rfl, by simp [Task.IsClosing]⟩
  | advance => exact Option.some_inj.mp h ▸ ⟨rfl, by simp [Task.IsClosing]⟩
  | replayDeadLetter msgID now =>
    simp only [start] at h
    split at h
    · exact Option.some_inj.mp h ▸ ⟨rfl, by simp [Task.IsClosing]⟩
    · exact Option.some_inj.mp h ▸ ⟨rfl, by simp⟩
  | dlqRemove msgID =>
    simp only [start] at h
    split at h <;> exact Option.some_inj.mp h ▸ ⟨rfl, by simp⟩
  | dlqPurge => exact Option.some_inj.mp h ▸ ⟨rfl, by simp⟩
  | close => exact absurd rfl hc

end Topic

theorem Task.leaves_resume {t : Topic} {L : Ledger} {now : ℤ} {order : List Message} {task : Task}
    {r : Section} (h : task.resume t L now order = some r) (htask : ¬task.IsClosing) :
    t.Leaves r := by
  cases task with
  | publish msg front =>
    rw [resume, Option.some_inj] at h
    subst h
    refine ⟨Topic.switches_eq (t.flags_push msg front) ?_, by simp⟩
    exact congrArg TimingWheel.closed (t.fields_push msg front).2.2.1
  | popWait groupName consumerID =>
    rw [resume, Option.map_eq_some_iff] at h
    obtain ⟨r', hpop, rfl⟩ := h
    exact ⟨Topic.switches_pop hpop, by simp [IsClosing]⟩
  | checkout groupName consumerID msg =>
    rw [resume, Topic.checkout, Option.map_map, Option.map_eq_some_iff] at h
    obtain ⟨cg, hcg, rfl⟩ := h
    exact ⟨rfl, by simp⟩
  | ack groupName msgID =>
    rw [resume, Topic.ack, Option.map_map, Option.map_eq_some_iff] at h
    obtain ⟨cg, hcg, rfl⟩ := h
    refine ⟨?_, by simp⟩
    dsimp only [Function.comp_apply]
    split <;> rfl
  | nack groupName msgID reason =>
    rw [resume, Option.map_eq_some_iff] at h
    obtain ⟨cg, hcg, rfl⟩ := h
    split
    · exact ⟨rfl, by simp [IsClosing]⟩
    · exact ⟨rfl, by simp⟩
  | fail msg reason =>
    rw [resume, Option.map_eq_some_iff] at h
    obtain ⟨route, -, rfl⟩ := h
    exact ⟨(t.switches_route (ConsumerGroup.fail msg reason) now route :), by simp⟩
  | sweep groups timedOut =>
    cases timedOut with
    | nil =>
      cases groups with
      | nil => exact Option.some_inj.mp h ▸ ⟨rfl, by simp⟩
      | cons groupName groups =>
        rw [resume, Topic.sweepGroup, Option.map_eq_some_iff] at h
        obtain ⟨t', ht', rfl⟩ := h
        rw [Option.bind_eq_some_iff] at ht'
        obtain ⟨cg, hcg, ht'⟩ := ht'
        rw [Option.ite_none_right_eq_some] at ht'
        obtain rfl := Option.some_inj.mp ht'.2
        exact ⟨rfl, by simp [IsClosing]⟩
    | cons msg timedOut =>
      cases groups <;>
        exact Option.some_inj.mp h ▸ ⟨Topic.switches_route .., by simp [IsClosing]⟩
  | expire msgs =>
    cases msgs with
    | nil => exact Option.some_inj.mp h ▸ ⟨rfl, by simp⟩
    | cons msg msgs =>
      exact Option.some_inj.mp h ▸ ⟨t.switches_onExpire msg, by simp [IsClosing]⟩
  | replay msg => exact Option.some_inj.mp h ▸ ⟨t.switches_onExpire msg, by simp⟩
  | closeRing => exact absurd trivial htask
  | closeWheel => exact absurd trivial htask

/-! ## Sections do not look at the ledger -/

theorem Topic.start_ledger_irrelevant (t : Topic) (L L' : Ledger) (c : Call) :
    (t.start L c).map (fun r ↦ (r.1, r.2.2)) = (t.start L' c).map fun r ↦ (r.1, r.2.2) := by
  cases c with
  | publish | consumeGroup | ack | nack | sweepConsumerTimeouts | close =>
    simp only [start]
    split_ifs <;> rfl
  | publishDelayed | advance | dlqPurge => rfl
  | consume | replayDeadLetter | dlqRemove =>
    simp only [start]
    split <;> rfl

theorem Task.resume_ledger_irrelevant (t : Topic) (L L' : Ledger) (now : ℤ) (order : List Message)
    (task : Task) :
    (task.resume t L now order).map (fun r ↦ (r.1, r.2.2))
      = (task.resume t L' now order).map fun r ↦ (r.1, r.2.2) := by
  cases task with
  | publish | replay | closeRing | closeWheel => rfl
  | popWait | checkout | ack | fail =>
    simp only [resume, Option.map_map]
    rfl
  | nack groupName msgID reason =>
    simp only [resume, Option.map_map]
    congr 1
    funext cg
    simp only [Function.comp_apply]
    split <;> rfl
  | expire msgs => cases msgs <;> rfl
  | sweep groups timedOut =>
    cases timedOut with
    | nil =>
      cases groups with
      | nil => rfl
      | cons groupName groups =>
        simp only [resume, Option.map_map]
        rfl
    | cons msg timedOut => cases groups <;> rfl

/-! ## What happens to a topic and the operations on it -/

/-- From a topic with some operations on it to the next, issuing these identifiers, in at most one
event. Which operation comes first in the list is left open. -/
inductive TopicMove : Topic → Multiset Task → Topic → Multiset Task → List Bytes → Prop
  | stay (t : Topic) (tasks : Multiset Task) : TopicMove t tasks t tasks []
  | call {t t' : Topic} {L L' : Ledger} {call : Call} {rest : Option Task}
      (h : t.start L call = some (t', L', rest)) (tasks : Multiset Task) :
      TopicMove t tasks t' (↑rest.toList + tasks) (TopicLabel.call call).issues
  | resume {t t' : Topic} {L L' : Ledger} {task : Task} {rest : Option Task} {now : ℤ}
      {order : List Message} (h : task.resume t L now order = some (t', L', rest))
      (tasks : Multiset Task) : TopicMove t (task ::ₘ tasks) t' (↑rest.toList + tasks) []
  | giveUp {t : Topic} (h : t.ring.items = []) (groupName consumerID : Bytes)
      (tasks : Multiset Task) : TopicMove t (.popWait groupName consumerID ::ₘ tasks) t tasks []
  | createGroup {t : Topic} (h : t.closing = false) (groupName : Bytes) (timeout : ℤ)
      (tasks : Multiset Task) : TopicMove t tasks (t.getOrCreateGroup groupName timeout) tasks []

theorem TopicMove.ofCall {t t' : Topic} {L L' : Ledger} {call : Call} {rest : Option Task}
    (h : t.start L call = some (t', L', rest)) (others : Multiset Task) :
    TopicMove t (↑([] : List Task) + others) t' (↑rest.toList + others)
      (TopicLabel.call call).issues := by
  rw [Multiset.coe_nil, zero_add]
  exact .call h others

theorem TopicState.coe_replaceTask {tasks : List Task} {i : ℕ} {task : Task}
    (h : tasks[i]? = some task) (rest : Option Task) :
    (task ::ₘ ↑(replaceTask tasks i rest) : Multiset Task) = ↑rest.toList + ↑tasks := by
  obtain ⟨hi, rfl⟩ := List.getElem?_eq_some_iff.mp h
  have herase : (tasks[i] :: tasks.eraseIdx i).Perm tasks := List.getElem_cons_eraseIdx_perm hi
  cases rest with
  | none => exact (Multiset.coe_eq_coe.mpr herase).trans (zero_add _).symm
  | some next =>
    have hset : (tasks.set i next).Perm (next :: tasks.eraseIdx i) :=
      List.set_perm_cons_eraseIdx hi next
    have hboth : (tasks[i] :: tasks.set i next).Perm (next :: tasks) :=
      (hset.cons _).trans ((List.Perm.swap _ _ _).trans (herase.cons _))
    exact Multiset.coe_eq_coe.mpr hboth

namespace TopicMove

variable {t t' : Topic} {before after : Multiset Task} {ids : List Bytes}

/-- **A move is an event**, or none at all. -/
theorem exists_run (h : TopicMove t before t' after ids) {P : Topic → Prop} (ht : P t) (ht' : P t')
    {s : TopicState} (htopic : s.topic = t) (htasks : ↑s.tasks = before) :
    ∃ events s', Run TopicState.react (fun s ↦ P s.topic) s events s' ∧ s'.topic = t' ∧
      ↑s'.tasks = after ∧ events.flatMap TopicEvent.issues = ids := by
  subst htopic htasks
  have hone : ∀ {s' : TopicState} {e : TopicEvent}, s.react e = some s' → P s'.topic →
      Run TopicState.react (fun s ↦ P s.topic) s [e] s' := fun hreact hP ↦
    Run.cons ht hreact (Run.nil hP)
  generalize hbefore : (s.tasks : Multiset Task) = before at h
  cases h with
  | stay => exact ⟨[], s, Run.nil ht, rfl, hbefore, rfl⟩
  | @call _ L L' call rest h _ =>
    have hmap := Topic.start_ledger_irrelevant s.topic s.ledger L call
    rw [h, Option.map_some, Option.map_eq_some_iff] at hmap
    obtain ⟨⟨t', L₁, rest⟩, hr, heq⟩ := hmap
    simp only [Prod.mk.injEq] at heq
    obtain ⟨rfl, rfl⟩ := heq
    have hstep : s.react (.op (.call call)) = some ⟨t', s.tasks ++ rest.toList, L₁⟩ := by
      rw [TopicState.react, TopicState.step, hr, Option.map_some]
    refine ⟨_, _, hone hstep ht', rfl, ?_, List.append_nil _⟩
    rw [← hbefore, add_comm, Multiset.coe_add]
  | @resume _ L L' task rest now order h tasks =>
    have hmem : task ∈ s.tasks :=
      Multiset.mem_coe.mp (hbefore ▸ Multiset.mem_cons_self task tasks)
    obtain ⟨i, hi⟩ := List.mem_iff_getElem?.mp hmem
    have hmap := Task.resume_ledger_irrelevant s.topic s.ledger L now order task
    rw [h, Option.map_some, Option.map_eq_some_iff] at hmap
    obtain ⟨⟨t', L₁, rest⟩, hr, heq⟩ := hmap
    simp only [Prod.mk.injEq] at heq
    obtain ⟨rfl, rfl⟩ := heq
    have hstep : s.react (.op (.resume i now order))
        = some ⟨t', TopicState.replaceTask s.tasks i rest, L₁⟩ := by
      rw [TopicState.react, TopicState.step, hi, Option.bind_some, hr, Option.map_some]
    refine ⟨_, _, hone hstep ht', rfl, ?_, rfl⟩
    have hcoe := TopicState.coe_replaceTask hi rest
    rw [hbefore, Multiset.add_cons] at hcoe
    exact (Multiset.cons_inj_right task).mp hcoe
  | giveUp h groupName consumerID =>
    have hmem : Task.popWait groupName consumerID ∈ s.tasks :=
      Multiset.mem_coe.mp (hbefore ▸ Multiset.mem_cons_self _ _)
    obtain ⟨i, hi⟩ := List.mem_iff_getElem?.mp hmem
    have hstep : s.react (.op (.giveUp i)) = some { s with tasks := s.tasks.eraseIdx i } := by
      rw [TopicState.react, TopicState.step, hi, Option.bind_some, h]
    refine ⟨_, _, hone hstep ht', rfl, ?_, rfl⟩
    have hcoe := TopicState.coe_replaceTask hi none
    rw [hbefore] at hcoe
    exact (Multiset.cons_inj_right _).mp (hcoe.trans (zero_add _))
  | createGroup h groupName timeout tasks =>
    have hstep : s.react (.createGroup groupName timeout)
        = some { s with topic := s.topic.getOrCreateGroup groupName timeout } := by
      rw [TopicState.react, if_neg (by simp [h])]
    exact ⟨_, _, hone hstep ht', rfl, hbefore, rfl⟩

end TopicMove

/-! ## The view of one topic -/

/-- A topic that does not exist yet is seen as a new one. -/
def Broker.view (b : Broker) (name : Bytes) : Topic := (b.getTopic name).getD (Topic.default name)

namespace Broker

variable {b b' : Broker} {name : Bytes} {t : Topic}

theorem view_of_getTopic (h : b.getTopic name = some t) : b.view name = t := by
  rw [view, h, Option.getD_some]

theorem view_of_topics (h : b'.topics = b.topics) (name : Bytes) : b'.view name = b.view name := by
  rw [view, view, getTopic, getTopic, h]

theorem view_setTopic_self : (b.setTopic name t).view name = t :=
  view_of_getTopic (AList.lookup_insert _)

theorem view_setTopic_ne {other : Bytes} (h : name ≠ other) :
    (b.setTopic other t).view name = b.view name :=
  congrArg (fun found : Option Topic ↦ found.getD _) (AList.lookup_insert_ne h)

theorem view_getOrCreateTopic (other : Bytes) :
    (b.getOrCreateTopic other).2.view name = b.view name := by
  rw [getOrCreateTopic]
  split
  · rfl
  · rename_i hnone
    by_cases h : name = other
    · subst h
      rw [view_setTopic_self, view, getTopic, hnone, Option.getD_none]
    · exact view_setTopic_ne h

private theorem getOrCreateTopic_fst (b : Broker) (name : Bytes) :
    (b.getOrCreateTopic name).1 = b.view name := by
  rw [getOrCreateTopic, view, getTopic]
  split <;> (rename_i heq; rw [heq]; rfl)

end Broker

theorem Topic.isOpen_default (name : Bytes) : (Topic.default name).IsOpen :=
  (Topic.ids_newTopic (Option.some_get _).symm).2

/-- Where `Close` is on a topic. -/
def Topic.closeTasks (t : Topic) : List Task :=
  if t.closed = false then []
  else if t.ring.closed = false then [.closeRing]
  else if t.tw.closed = false then [.closeWheel]
  else []

theorem Topic.closeTasks_of_switches {t t' : Topic} (h : t'.switches = t.switches) :
    t'.closeTasks = t.closeTasks := by
  simp only [switches, Prod.mk.injEq] at h
  rw [closeTasks, closeTasks, h.1, h.2.1, h.2.2]

namespace Job

/-- The section of the topic that the job is about to run. -/
def tasks (name : Bytes) : Job → List Task
  | .inTopic topicName task => if topicName = name then [task] else []
  | .batchPush topicName msg _ _ => if topicName = name then [.publish msg false] else []
  | _ => []

/-- Identifiers of the messages that the job has yet to hand to the topic. -/
def unissued (name : Bytes) : Job → List Bytes
  | .log msg call => if msg.topic = name then call.issues else []
  | .enter topicName call => if topicName = name then call.issues else []
  | .batch topicName msgs _ => if topicName = name then msgs.map Message.id else []
  | .batchCheck topicName msg msgs _ =>
      if topicName = name then msg.id :: msgs.map Message.id else []
  | .batchPush topicName _ msgs _ => if topicName = name then msgs.map Message.id else []
  | _ => []

/-- The job leaves the flags of the topics to `Close`. -/
def Ordinary : Job → Prop
  | .log _ call | .enter _ call => call ≠ .close
  | .inTopic _ task => ¬task.IsClosing
  | _ => True

/-- What a step of a job is, seen from one topic. -/
structure Seen (name : Bytes) (b : Broker) (job : Job) (b' : Broker) (rest : Option Job) :
    Prop where
  move : ∃ ids, (∀ others, TopicMove (b.view name)
      (↑(job.tasks name) + ↑(b.view name).closeTasks + others) (b'.view name)
      (↑(rest.toList.flatMap (tasks name)) + ↑(b'.view name).closeTasks + others) ids) ∧
    (↑(ids ++ rest.toList.flatMap (unissued name)) : Multiset Bytes) ≤ ↑(job.unissued name)
  ordinary : ∀ job', rest = some job' → job'.Ordinary
  inOrder : (b'.view name).ClosesInOrder

section

variable {name : Bytes} {b b' : Broker} {job : Job} {rest : Option Job} {c : Codec} {now : ℤ}
  {order : List Message}

theorem Seen.stay (hin : (b.view name).ClosesInOrder) (hview : b'.view name = b.view name)
    (htasks : rest.toList.flatMap (tasks name) = job.tasks name)
    (hids : (↑(rest.toList.flatMap (unissued name)) : Multiset Bytes) ≤ ↑(job.unissued name))
    (hord : ∀ job', rest = some job' → job'.Ordinary) : Seen name b job b' rest := by
  refine ⟨⟨[], fun others ↦ ?_, hids⟩, hord, hview ▸ hin⟩
  rw [hview, htasks]
  exact .stay _ _

theorem Seen.other {topicName : Bytes} (hne : name ≠ topicName) (t' : Topic)
    (hin : (b.view name).ClosesInOrder) (htasks : job.tasks name = [])
    (hrest : rest.toList.flatMap (tasks name) = [])
    (hunissued : rest.toList.flatMap (unissued name) = [])
    (hord : ∀ job', rest = some job' → job'.Ordinary) :
    Seen name b job (b.setTopic topicName t') rest := by
  refine .stay hin (Broker.view_setTopic_ne hne) (hrest.trans htasks.symm) ?_ hord
  rw [hunissued]
  exact Multiset.zero_le _

theorem Seen.self {t t' : Topic} (hview : b.view name = t) (hview' : b'.view name = t')
    (hswitches : t'.switches = t.switches) (hin : (b.view name).ClosesInOrder) (ids : List Bytes)
    (hmove : ∀ others, TopicMove t (↑(job.tasks name) + others) t'
      (↑(rest.toList.flatMap (tasks name)) + others) ids)
    (hids : (↑(ids ++ rest.toList.flatMap (unissued name)) : Multiset Bytes)
      ≤ ↑(job.unissued name))
    (hord : ∀ job', rest = some job' → job'.Ordinary) : Seen name b job b' rest := by
  refine ⟨⟨ids, fun others ↦ ?_, hids⟩, hord, ?_⟩
  · rw [hview, hview', Topic.closeTasks_of_switches hswitches, add_assoc, add_assoc]
    exact hmove _
  · rw [hview']
    exact (hview ▸ hin).of_switches hswitches

/-- What follows a section of the topic. -/
structure Follows (name topicName : Bytes) (r : Section) (rest : Option Job) : Prop where
  tasks : rest.toList.flatMap (tasks name) = if topicName = name then r.2.2.toList else []
  unissued : rest.toList.flatMap (unissued name) = []
  ordinary : ∀ job', rest = some job' → job'.Ordinary

private theorem follows_next (name topicName : Bytes) {r : Section} {t : Topic} (h : t.Leaves r)
    (report : Option Counter) (record : Option (Bytes × Bytes × Bytes)) :
    Follows name topicName r (next topicName r.2.2 report record) := by
  obtain ⟨t', L, rest⟩ := r
  cases rest with
  | none =>
    cases report with
    | none => exact ⟨by simp [next], rfl, by simp [next]⟩
    | some k => exact ⟨by simp [next, Job.tasks], rfl, by simp [next, Ordinary]⟩
  | some task =>
    refine ⟨by simp [next, Job.tasks], rfl, ?_⟩
    rintro job' ⟨⟩
    exact h.rest task rfl

private theorem seen_of_closeTopic {topics : List Bytes} {t t' : Topic}
    (ht : b.getTopic name = some t)
    (hclose : PublishSystem.closeTopic t = some t') (hin : (b.view name).ClosesInOrder) :
    Seen name b (.close (name :: topics)) (b.setTopic name t')
      (some (.close (name :: topics))) := by
  have hview := Broker.view_of_getTopic ht
  have hview' : (b.setTopic name t').view name = t' := Broker.view_setTopic_self
  rw [hview] at hin
  have hmove : (∀ others, TopicMove t (↑t.closeTasks + others) t' (↑t'.closeTasks + others) []) ∧
      t'.ClosesInOrder := by
    rw [PublishSystem.closeTopic] at hclose
    split at hclose
    · -- the flag of the topic
      rename_i hopen
      obtain rfl := Option.some_inj.mp hclose
      have hring := hin.ring hopen
      have hstart : t.start Ledger.empty .close
          = some ({ t with closed := true }, Ledger.empty, some .closeRing) := by
        simp [Topic.start, Topic.closing, hopen]
      refine ⟨fun others ↦ ?_, ⟨fun hfalse ↦ absurd hfalse (by simp), hin.wheel⟩⟩
      have hbefore : t.closeTasks = [] := if_pos hopen
      have hafter : ({ t with closed := true } : Topic).closeTasks = [.closeRing] := by
        simp [Topic.closeTasks, hring]
      rw [hbefore, hafter]
      exact .ofCall hstart others
    split at hclose
    · -- the ring
      rename_i hclosed hring
      obtain rfl := Option.some_inj.mp hclose
      have hwheel := hin.wheel hring
      have hbefore : t.closeTasks = [.closeRing] := by simp [Topic.closeTasks, hclosed, hring]
      have hshut : t.ring.close.closed = true := rfl
      have hafter : ({ t with ring := t.ring.close } : Topic).closeTasks = [.closeWheel] := by
        simp [Topic.closeTasks, hclosed, hwheel, hshut]
      have hresume : Task.closeRing.resume t Ledger.empty 0 []
          = some ({ t with ring := t.ring.close }, Ledger.empty, some .closeWheel) := rfl
      refine ⟨fun others ↦ ?_, ⟨fun hfalse ↦ absurd hfalse hclosed, fun _ ↦ hwheel⟩⟩
      rw [hbefore, hafter]
      exact .resume hresume others
    split at hclose
    · -- the wheel
      rename_i hclosed hring hwheel
      obtain rfl := Option.some_inj.mp hclose
      have hbefore : t.closeTasks = [.closeWheel] := by
        simp [Topic.closeTasks, hclosed, hring, hwheel]
      have hafter : ({ t with tw := t.tw.stop } : Topic).closeTasks = [] := by
        simp [Topic.closeTasks, hclosed, hring, TimingWheel.stop]
      have hresume : Task.closeWheel.resume t Ledger.empty 0 []
          = some ({ t with tw := t.tw.stop }, Ledger.empty, none) := rfl
      refine ⟨fun others ↦ ?_, ⟨hin.ring, fun hfalse ↦ absurd hfalse hring⟩⟩
      rw [hbefore, hafter]
      exact .resume hresume others
    · exact absurd hclose (by simp)
  refine ⟨⟨[], fun others ↦ ?_, Multiset.zero_le _⟩, by simp [Ordinary], ?_⟩
  · rw [hview, hview', add_assoc, add_assoc]
    change TopicMove t (↑([] : List Task) + _) t' (↑([] : List Task) + _) []
    rw [Multiset.coe_nil, zero_add, zero_add]
    exact hmove.1 others
  · rw [hview']
    exact hmove.2

/-- **A step of a job**, seen from one topic. -/
theorem seen_of_step {r : Broker × Option Job} (h : job.step c b now order = some r)
    (hord : job.Ordinary) (hin : (b.view name).ClosesInOrder) : Seen name b job r.1 r.2 := by
  cases job with
  | log msg call =>
    rw [step, Option.map_eq_some_iff] at h
    obtain ⟨r', hlog, rfl⟩ := h
    have hview := Broker.view_of_topics (Broker.topics_logPublish hlog) name
    split
    · exact .stay hin hview rfl (Multiset.zero_le _) (by simp)
    · refine .stay hin hview rfl ?_ ?_
      · simp [unissued]
      · rintro job' ⟨⟩
        exact hord
  | enter topicName call =>
    rw [step, Option.bind_eq_some_iff] at h
    obtain ⟨t, ht, h⟩ := h
    rw [Option.map_eq_some_iff] at h
    obtain ⟨r', hstart, rfl⟩ := h
    have hleaves := Topic.leaves_start hstart hord
    have hnext := follows_next name topicName hleaves (t.reports call) none
    by_cases hname : topicName = name
    · subst hname
      have hids : call.issues = (TopicLabel.call call).issues := by cases call <;> rfl
      refine .self (Broker.view_of_getTopic ht) Broker.view_setTopic_self hleaves.switches hin
        (TopicLabel.call call).issues (fun others ↦ ?_) ?_ hnext.ordinary
      · rw [hnext.tasks, if_pos rfl]
        exact .ofCall hstart others
      · rw [hnext.unissued, List.append_nil, ← hids, unissued, if_pos rfl]
    · exact .other (Ne.symm hname) _ hin rfl (hnext.tasks.trans (if_neg hname)) hnext.unissued
        hnext.ordinary
  | inTopic topicName task =>
    rw [step, Option.bind_eq_some_iff] at h
    obtain ⟨t, ht, h⟩ := h
    rw [Option.map_eq_some_iff] at h
    obtain ⟨r', hresume, rfl⟩ := h
    have hleaves := Task.leaves_resume hresume hord
    have hnext := follows_next name topicName hleaves (task.reports t) (record topicName task)
    by_cases hname : topicName = name
    · subst hname
      refine .self (Broker.view_of_getTopic ht) Broker.view_setTopic_self hleaves.switches hin []
        (fun others ↦ ?_) ?_ hnext.ordinary
      · rw [hnext.tasks, if_pos rfl, tasks, if_pos rfl]
        exact .resume hresume _
      · rw [hnext.unissued]
        exact Multiset.zero_le _
    · exact .other (Ne.symm hname) _ hin (if_neg hname) (hnext.tasks.trans (if_neg hname))
        hnext.unissued hnext.ordinary
  | batch topicName msgs count =>
    cases msgs with
    | nil =>
      obtain rfl := Option.some_inj.mp h
      exact .stay hin rfl rfl (Multiset.zero_le _) (by simp [Ordinary])
    | cons msg msgs =>
      rw [step, Option.map_eq_some_iff] at h
      obtain ⟨r', hlog, rfl⟩ := h
      exact .stay hin (Broker.view_of_topics (Broker.topics_logPublish hlog) name) rfl
        (by simp [unissued]) (by simp [Ordinary])
  | batchCheck topicName msg msgs count =>
    rw [step, Option.bind_eq_some_iff] at h
    obtain ⟨t, ht, h⟩ := h
    rw [Option.ite_none_left_eq_some] at h
    obtain ⟨hopen, h⟩ := h
    split at h
    · obtain rfl := Option.some_inj.mp h
      refine .stay hin rfl rfl ?_ (by simp [Ordinary])
      simp only [Option.toList_some, List.flatMap_singleton, unissued]
      split
      · exact Multiset.le_cons_self _ _
      · exact le_rfl
    · rename_i hclosed
      obtain rfl := Option.some_inj.mp h
      by_cases hname : topicName = name
      · subst hname
        have hstart : t.start Ledger.empty (.publish msg false)
            = some (t, Ledger.empty.issue msg.id, some (.publish msg false)) := by
          rw [Topic.start, if_neg hopen, if_neg hclosed]
        have hview := Broker.view_of_getTopic ht
        refine .self hview hview rfl hin [msg.id] (fun others ↦ ?_) ?_ (by simp [Ordinary])
        · simp only [Option.toList_some, List.flatMap_singleton, tasks, if_pos]
          exact .ofCall hstart others
        · simp [unissued]
      · refine .stay hin rfl ?_ ?_ (by simp [Ordinary])
        · simp [tasks, hname]
        · simp [unissued, hname]
  | batchPush topicName msg msgs count =>
    rw [step, Option.map_eq_some_iff] at h
    obtain ⟨t, ht, rfl⟩ := h
    by_cases hname : topicName = name
    · subst hname
      have hresume : (Task.publish msg false).resume t Ledger.empty now order
          = some ((t.push msg false).2, Ledger.empty, none) := rfl
      have hleaves := Task.leaves_resume hresume id
      refine .self (Broker.view_of_getTopic ht) Broker.view_setTopic_self hleaves.switches hin []
        (fun others ↦ ?_) (by simp [unissued]) (by simp [Ordinary])
      simp only [Option.toList_some, List.flatMap_singleton, tasks, if_pos]
      exact .resume hresume _
    · exact .other (Ne.symm hname) _ hin (if_neg hname) rfl
        (by simp [unissued, hname]) (by simp [Ordinary])
  | add k n record =>
    obtain rfl := Option.some_inj.mp h
    have hview := Broker.view_of_topics (b.topics_addTotal (UInt64.ofNat n) k) name
    cases record with
    | none => exact .stay hin hview rfl (Multiset.zero_le _) (by simp)
    | some r => exact .stay hin hview rfl (Multiset.zero_le _) (by simp [Ordinary])
  | logAck topicName groupName msgID =>
    rw [step, Option.map_eq_some_iff] at h
    obtain ⟨b', hlog, rfl⟩ := h
    exact .stay hin (Broker.view_of_topics (Broker.topics_logAck hlog) name) rfl
      (Multiset.zero_le _) (by simp)
  | createGroup topicName groupName timeout =>
    rw [step, Option.bind_eq_some_iff] at h
    obtain ⟨t, ht, h⟩ := h
    rw [Option.ite_none_left_eq_some, Option.some_inj] at h
    obtain ⟨hopen, rfl⟩ := h
    by_cases hname : topicName = name
    · subst hname
      refine .self (Broker.view_of_getTopic ht) Broker.view_setTopic_self
        (t.switches_getOrCreateGroup groupName timeout) hin [] (fun others ↦ ?_)
        (Multiset.zero_le _) (by simp)
      exact .createGroup (Bool.eq_false_iff.mpr hopen) groupName timeout _
    · exact .other (Ne.symm hname) _ hin rfl rfl rfl (by simp)
  | close topics =>
    cases topics with
    | nil =>
      obtain rfl := Option.some_inj.mp h
      exact .stay hin rfl rfl (Multiset.zero_le _) (by simp)
    | cons topicName topics =>
      rw [step, Option.map_eq_some_iff] at h
      obtain ⟨t, ht, rfl⟩ := h
      cases hclose : PublishSystem.closeTopic t with
      | none => exact .stay hin rfl rfl (Multiset.zero_le _) (by simp [Ordinary])
      | some t' =>
        by_cases hname : topicName = name
        · subst hname
          exact seen_of_closeTopic ht hclose hin
        · exact .other (Ne.symm hname) _ hin rfl rfl rfl (by simp [Ordinary])

end

end Job

/-! ## The whole broker -/

namespace BrokerState

/-- The sections of the topic that the operations in progress are about to run. -/
def tasksOf (s : BrokerState) (name : Bytes) : Multiset Task :=
  ↑(s.jobs.flatMap (Job.tasks name)) + ↑(s.broker.view name).closeTasks

/-- Identifiers of the messages that are on their way to the topic. -/
def unissued (s : BrokerState) (name : Bytes) : Multiset Bytes :=
  ↑(s.jobs.flatMap (Job.unissued name))

/-- Identifiers of the messages that a call makes for the topic. -/
def Label.issues (name : Bytes) : Label → List Bytes
  | .publish topicName payload st _ =>
      if topicName = name then [(st.message topicName payload).id] else []
  | .publishDelayed topicName payload _ st _ =>
      if topicName = name then [(st.message topicName payload).id] else []
  | .publishBatch topicName payloads =>
      if topicName = name then (Broker.batchMessages topicName payloads).map Message.id else []
  | _ => []

/-- What `name` is seen as. -/
structure Views (name : Bytes) (s : BrokerState) (u : TopicState) : Prop where
  topic : u.topic = s.broker.view name
  tasks : ↑u.tasks = s.tasksOf name
  ordinary : ∀ job ∈ s.jobs, job.Ordinary
  inOrder : (s.broker.view name).ClosesInOrder

variable {c : Codec} {name : Bytes} {s s' : BrokerState} {u : TopicState}

/-- What the view does while the broker takes a step. -/
def Answers (P : Topic → Prop) (name : Bytes) (s : BrokerState) (u : TopicState) (ids : List Bytes)
    (s' : BrokerState) : Prop :=
  ∃ events u', Run TopicState.react (fun u ↦ P u.topic) u events u' ∧ Views name s' u' ∧
    ↑(events.flatMap TopicEvent.issues) + s'.unissued name ≤ s.unissued name + ↑ids

theorem tasksOf_idle (b : Broker) (name : Bytes) :
    (idle b).tasksOf name = ↑(b.view name).closeTasks := zero_add _

theorem Answers.trans {P : Topic → Prop} {ids ids' : List Bytes} {s'' : BrokerState}
    (h : Answers P name s u ids s')
    (h' : ∀ {u'}, Views name s' u' → Answers P name s' u' ids' s'') :
    Answers P name s u (ids ++ ids') s'' := by
  obtain ⟨events, u', hrun, hviews, hle⟩ := h
  obtain ⟨events', u'', hrun', hviews', hle'⟩ := h' hviews
  refine ⟨events ++ events', u'', hrun.append hrun', hviews', ?_⟩
  rw [List.flatMap_append, ← Multiset.coe_add, ← Multiset.coe_add]
  calc (↑(events.flatMap TopicEvent.issues) + ↑(events'.flatMap TopicEvent.issues)
        + s''.unissued name : Multiset Bytes)
      = ↑(events.flatMap TopicEvent.issues)
        + (↑(events'.flatMap TopicEvent.issues) + s''.unissued name) := add_assoc _ _ _
    _ ≤ ↑(events.flatMap TopicEvent.issues) + (s'.unissued name + ↑ids') := add_le_add_right hle' _
    _ = (↑(events.flatMap TopicEvent.issues) + s'.unissued name) + ↑ids' := (add_assoc _ _ _).symm
    _ ≤ (s.unissued name + ↑ids) + ↑ids' := add_le_add_left hle _
    _ = _ := add_assoc _ _ _

namespace Views

variable {P : Topic → Prop}

theorem stay (h : Views name s u) (hP : P (s.broker.view name)) (s' : BrokerState)
    (hview : s'.broker.view name = s.broker.view name) (hjobs : s'.jobs = s.jobs)
    (ids : List Bytes) : Answers P name s u ids s' := by
  refine ⟨[], u, Run.nil (h.topic ▸ hP),
    ⟨h.topic.trans hview.symm, ?_, hjobs ▸ h.ordinary, ?_⟩, ?_⟩
  · rw [h.tasks, tasksOf, tasksOf, hjobs, hview]
  · exact hview ▸ h.inOrder
  · rw [List.flatMap_nil, Multiset.coe_nil, zero_add, unissued, unissued, hjobs]
    exact Multiset.le_add_right _ _

theorem spawn (h : Views name s u) (hP : P (s.broker.view name)) (b : Broker)
    (hview : b.view name = s.broker.view name) {job : Job} (hjob : job.tasks name = [])
    (hord : job.Ordinary) : Answers P name s u (job.unissued name) ⟨b, s.jobs ++ [job]⟩ := by
  refine ⟨[], u, Run.nil (h.topic ▸ hP), ⟨h.topic.trans hview.symm, ?_, ?_, ?_⟩, ?_⟩
  · rw [h.tasks, tasksOf, tasksOf, List.flatMap_append, List.flatMap_singleton, hjob,
      List.append_nil, hview]
  · intro job' hjob'
    rcases List.mem_append.mp hjob' with hold | hnew
    · exact h.ordinary job' hold
    · rw [List.mem_singleton.mp hnew]
      exact hord
  · exact hview ▸ h.inOrder
  · rw [List.flatMap_nil, Multiset.coe_nil, zero_add, unissued, unissued, List.flatMap_append,
      List.flatMap_singleton, Multiset.coe_add]

private theorem find (h : Views name s u) (hP : P (s.broker.view name)) {topicName : Bytes}
    {call : Call}
    (hs' : s.find topicName call = some s') (hcall : call.issues = []) (hclose : call ≠ .close) :
    Answers P name s u [] s' := by
  rw [BrokerState.find, Option.ite_none_left_eq_some] at hs'
  obtain ⟨-, hs'⟩ := hs'
  split at hs'
  · obtain rfl := Option.some_inj.mp hs'
    exact h.stay hP s rfl rfl _
  · obtain rfl := Option.some_inj.mp hs'
    have hids : (Job.enter topicName call).unissued name = [] := by simp [Job.unissued, hcall]
    exact hids ▸ h.spawn hP s.broker rfl rfl hclose

private theorem findOrCreate (h : Views name s u) (hP : P (s.broker.view name)) {topicName : Bytes}
    {job : Job} (hs' : s.findOrCreate topicName job = some s') (hjob : job.tasks name = [])
    (hord : job.Ordinary) : Answers P name s u (job.unissued name) s' := by
  rw [BrokerState.findOrCreate, Option.ite_none_left_eq_some, Option.some_inj] at hs'
  obtain ⟨-, rfl⟩ := hs'
  exact h.spawn hP _ (Broker.view_getOrCreateTopic _) hjob hord

theorem coe_flatMap_eraseIdx {α β : Type*} {l : List α} {i : ℕ} {a : α} (h : l[i]? = some a)
    (f : α → List β) : (↑(l.flatMap f) : Multiset β) = ↑(f a) + ↑((l.eraseIdx i).flatMap f) := by
  obtain ⟨hi, rfl⟩ := List.getElem?_eq_some_iff.mp h
  rw [Multiset.coe_add]
  exact Multiset.coe_eq_coe.mpr ((List.getElem_cons_eraseIdx_perm hi).symm.flatMap_right f)

private theorem resume (h : Views name s u) (hP : P (s.broker.view name)) {i : ℕ} {now : ℤ}
    {order : List Message} (hs' : s.step c (.resume i now order) = some s')
    (hP' : P (s'.broker.view name)) : Answers P name s u [] s' := by
  rw [step, Option.bind_eq_some_iff] at hs'
  obtain ⟨job, hjob, hs'⟩ := hs'
  rw [Option.map_eq_some_iff] at hs'
  obtain ⟨r, hr, rfl⟩ := hs'
  have hseen := Job.seen_of_step hr (h.ordinary job (List.mem_of_getElem? hjob)) h.inOrder
  obtain ⟨ids, hmove, hids⟩ := hseen.move
  have htasks := coe_flatMap_eraseIdx hjob (Job.tasks name)
  have hunissued := coe_flatMap_eraseIdx hjob (Job.unissued name)
  obtain ⟨events, u', hrun, htopic, hafter, hissues⟩ := (hmove
    ↑((s.jobs.eraseIdx i).flatMap (Job.tasks name))).exists_run hP hP' h.topic (by
      rw [h.tasks, tasksOf, htasks]
      abel)
  refine ⟨events, u', hrun, ⟨htopic, ?_, ?_, hseen.inOrder⟩, ?_⟩
  · rw [hafter, tasksOf, List.flatMap_append, ← Multiset.coe_add]
    abel
  · intro job' hjob'
    rcases List.mem_append.mp hjob' with hold | hnew
    · exact h.ordinary job' (List.mem_of_mem_eraseIdx hold)
    · exact hseen.ordinary job' (Option.mem_toList.mp hnew)
  · rw [hissues, unissued, unissued, hunissued, List.flatMap_append, ← Multiset.coe_add,
      Multiset.coe_nil, add_zero]
    rw [← Multiset.coe_add] at hids
    calc (↑ids + (↑((s.jobs.eraseIdx i).flatMap (Job.unissued name))
          + ↑(r.2.toList.flatMap (Job.unissued name))) : Multiset Bytes)
        = (↑ids + ↑(r.2.toList.flatMap (Job.unissued name)))
          + ↑((s.jobs.eraseIdx i).flatMap (Job.unissued name)) := by abel
      _ ≤ _ := add_le_add_left hids _

private theorem giveUp (h : Views name s u) (hP : P (s.broker.view name)) {i : ℕ}
    (hs' : s.step c (.giveUp i) = some s') : Answers P name s u [] s' := by
  rw [BrokerState.step] at hs'
  split at hs'
  · rename_i topicName groupName consumerID hjob
    rw [Option.bind_eq_some_iff] at hs'
    obtain ⟨t, ht, hs'⟩ := hs'
    rw [Option.ite_none_right_eq_some, Option.some_inj] at hs'
    obtain ⟨hempty, rfl⟩ := hs'
    have htasks := coe_flatMap_eraseIdx hjob (Job.tasks name)
    have hunissued := coe_flatMap_eraseIdx hjob (Job.unissued name)
    have hordinary : ∀ job ∈ s.jobs.eraseIdx i, job.Ordinary := fun job hmem ↦
      h.ordinary job (List.mem_of_mem_eraseIdx hmem)
    have hleft : (↑((s.jobs.eraseIdx i).flatMap (Job.unissued name)) : Multiset Bytes)
        ≤ s.unissued name + ↑([] : List Bytes) := by
      rw [unissued, hunissued, Multiset.coe_nil, add_zero]
      exact Multiset.le_add_left _ _
    by_cases hname : topicName = name
    · subst hname
      rw [Job.tasks, if_pos rfl] at htasks
      have hmove := TopicMove.giveUp (Broker.view_of_getTopic ht ▸ hempty) groupName consumerID
        (↑((s.jobs.eraseIdx i).flatMap (Job.tasks topicName))
          + ↑(s.broker.view topicName).closeTasks)
      obtain ⟨events, u', hrun, htopic, hafter, hissues⟩ := hmove.exists_run hP hP h.topic (by
        rw [h.tasks, tasksOf, htasks, Multiset.coe_singleton, add_assoc, Multiset.singleton_add])
      refine ⟨events, u', hrun, ⟨htopic, hafter, hordinary, h.inOrder⟩, ?_⟩
      rw [hissues, Multiset.coe_nil, zero_add]
      exact hleft
    · rw [Job.tasks, if_neg hname, Multiset.coe_nil, zero_add] at htasks
      refine ⟨[], u, Run.nil (h.topic ▸ hP), ⟨h.topic, ?_, hordinary, h.inOrder⟩, ?_⟩
      · rw [h.tasks, tasksOf, htasks]
        rfl
      · rw [List.flatMap_nil, Multiset.coe_nil, zero_add]
        exact hleft
  · exact absurd hs' (by simp)

/-- **A step of the broker**, seen from one topic. -/
theorem step (h : Views name s u) {l : Label} (hs' : s.step c l = some s')
    (hP : P (s.broker.view name)) (hP' : P (s'.broker.view name)) :
    Answers P name s u (l.issues name) s' := by
  cases l with
  | publish topicName payload st front => exact h.findOrCreate hP hs' rfl (by simp [Job.Ordinary])
  | publishDelayed topicName payload delay st now =>
    exact h.findOrCreate hP hs' rfl (by simp [Job.Ordinary])
  | publishBatch topicName payloads =>
    rw [BrokerState.step] at hs'
    split at hs'
    · obtain rfl := Option.some_inj.mp hs'
      exact h.stay hP s rfl rfl _
    · exact h.findOrCreate hP hs' rfl trivial
  | consume topicName => exact h.find hP hs' rfl (by simp)
  | consumeGroup topicName groupName consumerID =>
    have hids : (Job.enter topicName (.consumeGroup groupName consumerID)).unissued name = [] :=
      ite_self []
    exact (hids ▸ h.findOrCreate hP hs' rfl (by simp [Job.Ordinary]) :)
  | createGroup topicName groupName timeout => exact h.findOrCreate hP hs' rfl trivial
  | ack topicName groupName msgID => exact h.find hP hs' rfl (by simp)
  | nack topicName groupName msgID reason => exact h.find hP hs' rfl (by simp)
  | replayDLQ topicName msgID now => exact h.find hP hs' rfl (by simp)
  | purgeDLQ topicName => exact h.find hP hs' rfl (by simp)
  | sweep topicName order => exact h.find hP hs' rfl (by simp)
  | tick topicName =>
    rw [BrokerState.step, Option.map_eq_some_iff] at hs'
    obtain ⟨t, -, rfl⟩ := hs'
    have hids : (Job.enter topicName .advance).unissued name = [] := ite_self []
    have hord : (Job.enter topicName .advance).Ordinary := by simp [Job.Ordinary]
    exact (hids ▸ h.spawn hP s.broker rfl rfl hord :)
  | syncLog =>
    obtain rfl := Option.some_inj.mp hs'
    have hview : s.broker.syncLog.view name = s.broker.view name :=
      Broker.view_of_topics rfl name
    exact h.stay hP ⟨s.broker.syncLog, s.jobs⟩ hview rfl []
  | close order =>
    rw [BrokerState.step, Option.ite_none_left_eq_some] at hs'
    obtain ⟨-, hs'⟩ := hs'
    split at hs'
    · obtain rfl := Option.some_inj.mp hs'
      exact h.stay hP s rfl rfl _
    · rw [Option.ite_none_right_eq_some, Option.some_inj] at hs'
      obtain ⟨-, rfl⟩ := hs'
      have hord : (Job.close order).Ordinary := trivial
      exact h.spawn hP { s.broker with closed := true } (Broker.view_of_topics rfl name) rfl hord
  | resume i now order => exact h.resume hP hs' hP'
  | giveUp i => exact h.giveUp hP hs'

/-- **A whole run.** -/
theorem run (h : Views name s u) {labels : List Label}
    (hrun : Run (fun s ↦ BrokerState.step c s) (fun s ↦ P (s.broker.view name)) s labels s') :
    Answers P name s u (labels.flatMap (Label.issues name)) s' := by
  refine Run.history (I := fun ls v ↦ Answers P name s u (ls.flatMap (Label.issues name)) v)
    (fun ls v l w hv hw hstep hI ↦ ?_) hrun (h.stay hrun.ok_left s rfl rfl _)
  rw [List.flatMap_append, List.flatMap_singleton]
  exact hI.trans fun hviews ↦ hviews.step hstep hv hw

/-! ## How a broker starts -/

private theorem newBroker (wal : Option Wal) (now : ℤ) (name : Bytes) :
    Views name (idle (Broker.newBroker wal now)) (TopicState.init (Topic.default name)) := by
  have hview : (Broker.newBroker wal now).view name = Topic.default name := rfl
  have ho := Topic.isOpen_default name
  refine ⟨hview.symm, ?_, by simp [idle], ⟨fun _ ↦ ho.ring, fun _ ↦ ho.wheel⟩⟩
  rw [tasksOf_idle, hview, Topic.closeTasks, if_pos ho.topic]
  rfl

private theorem recover {b : Broker} (h : Views name (idle b) u) {msg : Message}
    (hP : P (b.view name)) (hP' : P ((b.recover msg).view name)) :
    Answers P name (idle b) u (if msg.topic = name then [msg.id] else [])
      (idle (b.recover msg)) := by
  by_cases hname : msg.topic = name
  · subst hname
    have hview : (b.recover msg).view msg.topic = ((b.view msg.topic).runPublish msg false).2 := by
      rw [Broker.recover, Broker.view_setTopic_self, Broker.getOrCreateTopic_fst]
    rw [hview] at hP'
    cases hclosed : (b.view msg.topic).closed with
    | true =>
      rw [Topic.runPublish, if_pos hclosed] at hview
      exact h.stay hP (idle (b.recover msg)) hview rfl _
    | false =>
      rw [Topic.runPublish, if_neg (by simp [hclosed])] at hview hP'
      have hcloses : (b.view msg.topic).closeTasks = [] := if_pos hclosed
      have hstart : (b.view msg.topic).start Ledger.empty (.publish msg false)
          = some (b.view msg.topic, Ledger.empty.issue msg.id, some (.publish msg false)) := by
        simp [Topic.start, Topic.closing, hclosed]
      have hresume : (Task.publish msg false).resume (b.view msg.topic) Ledger.empty 0 []
          = some (((b.view msg.topic).push msg false).2, Ledger.empty, none) := rfl
      have htasks : ↑u.tasks = (↑([] : List Task) + 0 : Multiset Task) := by
        rw [h.tasks, tasksOf_idle, hcloses]
        rfl
      obtain ⟨events, v, hrun, htopic, hv, hissues⟩ :=
        (TopicMove.ofCall hstart 0).exists_run hP hP h.topic htasks
      obtain ⟨events', w, hrun', htopic', hw, hissues'⟩ :=
        (TopicMove.resume hresume 0).exists_run hP hP' htopic (hv.trans rfl)
      have hleaves := Task.leaves_resume hresume id
      refine ⟨events ++ events', w, hrun.append hrun', ⟨htopic'.trans hview.symm, ?_, ?_, ?_⟩, ?_⟩
      · have hcloses' : ((b.recover msg).view msg.topic).closeTasks = [] := by
          rw [hview, Topic.closeTasks_of_switches hleaves.switches, hcloses]
        rw [hw, tasksOf_idle, hcloses']
        rfl
      · simp [idle]
      · change ((b.recover msg).view msg.topic).ClosesInOrder
        rw [hview]
        exact h.inOrder.of_switches hleaves.switches
      · rw [List.flatMap_append, hissues, hissues', if_pos rfl]
        exact le_rfl
  · have hview : (b.recover msg).view name = b.view name := by
      rw [Broker.recover, Broker.view_setTopic_ne (Ne.symm hname), Broker.view_getOrCreateTopic]
    exact h.stay hP (idle (b.recover msg)) hview rfl _

theorem foldl_recover {b : Broker} (h : Views name (idle b) u) : ∀ {msgs : List Message},
    (∀ ms, ms <+: msgs → P ((ms.foldl Broker.recover b).view name)) →
    Answers P name (idle b) u ((msgs.filter fun m ↦ m.topic = name).map Message.id)
      (idle (msgs.foldl Broker.recover b)) := by
  intro msgs
  -- from the end, since the side condition is about what has been put back so far
  induction msgs using List.reverseRecOn with
  | nil => exact fun hP ↦ h.stay (hP [] List.prefix_rfl) _ rfl rfl _
  | append_singleton msgs msg ih =>
    intro hP
    have hfront := ih fun ms hms ↦ hP ms (hms.trans (msgs.prefix_append _))
    have hlast := hP (msgs ++ [msg]) List.prefix_rfl
    have hids : ((msgs ++ [msg]).filter fun m ↦ m.topic = name).map Message.id
        = (msgs.filter fun m ↦ m.topic = name).map Message.id
          ++ if msg.topic = name then [msg.id] else [] := by
      rw [List.filter_append, List.map_append, List.filter_singleton]
      split <;> simp_all
    rw [List.foldl_append, List.foldl_cons, List.foldl_nil] at hlast ⊢
    rw [hids]
    exact hfront.trans fun hviews ↦ hviews.recover (hP msgs (msgs.prefix_append _)) hlast

end Views

/-- The broker as `main` makes it, before anything is replayed. -/
def Start.empty (now : ℤ) : Start → Broker
  | .inMemory => Broker.newBroker none now
  | .withLog dir policy => Broker.newBroker (some (Wal.openWAL dir policy)) now

theorem Start.broker_eq (c : Codec) (now : ℤ) (start : Start) :
    start.broker c now = (start.messages c).foldl Broker.recover (start.empty now) := by
  cases start <;> rfl

theorem views_start (start : Start) (now : ℤ) (name : Bytes) :
    Views name (idle (start.empty now)) (TopicState.init (Topic.default name)) := by
  cases start <;> exact .newBroker _ _ _

/-- **Every topic of a broker is a topic on its own.** Take any interleaving of the operations of a
broker, from the start of the process on, with or without messages to recover, `Close` and what
comes after it included. Seen from one topic, it is an interleaving of operations on that topic
alone, started with a new topic. It ends with the same topic and with the same operations in
progress, and the messages it publishes are, each at most once, among those that were recovered or
made for the topic. What holds of the topic all the time holds of the topic on its own all the
time. -/
theorem exists_topicRun (c : Codec) (start : Start) (now : ℤ) (name : Bytes) (P : Topic → Prop)
    (hrecover : ∀ msgs, msgs <+: start.messages c →
      P ((msgs.foldl Broker.recover (start.empty now)).view name))
    {labels : List Label} {s : BrokerState}
    (hrun : Run (fun s ↦ step c s) (fun s ↦ P (s.broker.view name)) (idle (start.broker c now))
      labels s) :
    ∃ events u, Run TopicState.react (fun u ↦ P u.topic) (TopicState.init (Topic.default name))
        events u ∧
      u.topic = s.broker.view name ∧ ↑u.tasks = s.tasksOf name ∧
      (events.flatMap TopicEvent.issues).Subperm
        (((start.messages c).filter fun m ↦ m.topic = name).map Message.id
          ++ labels.flatMap (Label.issues name)) := by
  have hstart := (views_start start now name).foldl_recover hrecover
  rw [← Start.broker_eq] at hstart
  obtain ⟨events, u, hevents, hviews, hle⟩ := hstart.trans fun hviews ↦ hviews.run hrun
  refine ⟨events, u, hevents, hviews.topic, hviews.tasks, ?_⟩
  have hidle : (idle (start.empty now)).unissued name = 0 := rfl
  rw [hidle, zero_add] at hle
  exact Multiset.coe_le.mp ((Multiset.le_add_right _ _).trans hle)

/-- A batch of two, stopped between the check and the push of its first message, is a `Publish` of
that message. -/
theorem exists_topicRun_batch :
    ∃ s, Run (fun s ↦ step MessageJson.codec s)
        (fun s ↦ (s.broker.view (bytesOf "orders")).closed = false)
        (idle (Start.inMemory.broker MessageJson.codec 0))
        [.publishBatch (bytesOf "orders") [(some (bytesOf "a"), BrokerHistory.jobStamp),
          (some (bytesOf "b"), BrokerHistory.jobStamp)], .resume 0 0 [], .resume 0 0 []] s ∧
      ∃ events u, Run TopicState.react (fun u ↦ u.topic.closed = false)
          (TopicState.init (Topic.default (bytesOf "orders"))) events u ∧
        u.topic = s.broker.view (bytesOf "orders") ∧
        u.tasks = [.publish (BrokerHistory.jobStamp.message (bytesOf "orders")
          (some (bytesOf "a"))) false] := by
  have hsome : (Run.exec (fun s ↦ step MessageJson.codec s)
      (fun s ↦ (s.broker.view (bytesOf "orders")).closed = false)
      (idle (Start.inMemory.broker MessageJson.codec 0))
      [.publishBatch (bytesOf "orders") [(some (bytesOf "a"), BrokerHistory.jobStamp),
        (some (bytesOf "b"), BrokerHistory.jobStamp)], .resume 0 0 [], .resume 0 0 []]).isSome := by
    decide +kernel
  have hrun := Run.of_exec (Option.some_get hsome).symm
  have htasks := hrun.of_exec_map (f := fun s ↦ s.tasksOf (bytesOf "orders"))
    (a := {.publish (BrokerHistory.jobStamp.message (bytesOf "orders")
      (some (bytesOf "a"))) false}) (by decide +kernel)
  have hrecover : ∀ msgs, msgs <+: Start.inMemory.messages MessageJson.codec →
      ((msgs.foldl Broker.recover (Start.inMemory.empty 0)).view (bytesOf "orders")).closed
        = false := by
    intro msgs hmsgs
    obtain rfl := List.prefix_nil.mp hmsgs
    rfl
  obtain ⟨events, u, hevents, htopic, hu, -⟩ := exists_topicRun MessageJson.codec .inMemory 0
    (bytesOf "orders") (fun t ↦ t.closed = false) hrecover hrun
  exact ⟨_, hrun, events, u, hevents, htopic, Multiset.coe_eq_singleton.mp (hu.trans htasks)⟩

end BrokerState

end VortexMQ
