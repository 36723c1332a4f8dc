import VortexMQ.Queue.PublishRace
import VortexMQ.Queue.Recovery
import VortexMQ.Queue.Stats
import VortexMQ.Queue.TopicSystem

/-!
# Totals

A topic counts what it publishes, hands out, acknowledges and fails, and the broker counts the same
events again in totals of its own. The two are not updated together: a topic's method counts and
returns, and the broker's method, if it is told of a success, adds to the total later, when other
operations may have come in between.

Here every operation of the broker is a job that proceeds one critical section or one atomic
addition at a time. A job that has been told of a success and has not yet passed it on owes it to
the totals. What the topics have counted beyond the totals is what the jobs owe and what `main` has
put into the topics at the start, behind the broker's back.
-/

namespace VortexMQ

/-- What is counted by every topic and again by the broker. -/
inductive Counter where
  | published
  | consumed
  | acked
  | nacked
  deriving DecidableEq

def tally (event : Option Counter) (k : Counter) : UInt64 := if event = some k then 1 else 0

/-- Dead letters apart, which have no counter at the broker. -/
def Topic.count (t : Topic) : Counter → UInt64
  | .published => t.published
  | .consumed => t.consumed
  | .acked => t.acked
  | .nacked => t.nacked

/-- The success that the first section of a call reports to the broker, if it is the last. -/
def Topic.reports (t : Topic) : Call → Option Counter
  | .publishDelayed _ _ _ => some .published
  | .consume => t.consume.map fun _ ↦ .consumed
  | _ => none

/-- The success that a later section reports. -/
def Task.reports (t : Topic) : Task → Option Counter
  | .publish msg front => if (t.push msg front).1 then some .published else none
  | .checkout _ _ _ => some .consumed
  | .ack groupName msgID => if (t.runAck groupName msgID).1 then some .acked else none
  | .fail _ _ => some .nacked
  | _ => none

namespace Broker

def total (b : Broker) : Counter → UInt64
  | .published => b.totalPublished
  | .consumed => b.totalConsumed
  | .acked => b.totalAcked
  | .nacked => b.totalNacked

/-- `atomic.AddUint64` on a total. -/
def addTotal (b : Broker) (n : UInt64) : Counter → Broker
  | .published => { b with totalPublished := b.totalPublished + n }
  | .consumed => { b with totalConsumed := b.totalConsumed + n }
  | .acked => { b with totalAcked := b.totalAcked + n }
  | .nacked => { b with totalNacked := b.totalNacked + n }

def sum (b : Broker) (k : Counter) : UInt64 := (b.topics.entries.map fun e ↦ e.2.count k).sum

/-- What the topics have counted and the totals have not. -/
def excess (b : Broker) (k : Counter) : UInt64 := b.sum k - b.total k

end Broker

/-! ## Operations of the broker in progress -/

/-- An operation of the broker, stopped between two of its steps. The topic it works on has been
looked up; topics are never removed. -/
inductive Job where
  /-- `Publish`, `PublishFront` or `PublishDelayed`, about to write to the log and then to make a
  call on the topic. -/
  | log (msg : Message) (call : Call)
  /-- About to make a call on the topic. -/
  | enter (topicName : Bytes) (call : Call)
  /-- In the middle of a call on the topic. -/
  | inTopic (topicName : Bytes) (task : Task)
  /-- `PublishBatch` at the head of its loop, with what it has counted. -/
  | batch (topicName : Bytes) (msgs : List Message) (count : ℕ)
  /-- `PublishBatch`, about to check the closed flag of the topic. -/
  | batchCheck (topicName : Bytes) (msg : Message) (msgs : List Message) (count : ℕ)
  /-- `PublishBatch`, about to push. -/
  | batchPush (topicName : Bytes) (msg : Message) (msgs : List Message) (count : ℕ)
  /-- About to add to a total; `Ack` has a record to write afterwards. -/
  | add (k : Counter) (n : ℕ) (record : Option (Bytes × Bytes × Bytes))
  /-- `Ack`, about to write its record. -/
  | logAck (topicName groupName msgID : Bytes)
  /-- `XGROUP CREATE`, about to make the group. -/
  | createGroup (topicName groupName : Bytes) (timeout : ℤ)
  /-- `Close`, with the topics it has yet to deal with. It holds the broker's mutex. -/
  | close (order : List Bytes)

namespace Job

/-- Successes that the job has been told of and has not yet added to the totals. -/
def owes (k : Counter) : Job → UInt64
  | .batch _ _ count | .batchCheck _ _ _ count | .batchPush _ _ _ count =>
      if .published = k then UInt64.ofNat count else 0
  | .add k' n _ => if k' = k then UInt64.ofNat n else 0
  | _ => 0

/-- What comes after a critical section of the topic: the next one or, if the method has returned,
the addition to the total. -/
def next (topicName : Bytes) (rest : Option Task) (report : Option Counter)
    (record : Option (Bytes × Bytes × Bytes)) : Option Job :=
  match rest with
  | some task => some (.inTopic topicName task)
  | none => report.map fun k ↦ .add k 1 record

/-- The record that `Ack` writes. -/
def record (topicName : Bytes) : Task → Option (Bytes × Bytes × Bytes)
  | .ack groupName msgID => some (topicName, groupName, msgID)
  | _ => none

/-- The next step of an operation in progress, and what is left of the operation. The ledger of the
topic's sections is not used. -/
def step (c : Codec) (b : Broker) (now : ℤ) (order : List Message) :
    Job → Option (Broker × Option Job)
  | .log msg call =>
      (b.logPublish c msg).map fun r ↦
        match r.1 with
        | .error _ => (r.2, none)
        | .ok _ => (r.2, some (.enter msg.topic call))
  | .enter topicName call =>
      (b.getTopic topicName).bind fun t ↦
        (t.start Ledger.empty call).map fun r ↦
          (b.setTopic topicName r.1, next topicName r.2.2 (t.reports call) none)
  | .inTopic topicName task =>
      (b.getTopic topicName).bind fun t ↦
        (task.resume t Ledger.empty now order).map fun r ↦
          (b.setTopic topicName r.1,
            next topicName r.2.2 (task.reports t) (record topicName task))
  | .batch _ [] count => some (b, some (.add .published count none))
  | .batch topicName (msg :: msgs) count =>
      -- an error of the log is ignored
      (b.logPublish c msg).map fun r ↦ (r.2, some (.batchCheck topicName msg msgs count))
  | .batchCheck topicName msg msgs count =>
      (b.getTopic topicName).bind fun t ↦
        if t.closing then none
        else if t.closed then some (b, some (.batch topicName msgs count))
        else some (b, some (.batchPush topicName msg msgs count))
  | .batchPush topicName msg msgs count =>
      (b.getTopic topicName).map fun t ↦
        (b.setTopic topicName (t.push msg false).2,
          some (.batch topicName msgs (if (t.push msg false).1 then count + 1 else count)))
  | .add k n record =>
      some (b.addTotal (UInt64.ofNat n) k, record.map fun r ↦ .logAck r.1 r.2.1 r.2.2)
  | .logAck topicName groupName msgID =>
      (b.logAck topicName groupName msgID).map fun b' ↦ (b', none)
  | .createGroup topicName groupName timeout =>
      (b.getTopic topicName).bind fun t ↦
        if t.closing then none
        else some (b.setTopic topicName (t.getOrCreateGroup groupName timeout), none)
  | .close [] => some ({ b with wal := b.wal.map Wal.close }, none)
  | .close (topicName :: rest) =>
      (b.getTopic topicName).map fun t ↦
        match PublishSystem.closeTopic t with
        | some t' => (b.setTopic topicName t', some (.close (topicName :: rest)))
        | none => (b, some (.close rest))

def isClose : Job → Bool
  | .close _ => true
  | _ => false

end Job

/-- The broker and its operations in progress. -/
structure BrokerState where
  broker : Broker
  jobs : List Job

namespace BrokerState

inductive Label where
  /-- `Publish` and, with `front`, `PublishFront`. -/
  | publish (topicName : Bytes) (payload : Option Bytes) (st : Stamp) (front : Bool)
  | publishDelayed (topicName : Bytes) (payload : Option Bytes) (delay : ℤ) (st : Stamp) (now : ℤ)
  | publishBatch (topicName : Bytes) (payloads : List (Option Bytes × Stamp))
  | consume (topicName : Bytes)
  | consumeGroup (topicName groupName consumerID : Bytes)
  | createGroup (topicName groupName : Bytes) (timeout : ℤ)
  | ack (topicName groupName msgID : Bytes)
  | nack (topicName groupName msgID reason : Bytes)
  | replayDLQ (topicName msgID : Bytes) (now : ℤ)
  | purgeDLQ (topicName : Bytes)
  /-- `sweepAllTimeouts` turns to a topic, and will go through its groups in this order. -/
  | sweep (topicName : Bytes) (order : List Bytes)
  /-- A tick of the topic's wheel. -/
  | tick (topicName : Bytes)
  | syncLog
  /-- `Close`, with the order in which it will go through the topics. -/
  | close (order : List Bytes)
  /-- The `i`-th operation in progress takes its next step. -/
  | resume (i : ℕ) (now : ℤ) (order : List Message)
  /-- The `i`-th operation is a `ConsumeGroup` on an empty ring and gives up. -/
  | giveUp (i : ℕ)

/-- A broker and no operation in progress. -/
def idle (b : Broker) : BrokerState := ⟨b, []⟩

/-- `Close` holds the mutex of the broker. -/
def locked (s : BrokerState) : Bool := s.jobs.any Job.isClose

/-- `GetTopic`, and on to the topic if there is one. -/
def find (s : BrokerState) (topicName : Bytes) (call : Call) : Option BrokerState :=
  if s.locked then none
  else match s.broker.getTopic topicName with
    | none => some s
    | some _ => some { s with jobs := s.jobs ++ [.enter topicName call] }

/-- `GetOrCreateTopic`, and on with the job. -/
def findOrCreate (s : BrokerState) (topicName : Bytes) (job : Job) : Option BrokerState :=
  if s.locked then none
  else some ⟨(s.broker.getOrCreateTopic topicName).2, s.jobs ++ [job]⟩

def step (c : Codec) (s : BrokerState) : Label → Option BrokerState
  | .publish topicName payload st front =>
      s.findOrCreate topicName
        (.log (st.message topicName payload) (.publish (st.message topicName payload) front))
  | .publishDelayed topicName payload delay st now =>
      s.findOrCreate topicName
        (.log (st.message topicName payload)
          (.publishDelayed (st.message topicName payload) delay now))
  | .publishBatch topicName payloads =>
      if payloads = [] then some s
      else s.findOrCreate topicName (.batch topicName (Broker.batchMessages topicName payloads) 0)
  | .consume topicName => s.find topicName .consume
  | .consumeGroup topicName groupName consumerID =>
      s.findOrCreate topicName (.enter topicName (.consumeGroup groupName consumerID))
  | .createGroup topicName groupName timeout =>
      s.findOrCreate topicName (.createGroup topicName groupName timeout)
  | .ack topicName groupName msgID => s.find topicName (.ack groupName msgID)
  | .nack topicName groupName msgID reason => s.find topicName (.nack groupName msgID reason)
  | .replayDLQ topicName msgID now => s.find topicName (.replayDeadLetter msgID now)
  | .purgeDLQ topicName => s.find topicName .dlqPurge
  | .sweep topicName order => s.find topicName (.sweepConsumerTimeouts order)
  | .tick topicName =>
      (s.broker.getTopic topicName).map fun _ ↦
        { s with jobs := s.jobs ++ [.enter topicName .advance] }
  | .syncLog => some { s with broker := s.broker.syncLog }
  | .close order =>
      if s.locked then none
      else if s.broker.closed then some s
      else if order.Perm s.broker.topics.keys then
        some ⟨{ s.broker with closed := true }, s.jobs ++ [.close order]⟩
      else none
  | .resume i now order =>
      (s.jobs[i]?).bind fun job ↦
        (job.step c s.broker now order).map fun r ↦ ⟨r.1, s.jobs.eraseIdx i ++ r.2.toList⟩
  | .giveUp i =>
      match s.jobs[i]? with
      | some (.inTopic topicName (.popWait _ _)) =>
          (s.broker.getTopic topicName).bind fun t ↦
            if t.ring.items = [] then some { s with jobs := s.jobs.eraseIdx i } else none
      | _ => none

def owed (k : Counter) (jobs : List Job) : UInt64 := (jobs.map (Job.owes k)).sum

/-- How a broker starts: without a log, or with one, on a directory with whatever is in it. -/
inductive Start where
  | inMemory
  | withLog (dir : Directory) (policy : FsyncPolicy)

/-- The broker as `main` makes it. -/
def Start.broker (c : Codec) (now : ℤ) : Start → Broker
  | .inMemory => Broker.newBroker none now
  | .withLog dir policy => Broker.boot c dir policy now

/-- The messages that `Replay` delivers to `main`. -/
def Start.messages (c : Codec) : Start → List Message
  | .inMemory => []
  | .withLog dir policy => (replay c (Wal.openWAL dir policy).dir).2

/-- How many there are. -/
def Start.recovered (c : Codec) (start : Start) : ℕ := (start.messages c).length

end BrokerState

/-- The totals are the sums over the topics. -/
structure BrokerStats.Agrees (s : BrokerStats) : Prop where
  published : s.totalPublished = (s.topics.map TopicStats.published).sum
  consumed : s.totalConsumed = (s.topics.map TopicStats.consumed).sum
  acked : s.totalAcked = (s.topics.map TopicStats.acked).sum
  nacked : s.totalNacked = (s.topics.map TopicStats.nacked).sum
  deadLettered : s.totalDLQ = (s.topics.map TopicStats.deadLettered).sum

section Arithmetic

open scoped UInt64.CommRing

/-! ## Topics -/

namespace Topic

variable (t : Topic) (msg : Message) {t' : Topic}

theorem count_same {t t' : Topic} (h : t'.count = t.count) (k : Counter) :
    t'.count k = t.count k + tally none k :=
  (congrFun h k).trans (add_zero _).symm

theorem count_schedule (delay : ℤ) : (t.schedule msg delay).count = t.count := by
  rw [schedule]
  split <;> rfl

private theorem count_route (now : ℤ) (r : ConsumerGroup.Route) :
    (t.route msg now r).count = t.count := by
  cases r with
  | deadLetter => rfl
  | retry delay => exact t.count_schedule msg delay

theorem count_getOrCreateGroup (groupName : Bytes) (timeout : ℤ) :
    (t.getOrCreateGroup groupName timeout).count = t.count := by
  rw [getOrCreateGroup]
  split <;> rfl

theorem count_countPublished (k : Counter) :
    (t.countPublished msg).count k = t.count k + tally (some .published) k := by
  cases k with
  | published => rfl
  | consumed | acked | nacked => exact (add_zero _).symm

theorem count_countConsumed (k : Counter) :
    (t.countConsumed msg).count k = t.count k + tally (some .consumed) k := by
  cases k with
  | consumed => rfl
  | published | acked | nacked => exact (add_zero _).symm

theorem count_push (front : Bool) (k : Counter) :
    (t.push msg front).2.count k
      = t.count k + tally (if (t.push msg front).1 then some .published else none) k := by
  unfold push
  simp only
  by_cases hok : (if front then t.ring.pushFront msg else t.ring.push msg).1
  · rw [if_pos hok, if_pos rfl]
    exact count_countPublished _ msg k
  · rw [if_neg hok, if_neg Bool.false_ne_true]
    exact (add_zero _).symm

private theorem count_consume {r : Message × Topic} (h : t.consume = some r) (k : Counter) :
    r.2.count k = t.count k + tally (some .consumed) k := by
  rw [consume, Option.map_eq_some_iff] at h
  obtain ⟨⟨m, t₁⟩, hpop, rfl⟩ := h
  rw [pop, Option.map_eq_some_iff] at hpop
  obtain ⟨m', -, heq⟩ := hpop
  rw [Prod.mk.injEq] at heq
  obtain ⟨-, rfl⟩ := heq
  exact count_countConsumed _ m k

private theorem count_checkout {groupName consumerID : Bytes} {now : ℤ}
    (h : t.checkout groupName consumerID msg now = some t') (k : Counter) :
    t'.count k = t.count k + tally (some .consumed) k := by
  rw [checkout, Option.map_eq_some_iff] at h
  obtain ⟨cg, -, rfl⟩ := h
  exact count_countConsumed _ msg k

private theorem count_ack {groupName msgID : Bytes} {r : Bool × Topic}
    (h : t.ack groupName msgID = some r) (k : Counter) :
    r.2.count k = t.count k + tally (if r.1 then some .acked else none) k := by
  rw [ack, Option.map_eq_some_iff] at h
  obtain ⟨cg, -, rfl⟩ := h
  by_cases hok : (cg.ack msgID).1
  · rw [if_pos hok, if_pos rfl]
    cases k with
    | acked => rfl
    | published | consumed | nacked => exact (add_zero _).symm
  · rw [if_neg hok, if_neg Bool.false_ne_true]
    exact (add_zero _).symm

private theorem count_start {L : Ledger} {call : Call} {r : Section} (h : t.start L call = some r) :
    (∀ k, r.1.count k = t.count k + tally (t.reports call) k) ∧
      (r.2.2 ≠ none → t.reports call = none) := by
  cases call with
  | publish msg front =>
    rw [start, Option.ite_none_left_eq_some] at h
    obtain ⟨-, h⟩ := h
    split at h <;> · rw [← Option.some_inj.mp h]; exact ⟨count_same rfl, fun _ ↦ rfl⟩
  | publishDelayed msg delay now =>
    rw [← Option.some_inj.mp h]
    refine ⟨fun k ↦ ?_, fun hne ↦ absurd rfl hne⟩
    rw [Topic.publishDelayed, count_schedule]
    exact count_countPublished t msg k
  | consume =>
    rw [start] at h
    rw [reports]
    cases hconsume : t.consume with
    | none =>
      rw [hconsume] at h
      rw [← Option.some_inj.mp h]
      exact ⟨count_same rfl, fun _ ↦ rfl⟩
    | some r' =>
      rw [hconsume] at h
      rw [← Option.some_inj.mp h]
      exact ⟨t.count_consume hconsume, fun hne ↦ absurd rfl hne⟩
  | consumeGroup groupName consumerID =>
    rw [start, Option.ite_none_left_eq_some] at h
    rw [← Option.some_inj.mp h.2]
    exact ⟨count_same (t.count_getOrCreateGroup _ _), fun _ ↦ rfl⟩
  | ack | nack =>
    rw [start, Option.ite_none_left_eq_some] at h
    rw [← Option.some_inj.mp h.2]
    exact ⟨count_same rfl, fun _ ↦ rfl⟩
  | sweepConsumerTimeouts order =>
    rw [start, Option.ite_none_left_eq_some, Option.ite_none_right_eq_some] at h
    rw [← Option.some_inj.mp h.2.2]
    exact ⟨count_same rfl, fun _ ↦ rfl⟩
  | advance | dlqPurge =>
    rw [← Option.some_inj.mp h]
    exact ⟨count_same rfl, fun _ ↦ rfl⟩
  | replayDeadLetter | dlqRemove =>
    rw [start] at h
    split at h <;> · rw [← Option.some_inj.mp h]; exact ⟨count_same rfl, fun _ ↦ rfl⟩
  | close =>
    rw [start, Option.ite_none_left_eq_some] at h
    obtain ⟨-, h⟩ := h
    split at h <;> · rw [← Option.some_inj.mp h]; exact ⟨count_same rfl, fun _ ↦ rfl⟩

private theorem count_resume {L : Ledger} {now : ℤ} {order : List Message} {task : Task}
    {r : Section} (h : task.resume t L now order = some r) :
    (∀ k, r.1.count k = t.count k + tally (task.reports t) k) ∧
      (r.2.2 ≠ none → task.reports t = none) := by
  cases task with
  | publish msg front =>
    rw [← Option.some_inj.mp h]
    exact ⟨t.count_push msg front, fun hne ↦ absurd rfl hne⟩
  | popWait groupName consumerID =>
    rw [Task.resume, pop, Option.map_map, Option.map_eq_some_iff] at h
    obtain ⟨m, -, rfl⟩ := h
    exact ⟨count_same rfl, fun _ ↦ rfl⟩
  | checkout groupName consumerID msg =>
    obtain ⟨t₁, ht₁, rfl⟩ := Option.map_eq_some_iff.mp h
    exact ⟨t.count_checkout msg ht₁, fun hne ↦ absurd rfl hne⟩
  | ack groupName msgID =>
    obtain ⟨r', hr', rfl⟩ := Option.map_eq_some_iff.mp h
    have hrun : t.runAck groupName msgID = r' := by rw [runAck, hr', Option.getD_some]
    refine ⟨fun k ↦ ?_, fun hne ↦ absurd rfl hne⟩
    rw [Task.reports, hrun]
    exact t.count_ack hr' k
  | nack groupName msgID reason =>
    obtain ⟨cg, -, rfl⟩ := Option.map_eq_some_iff.mp h
    cases cg.nackTake msgID with
    | none => exact ⟨count_same rfl, fun _ ↦ rfl⟩
    | some taken => exact ⟨count_same rfl, fun _ ↦ rfl⟩
  | fail msg reason =>
    obtain ⟨route, -, rfl⟩ := Option.map_eq_some_iff.mp h
    refine ⟨fun k ↦ ?_, fun hne ↦ absurd rfl hne⟩
    have hroute := t.count_route (ConsumerGroup.fail msg reason) now route
    cases k with
    | nacked => rfl
    | published => exact (congrFun hroute .published).trans (add_zero _).symm
    | consumed => exact (congrFun hroute .consumed).trans (add_zero _).symm
    | acked => exact (congrFun hroute .acked).trans (add_zero _).symm
  | sweep groups timedOut =>
    cases timedOut with
    | cons msg timedOut =>
      cases groups <;>
      · rw [← Option.some_inj.mp h]
        exact ⟨count_same (t.count_route _ _ _), fun _ ↦ rfl⟩
    | nil =>
      cases groups with
      | nil => rw [← Option.some_inj.mp h]; exact ⟨count_same rfl, fun _ ↦ rfl⟩
      | cons groupName groups =>
        obtain ⟨t₁, ht₁, rfl⟩ := Option.map_eq_some_iff.mp h
        rw [sweepGroup, Option.bind_eq_some_iff] at ht₁
        obtain ⟨cg, -, ht₁⟩ := ht₁
        rw [Option.ite_none_right_eq_some] at ht₁
        rw [← Option.some_inj.mp ht₁.2]
        exact ⟨count_same rfl, fun _ ↦ rfl⟩
  | expire msgs =>
    cases msgs <;> · rw [← Option.some_inj.mp h]; exact ⟨count_same rfl, fun _ ↦ rfl⟩
  | replay | closeRing | closeWheel =>
    rw [← Option.some_inj.mp h]
    exact ⟨count_same rfl, fun _ ↦ rfl⟩

private theorem count_default (name : Bytes) (k : Counter) : (Topic.default name).count k = 0 := by
  have h : newTopic name 131072 = some (Topic.default name) := (Option.some_get _).symm
  rw [newTopic, Option.map_eq_some_iff] at h
  obtain ⟨ring, -, heq⟩ := h
  rw [← heq]
  cases k <;> rfl

private theorem count_closeTopic (h : PublishSystem.closeTopic t = some t') :
    t'.count = t.count := by
  rw [PublishSystem.closeTopic] at h
  split at h
  · rw [← Option.some_inj.mp h]; rfl
  · split at h
    · rw [← Option.some_inj.mp h]; rfl
    · rw [Option.ite_none_right_eq_some] at h
      rw [← Option.some_inj.mp h.2]; rfl

end Topic

/-! ## The broker -/

namespace Broker

variable (b : Broker) {b' : Broker} {c : Codec} (k : Counter)

private theorem sum_eq_add : b.sum k = b.excess k + b.total k := (sub_add_cancel _ _).symm

private theorem excess_addTotal (n : UInt64) (k' : Counter) :
    (b.addTotal n k').excess k + (if k' = k then n else 0) = b.excess k := by
  cases k' <;> cases k <;> simp only [excess, sum, addTotal, total, reduceCtorEq, if_true, if_false]
    <;> ring

private theorem sum_setTopic {name : Bytes} {t : Topic} (h : b.getTopic name = some t)
    (t' : Topic) : t.count k + (b.setTopic name t').sum k = t'.count k + b.sum k := by
  have hperm : ([t.count k] ++ (b.setTopic name t').topics.entries.flatMap
        fun e ↦ [e.2.count k]).Perm
      ([t'.count k] ++ b.topics.entries.flatMap fun e ↦ [e.2.count k]) :=
    flatMap_insert_perm (fun t : Topic ↦ [t.count k]) h
  have hsum := hperm.sum_eq
  rw [List.sum_append, List.sum_append, List.sum_singleton, List.sum_singleton,
    ← List.map_eq_flatMap, ← List.map_eq_flatMap] at hsum
  exact hsum

theorem excess_setTopic {name : Bytes} {t t' : Topic} {n : UInt64} (h : b.getTopic name = some t)
    (ht' : t'.count k = t.count k + n) : (b.setTopic name t').excess k = b.excess k + n := by
  have hsum := b.sum_setTopic k h t'
  rw [ht', add_assoc, add_right_inj] at hsum
  rw [excess, hsum]
  change n + b.sum k - b.total k = b.sum k - b.total k + n
  ring

theorem excess_getOrCreateTopic (name : Bytes) :
    (b.getOrCreateTopic name).2.excess k = b.excess k := by
  rw [getOrCreateTopic]
  split
  · rfl
  · rename_i hnone
    have hmem : name ∉ b.topics := AList.lookup_eq_none.mp hnone
    have hsum : (b.setTopic name (Topic.default name)).sum k = b.sum k := by
      rw [sum, setTopic, AList.entries_insert_of_notMem hmem, List.map_cons, List.sum_cons,
        Topic.count_default, zero_add]
      rfl
    rw [excess, hsum]
    rfl

private theorem excess_logPublish {msg : Message} {r : Except Bytes Unit × Broker}
    (h : b.logPublish c msg = some r) : r.2.excess k = b.excess k := by
  rw [logPublish] at h
  split at h
  · rw [← Option.some_inj.mp h]
  · obtain ⟨r', -, rfl⟩ := Option.map_eq_some_iff.mp h
    rfl

private theorem excess_logAck {topicName groupName msgID : Bytes}
    (h : b.logAck topicName groupName msgID = some b') : b'.excess k = b.excess k := by
  rw [logAck] at h
  split at h
  · rw [← Option.some_inj.mp h]
  · obtain ⟨r', -, rfl⟩ := Option.map_eq_some_iff.mp h
    rfl

/-- A recovered message is counted by its topic, which is open, and not by the broker. -/
theorem excess_recover {b : Broker} (h : b.Accepts) (msg : Message) :
    (b.recover msg).excess k = b.excess k + tally (some .published) k := by
  obtain ⟨ht, -⟩ := h.getOrCreateTopic msg.topic
  have hcount : ((b.getOrCreateTopic msg.topic).1.runPublish msg false).2.count k
      = (b.getOrCreateTopic msg.topic).1.count k + tally (some .published) k := by
    have hok := (ht.runPublish msg false).1
    have hclosed : (b.getOrCreateTopic msg.topic).1.closed = false := congrArg Prod.fst ht
    rw [Topic.runPublish, hclosed, if_neg Bool.false_ne_true] at hok ⊢
    rw [Topic.count_push, if_pos hok]
  rw [Broker.recover, excess_setTopic _ k (b.lookup_getOrCreateTopic msg.topic) hcount,
    excess_getOrCreateTopic]

private theorem excess_foldl_recover : ∀ {msgs : List Message} {b : Broker}, b.Accepts →
    (msgs.foldl Broker.recover b).excess k
      = b.excess k + if k = .published then UInt64.ofNat msgs.length else 0 := by
  intro msgs
  induction msgs with
  | nil =>
    intro b _
    split <;> exact (add_zero _).symm
  | cons msg msgs ih =>
    intro b h
    have hnext : (b.recover msg).Accepts := @accepts_foldl_recover [msg] b h
    rw [List.foldl_cons, ih hnext, excess_recover k h, List.length_cons]
    cases k with
    | published =>
      rw [if_pos rfl, if_pos rfl, UInt64.ofNat_add]
      change b.excess .published + 1 + _ = b.excess .published + (_ + 1)
      ring
    | consumed | acked | nacked => exact add_zero _

private theorem total_foldl_recover : ∀ {msgs : List Message} {b : Broker},
    (msgs.foldl Broker.recover b).total = b.total := by
  intro msgs
  induction msgs with
  | nil => intro b; rfl
  | cons msg msgs ih =>
    intro b
    have hfound : (b.getOrCreateTopic msg.topic).2.total = b.total := by
      rw [getOrCreateTopic]
      split <;> rfl
    exact (ih (b := b.recover msg)).trans hfound

end Broker

/-! ## Every run -/

namespace Job

variable {c : Codec} {b : Broker} {now : ℤ} {order : List Message}

theorem owed_toList (k : Counter) (job : Option Job) :
    BrokerState.owed k job.toList = (job.map (owes k)).getD 0 := by
  cases job with
  | none => rfl
  | some job => exact List.sum_singleton

private theorem owed_next (k : Counter) (topicName : Bytes) {rest : Option Task}
    {report : Option Counter}
    (record : Option (Bytes × Bytes × Bytes)) (h : rest ≠ none → report = none) :
    BrokerState.owed k (next topicName rest report record).toList = tally report k := by
  rw [owed_toList]
  cases rest with
  | some task =>
    rw [h (Option.some_ne_none task)]
    rfl
  | none =>
    cases report with
    | none => rfl
    | some k' =>
      change (if k' = k then UInt64.ofNat 1 else 0) = if some k' = some k then 1 else 0
      simp only [Option.some_inj]
      rfl

/-- **One step of an operation.** What the topics count beyond the totals is what the operation
owes. -/
theorem excess_step {job : Job} {r : Broker × Option Job} (h : job.step c b now order = some r)
    (k : Counter) : r.1.excess k + job.owes k = b.excess k + BrokerState.owed k r.2.toList := by
  cases job with
  | log msg call =>
    obtain ⟨r', hr', rfl⟩ := Option.map_eq_some_iff.mp h
    have hexcess := b.excess_logPublish k hr'
    cases hok : r'.1 with
    | error err => exact congrArg (· + 0) hexcess
    | ok _ => exact congrArg (· + 0) hexcess
  | enter topicName call =>
    obtain ⟨t, ht, h⟩ := Option.bind_eq_some_iff.mp h
    obtain ⟨r', hr', rfl⟩ := Option.map_eq_some_iff.mp h
    obtain ⟨hcount, hover⟩ := t.count_start hr'
    rw [owed_next k topicName none hover, b.excess_setTopic k ht (hcount k)]
    exact add_zero _
  | inTopic topicName task =>
    obtain ⟨t, ht, h⟩ := Option.bind_eq_some_iff.mp h
    obtain ⟨r', hr', rfl⟩ := Option.map_eq_some_iff.mp h
    obtain ⟨hcount, hover⟩ := t.count_resume hr'
    rw [owed_next k topicName _ hover, b.excess_setTopic k ht (hcount k)]
    exact add_zero _
  | batch topicName msgs count =>
    cases msgs with
    | nil =>
      rw [← Option.some_inj.mp h, owed_toList]
      rfl
    | cons msg msgs =>
      obtain ⟨r', hr', rfl⟩ := Option.map_eq_some_iff.mp h
      rw [owed_toList]
      exact congrArg (· + _) (b.excess_logPublish k hr')
  | batchCheck topicName msg msgs count =>
    obtain ⟨t, -, h⟩ := Option.bind_eq_some_iff.mp h
    rw [Option.ite_none_left_eq_some] at h
    obtain ⟨-, h⟩ := h
    split at h <;> · rw [← Option.some_inj.mp h, owed_toList]; rfl
  | batchPush topicName msg msgs count =>
    obtain ⟨t, ht, rfl⟩ := Option.map_eq_some_iff.mp h
    rw [b.excess_setTopic k ht (t.count_push msg false k), owed_toList, add_assoc, Option.map_some,
      Option.getD_some]
    refine congrArg (b.excess k + ·) ?_
    cases hok : (t.push msg false).1 with
    | false => exact zero_add _
    | true =>
      simp only [if_true, owes, tally, Option.some_inj]
      split
      · rw [UInt64.ofNat_add]
        exact add_comm _ _
      · rfl
  | add k' n record =>
    rw [← Option.some_inj.mp h, owed_toList]
    refine (b.excess_addTotal k (UInt64.ofNat n) k').trans ?_
    cases record <;> exact (add_zero _).symm
  | logAck topicName groupName msgID =>
    obtain ⟨b', hb', rfl⟩ := Option.map_eq_some_iff.mp h
    exact congrArg (· + 0) (b.excess_logAck k hb')
  | createGroup topicName groupName timeout =>
    obtain ⟨t, ht, h⟩ := Option.bind_eq_some_iff.mp h
    rw [Option.ite_none_left_eq_some] at h
    rw [← Option.some_inj.mp h.2]
    refine congrArg (· + 0) ((b.excess_setTopic k ht ?_).trans (add_zero _))
    exact Topic.count_same (t.count_getOrCreateGroup groupName timeout) k
  | close order =>
    cases order with
    | nil =>
      rw [← Option.some_inj.mp h]
      rfl
    | cons topicName rest =>
      obtain ⟨t, ht, rfl⟩ := Option.map_eq_some_iff.mp h
      rw [owed_toList]
      cases hclose : PublishSystem.closeTopic t with
      | none => rfl
      | some t' =>
        refine congrArg (· + 0) ((b.excess_setTopic k ht ?_).trans (add_zero _))
        exact Topic.count_same (t.count_closeTopic hclose) k

end Job

namespace BrokerState

variable {c : Codec} {s s' : BrokerState} {e : Counter → UInt64}

theorem owed_append (k : Counter) (jobs jobs' : List Job) :
    owed k (jobs ++ jobs') = owed k jobs + owed k jobs' := by
  rw [owed, List.map_append, List.sum_append]
  rfl

private theorem owed_eraseIdx (k : Counter) {jobs : List Job} {i : ℕ} {job : Job}
    (h : jobs[i]? = some job) : owed k jobs = job.owes k + owed k (jobs.eraseIdx i) := by
  obtain ⟨hi, rfl⟩ := List.getElem?_eq_some_iff.mp h
  have hperm := (List.getElem_cons_eraseIdx_perm hi).symm.map (Job.owes k)
  exact hperm.sum_eq

/-- What the topics have counted beyond the totals is what the operations in progress owe, and a
constant. -/
def Balanced (e : Counter → UInt64) (s : BrokerState) : Prop :=
  ∀ k, s.broker.excess k = e k + owed k s.jobs

theorem Balanced.spawn (h : s.Balanced e) {b : Broker} {job : Job}
    (hb : ∀ k, b.excess k = s.broker.excess k) (hjob : ∀ k, job.owes k = 0) :
    Balanced e ⟨b, s.jobs ++ [job]⟩ := by
  intro k
  have hone : owed k [job] = 0 := (Job.owed_toList k (some job)).trans (hjob k)
  rw [owed_append, hone, hb, h k, add_zero]

theorem Balanced.find (h : s.Balanced e) {topicName : Bytes} {call : Call}
    (hs' : s.find topicName call = some s') : s'.Balanced e := by
  rw [BrokerState.find, Option.ite_none_left_eq_some] at hs'
  obtain ⟨-, hs'⟩ := hs'
  split at hs'
  · rw [← Option.some_inj.mp hs']
    exact h
  · rw [← Option.some_inj.mp hs']
    exact h.spawn (fun _ ↦ rfl) fun _ ↦ rfl

theorem Balanced.findOrCreate (h : s.Balanced e) {topicName : Bytes} {job : Job}
    (hs' : s.findOrCreate topicName job = some s') (hjob : ∀ k, job.owes k = 0) :
    s'.Balanced e := by
  rw [BrokerState.findOrCreate, Option.ite_none_left_eq_some] at hs'
  rw [← Option.some_inj.mp hs'.2]
  exact h.spawn (fun k ↦ s.broker.excess_getOrCreateTopic k topicName) hjob

theorem Balanced.step (h : s.Balanced e) {l : Label} (hs' : s.step c l = some s') :
    s'.Balanced e := by
  cases l with
  | publish | publishDelayed | consumeGroup | createGroup =>
    exact h.findOrCreate hs' fun _ ↦ rfl
  | publishBatch topicName payloads =>
    rw [BrokerState.step] at hs'
    split at hs'
    · rw [← Option.some_inj.mp hs']
      exact h
    · refine h.findOrCreate hs' fun k ↦ ?_
      exact ite_self _
  | consume | ack | nack | replayDLQ | purgeDLQ | sweep => exact h.find hs'
  | tick topicName =>
    obtain ⟨t, -, rfl⟩ := Option.map_eq_some_iff.mp hs'
    exact h.spawn (fun _ ↦ rfl) fun _ ↦ rfl
  | syncLog =>
    rw [← Option.some_inj.mp hs']
    exact h
  | close order =>
    rw [BrokerState.step, Option.ite_none_left_eq_some] at hs'
    obtain ⟨-, hs'⟩ := hs'
    split at hs'
    · rw [← Option.some_inj.mp hs']
      exact h
    · rw [Option.ite_none_right_eq_some] at hs'
      rw [← Option.some_inj.mp hs'.2]
      exact h.spawn (fun _ ↦ rfl) fun _ ↦ rfl
  | resume i now order =>
    obtain ⟨job, hjob, hs'⟩ := Option.bind_eq_some_iff.mp hs'
    obtain ⟨r, hr, rfl⟩ := Option.map_eq_some_iff.mp hs'
    intro k
    have hstep := Job.excess_step hr k
    rw [h k, owed_eraseIdx k hjob] at hstep
    rw [owed_append]
    linear_combination hstep
  | giveUp i =>
    rw [BrokerState.step] at hs'
    split at hs'
    · rename_i topicName groupName consumerID hjob
      obtain ⟨t, -, hs'⟩ := Option.bind_eq_some_iff.mp hs'
      rw [Option.ite_none_right_eq_some] at hs'
      rw [← Option.some_inj.mp hs'.2]
      intro k
      rw [h k, owed_eraseIdx k hjob]
      exact congrArg (e k + ·) (zero_add _)
    · exact absurd hs' (Option.some_ne_none s').symm

private theorem balanced_of_run {b : Broker} {labels : List Label}
    (hrun : Run (step c) (fun _ ↦ True) (idle b) labels s) : s.Balanced b.excess :=
  hrun.invariant (fun _ _ _ _ _ hs h ↦ h.step hs) fun _ ↦ (add_zero _).symm

theorem Start.excess_broker (start : Start) (c : Codec) (now : ℤ) (k : Counter) :
    (start.broker c now).excess k
      = if k = .published then UInt64.ofNat (start.recovered c) else 0 := by
  have hnew : ∀ wal, (Broker.newBroker wal now).excess k = 0 := by
    intro wal
    cases k <;> exact sub_self 0
  cases start with
  | inMemory => rw [Start.broker, hnew]; exact (ite_self _).symm
  | withLog dir policy =>
    rw [Start.broker, Broker.boot,
      Broker.excess_foldl_recover k (Broker.accepts_newBroker _ now), hnew, zero_add]
    rfl

end BrokerState

/-! ## What is reported -/

/-- The report agrees precisely if nothing is in excess. The dead letters are summed up on the
spot. -/
theorem Broker.agrees_stats_iff (b : Broker) (survey : Survey) :
    (b.stats survey).Agrees ↔ ∀ k, b.excess k = 0 := by
  have hperm := survey.order_perm (b.topics.entries.map fun e ↦ e.2.stats)
  have hsum : ∀ f : TopicStats → UInt64,
      ((b.stats survey).topics.map f).sum = (b.topics.entries.map fun e ↦ f e.2.stats).sum := by
    intro f
    refine (hperm.map f).sum_eq.trans ?_
    rw [List.map_map]
    rfl
  have hexcess : ∀ k, b.excess k = 0 ↔ b.total k = b.sum k := fun k ↦ sub_eq_zero.trans eq_comm
  simp only [hexcess]
  constructor
  · intro h k
    cases k with
    | published => exact h.published.trans (hsum _)
    | consumed => exact h.consumed.trans (hsum _)
    | acked => exact h.acked.trans (hsum _)
    | nacked => exact h.nacked.trans (hsum _)
  · intro h
    exact ⟨(h .published).trans (hsum TopicStats.published).symm,
      (h .consumed).trans (hsum TopicStats.consumed).symm,
      (h .acked).trans (hsum TopicStats.acked).symm,
      (h .nacked).trans (hsum TopicStats.nacked).symm, (hsum _).symm⟩

namespace BrokerState

/-- **The totals miss what was recovered.** In every run, from any start, and in every state in
which no operation is in progress, the totals agree with the counters of the topics if and only if
the number of messages that the start recovered is a multiple of `2 ^ 64`, such as zero. -/
theorem agrees_iff_recovered {c : Codec} {s : BrokerState} (start : Start) {now : ℤ}
    {labels : List Label}
    (hrun : Run (step c) (fun _ ↦ True) (idle (start.broker c now)) labels s)
    (hquiet : s.jobs = []) (survey : Survey) :
    (s.broker.stats survey).Agrees ↔ 2 ^ 64 ∣ start.recovered c := by
  have hexcess : ∀ k, s.broker.excess k
      = if k = .published then UInt64.ofNat (start.recovered c) else 0 := by
    intro k
    have hbalanced := balanced_of_run hrun k
    rw [hquiet] at hbalanced
    rw [hbalanced, ← start.excess_broker c now k]
    exact add_zero _
  have hzero : UInt64.ofNat (start.recovered c) = 0 ↔ 2 ^ 64 ∣ start.recovered c := by
    rw [← UInt64.toNat_inj, UInt64.toNat_ofNat', Nat.dvd_iff_mod_eq_zero]
    rfl
  rw [Broker.agrees_stats_iff, ← hzero]
  constructor
  · intro h
    have hpublished := h .published
    rw [hexcess, if_pos rfl] at hpublished
    exact hpublished
  · intro h k
    rw [hexcess]
    split
    · exact h
    · rfl

end BrokerState

end Arithmetic

/-! ## A job in two lives -/

namespace BrokerState

/-- A job is published and consumed, one step after the other, on an empty directory. -/
def publishAndConsume : List Label :=
  [.publish (bytesOf "orders") (some (bytesOf "job")) BrokerHistory.jobStamp false,
    .resume 0 0 [], .resume 0 0 [], .consume (bytesOf "orders"), .resume 0 0 [], .resume 1 0 [],
    .resume 0 0 [], .resume 0 0 []]

/-- The consumer's total is added before the publisher's, and in the end both are there. -/
theorem agrees_iff_recovered_publishAndConsume :
    ∃ s, Run (step MessageJson.codec) (fun _ ↦ True)
        (idle ((Start.withLog ∅ .always).broker MessageJson.codec 0)) publishAndConsume s ∧
      s.jobs = [] ∧ s.broker.totalPublished = 1 ∧ s.broker.totalConsumed = 1 ∧
      ∀ survey, (s.broker.stats survey).Agrees := by
  have hsome : (Run.exec (step MessageJson.codec) (fun _ ↦ True)
      (idle ((Start.withLog ∅ .always).broker MessageJson.codec 0)) publishAndConsume).isSome := by
    decide +kernel
  have hrun := Run.of_exec (Option.some_get hsome).symm
  have hjobs := hrun.of_exec_map (f := fun s ↦ s.jobs.length) (a := 0) (by decide +kernel)
  have htotals := hrun.of_exec_map
    (f := fun s ↦ (s.broker.totalPublished, s.broker.totalConsumed)) (a := (1, 1))
    (by decide +kernel)
  have hquiet := List.length_eq_zero_iff.mp hjobs
  obtain ⟨hpublished, hconsumed⟩ := Prod.mk.inj htotals
  refine ⟨_, hrun, hquiet, hpublished, hconsumed, fun survey ↦ ?_⟩
  refine (agrees_iff_recovered (.withLog ∅ .always) hrun hquiet survey).mpr ?_
  rw [show (Start.withLog ∅ .always).recovered MessageJson.codec = 0 by decide +kernel]
  exact dvd_zero _

/-- **A recovered job is in no total.** A job is published, the server is shut down and started
again: the topic has counted one publication, and the broker none. -/
theorem recovered_job_in_no_total :
    ∃ s dir, Run (BrokerHistory.step MessageJson.codec) (fun _ ↦ True)
        (BrokerHistory.start MessageJson.codec .always 0) BrokerHistory.jobInHand s ∧
      s.broker.restart MessageJson.codec .always 1
        = (Start.withLog dir .always).broker MessageJson.codec 1 ∧
      (Start.withLog dir .always).recovered MessageJson.codec = 1 ∧
      (s.broker.restart MessageJson.codec .always 1).totalPublished = 0 ∧
      (s.broker.restart MessageJson.codec .always 1).sum .published = 1 ∧
      ∀ survey, ¬((s.broker.restart MessageJson.codec .always 1).stats survey).Agrees := by
  have hsome : (Run.exec (BrokerHistory.step MessageJson.codec) (fun _ ↦ True)
      (BrokerHistory.start MessageJson.codec .always 0) BrokerHistory.jobInHand).isSome := by
    decide +kernel
  have hrun := Run.of_exec (Option.some_get hsome).symm
  have hpublished := hrun.of_exec_map (f := BrokerHistory.published) (a := [BrokerHistory.job])
    (by decide +kernel)
  have hlogged := BrokerHistory.logged_of_run hrun
    (Run.guarded_of_forall fun l hl ↦
      BrokerHistory.loggable_jobDone l (List.mem_append_left _ hl))
  obtain ⟨dir, hholds, hrestart⟩ := Broker.Keeps.restart hlogged .always 1
  have hrecovered : (Start.withLog dir .always).recovered MessageJson.codec = 1 := by
    rw [Start.recovered, Start.messages,
      (Wal.holds_dir_openWAL hholds .always).replay_perm.length_eq, hpublished]
    rfl
  have hexcess := (Start.withLog dir .always).excess_broker MessageJson.codec 1 .published
  rw [if_pos rfl, hrecovered] at hexcess
  rw [Start.broker] at hexcess
  have htotal : (Broker.boot MessageJson.codec dir .always 1).total .published = 0 :=
    congrFun Broker.total_foldl_recover .published
  refine ⟨_, dir, hrun, hrestart, hrecovered, ?_, ?_, fun survey hagrees ↦ ?_⟩
  · rw [hrestart]
    exact htotal
  · rw [hrestart, Broker.sum_eq_add, hexcess, htotal]
    rfl
  · rw [hrestart, Broker.agrees_stats_iff] at hagrees
    exact absurd (hexcess.symm.trans (hagrees .published)) (by decide)

end BrokerState

end VortexMQ
