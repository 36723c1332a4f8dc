import VortexMQ.Queue.Topic
import VortexMQ.Wal.Log

/-!
# The broker

`internal/queue/broker.go`, and the recovery in `cmd/vortexmq/main.go`. An operation of the broker
is run from its start to its end; how the critical sections of operations on one topic interleave is
the subject of `VortexMQ.Queue.TopicSystem`, whose sections the definitions below put together.

What the source takes from its environment is an argument: the time, the process-wide message
counter, random bytes, and the order in which a map happens to be iterated. An operation that waits
for a message yields `none` while there is nothing to return, and so does one that brings the
process down.
-/

namespace VortexMQ

/-! ## Topic operations from start to end -/

namespace Topic

/-- `Publish` and, with `front`, `PublishFront`. -/
def runPublish (t : Topic) (msg : Message) (front : Bool) : Bool × Topic :=
  if t.closed then (false, t) else t.push msg front

/-- `t.ring.PopWait(timeout)`: with timeout zero it waits for a message or for the ring to be
closed, otherwise also for the deadline. -/
def popWait (t : Topic) (timeout : ℤ) : Option (Option Message × Topic) :=
  match t.pop with
  | some (msg, t') => some (some msg, t')
  | none => if t.ring.closed ∨ timeout ≠ 0 then some (none, t) else none

/-- `ConsumeWait`. -/
def runConsumeWait (t : Topic) (timeout : ℤ) : Option (Option Message × Topic) :=
  (t.popWait timeout).map fun r ↦
    match r.1 with
    | some msg => (some msg, r.2.countConsumed msg)
    | none => (none, r.2)

/-- `ConsumeGroup`. The caller gets the message as `Checkout` has stamped it. -/
def runConsumeGroup (t : Topic) (groupName consumerID : Bytes) (timeout now : ℤ) :
    Option (Option Message × Topic) :=
  ((t.getOrCreateGroup groupName (30 * second)).popWait timeout).bind fun r ↦
    match r.1 with
    | none => some (none, r.2)
    | some msg =>
        (r.2.groups.lookup groupName).bind fun cg ↦
          (r.2.checkout groupName consumerID msg now).map fun t' ↦
            (some (cg.stamp msg consumerID (30 * second) now), t')

/-- `Ack`. -/
def runAck (t : Topic) (groupName msgID : Bytes) : Bool × Topic :=
  (t.ack groupName msgID).getD (false, t)

/-- `Nack`. A negative shift count in the backoff brings the process down. -/
def runNack (t : Topic) (groupName msgID reason : Bytes) (now : ℤ) : Option (Bool × Topic) :=
  match (t.groups.lookup groupName).bind fun cg ↦ cg.nackTake msgID with
  | none => some (false, t)
  | some (msg, cg) =>
      let failed := ConsumerGroup.fail msg reason
      (ConsumerGroup.nackRoute failed).map fun r ↦
        (true, { (t.setGroup groupName cg).route failed now r with nacked := t.nacked + 1 })

/-- What `SweepTimeouts` does with the messages it has taken, one after the other. -/
def routeExpired (now : ℤ) (t : Topic) (msg : Message) : Topic :=
  let failed := ConsumerGroup.fail msg ConsumerGroup.timeoutCause
  t.route failed now (ConsumerGroup.sweepRoute failed)

/-- `SweepTimeouts` on one group: its name, the time, and the order in which the timed-out entries
are found. -/
structure GroupSweep where
  groupName : Bytes
  now : ℤ
  order : List Message

/-- The loop of `SweepConsumerTimeouts`. -/
def sweepGroups : List GroupSweep → Topic → Option Topic
  | [], t => some t
  | g :: gs, t =>
      (t.groups.lookup g.groupName).bind fun cg ↦
        if g.order.Perm ((cg.expired g.now).map PendingMessage.message) then
          sweepGroups gs (g.order.foldl (routeExpired g.now)
            (t.setGroup g.groupName (cg.sweepTake g.now)))
        else none

/-- `SweepConsumerTimeouts`; the plan visits every group once. -/
def runSweep (t : Topic) (plan : List GroupSweep) : Option Topic :=
  if (plan.map GroupSweep.groupName).Perm t.groups.keys then sweepGroups plan t else none

/-- One tick of the timing wheel: `advance` and the dispatch of what has expired. -/
def runAdvance (t : Topic) : Topic :=
  t.tw.advance.1.foldl onExpire { t with tw := t.tw.advance.2 }

/-- `ReplayDeadLetter`. -/
def runReplayDeadLetter (t : Topic) (msgID : Bytes) (now : ℤ) : Option Message × Topic :=
  match t.dlq.remove msgID with
  | some (msg, dlq) => (some (revive msg now), onExpire { t with dlq := dlq } (revive msg now))
  | none => (none, t)

/-- `Close`. -/
def runClose (t : Topic) : Topic :=
  if t.closed then t else { t with closed := true, ring := t.ring.close, tw := t.tw.stop }

/-- The topic that `GetOrCreateTopic` makes. -/
def default (name : Bytes) : Topic := (newTopic name 131072).get (by
  rw [newTopic, Option.isSome_map]
  decide)

end Topic

/-! ## State -/

/-- What `NewMessage` takes from its environment: the clock, the counter after its increment, and
the random bytes. -/
structure Stamp where
  now : ℤ
  seq : UInt64
  rand : Bytes
  inRange : Int64Range now

/-- A message as `NewMessage` builds it. -/
def Stamp.message (st : Stamp) (topic : Bytes) (payload : Option Bytes) : Message :=
  Message.newMessage topic payload st.now st.seq st.rand

/-- The Go channel of a subscriber: the payloads in its buffer. -/
structure Subscriber where
  queue : List (Option Bytes)
  closed : Bool
  deriving DecidableEq

structure Broker where
  topics : AList fun _ : Bytes ↦ Topic
  /-- The subscribers of each ephemeral channel. -/
  channels : AList fun _ : Bytes ↦ List Subscriber
  wal : Option Wal
  startTime : ℤ
  closed : Bool
  totalPublished : UInt64
  totalConsumed : UInt64
  totalAcked : UInt64
  totalNacked : UInt64
  totalDLQ : UInt64

namespace Broker

def newBroker (wal : Option Wal) (now : ℤ) : Broker where
  topics := ∅
  channels := ∅
  wal := wal
  startTime := now
  closed := false
  totalPublished := 0
  totalConsumed := 0
  totalAcked := 0
  totalNacked := 0
  totalDLQ := 0

variable (b : Broker) (c : Codec)

/-- Store a topic, or its new state. -/
def setTopic (name : Bytes) (t : Topic) : Broker := { b with topics := b.topics.insert name t }

def getOrCreateTopic (name : Bytes) : Topic × Broker :=
  match b.topics.lookup name with
  | some t => (t, b)
  | none => (Topic.default name, b.setTopic name (Topic.default name))

def getTopic (name : Bytes) : Option Topic := b.topics.lookup name

/-! ## Publishing -/

/-- `b.wal.WritePublish(msg)`, if there is a log. -/
def logPublish (msg : Message) : Option (Except Bytes Unit × Broker) :=
  match b.wal with
  | none => some (.ok (), b)
  | some w => (w.writePublish c msg).map fun r ↦ (r.1, { b with wal := some r.2 })

def errRejected : Bytes := bytesOf "topic queue rejected message (closed)"

/-- What `Publish`, `PublishFront` and `PublishDelayed` share: the log first, then the topic. The
topic's answer is the message, or nothing if it refuses. -/
def publishWith (msg : Message) (put : Topic → Option Message × Topic) :
    Option (Except Bytes Message × Broker) :=
  let found := b.getOrCreateTopic msg.topic
  (found.2.logPublish c msg).map fun r ↦
    match r.1 with
    | .error err => (.error err, r.2)
    | .ok _ =>
        let answer := put found.1
        match answer.1 with
        | none => (.error errRejected, r.2.setTopic msg.topic answer.2)
        | some msg' =>
            (.ok msg', { r.2.setTopic msg.topic answer.2 with
              totalPublished := r.2.totalPublished + 1 })

/-- A push at either end. -/
def putNow (msg : Message) (front : Bool) (t : Topic) : Option Message × Topic :=
  (if (t.runPublish msg front).1 then some msg else none, (t.runPublish msg front).2)

def publish (topicName : Bytes) (payload : Option Bytes) (st : Stamp) :
    Option (Except Bytes Message × Broker) :=
  b.publishWith c (st.message topicName payload) (putNow (st.message topicName payload) false)

def publishFront (topicName : Bytes) (payload : Option Bytes) (st : Stamp) :
    Option (Except Bytes Message × Broker) :=
  b.publishWith c (st.message topicName payload) (putNow (st.message topicName payload) true)

/-- The wheel takes a delayed message, or pushes it at once. Nothing is reported back. -/
def putDelayed (msg : Message) (delay now : ℤ) (t : Topic) : Option Message × Topic :=
  (some { msg with deliverAt := wrap64 (now + delay) }, t.publishDelayed msg delay now)

/-- `PublishDelayed`. The topic reads the clock again, at time `now`. -/
def publishDelayed (topicName : Bytes) (payload : Option Bytes) (delay : ℤ) (st : Stamp) (now : ℤ) :
    Option (Except Bytes Message × Broker) :=
  b.publishWith c (st.message topicName payload)
    (putDelayed (st.message topicName payload) delay now)

/-- The loop of `PublishBatch`: errors of the log are ignored. -/
def publishBatchLoop (topicName : Bytes) : List Message → ℕ → Broker → Option (ℕ × Broker)
  | [], count, b => some (count, b)
  | msg :: msgs, count, b =>
      (b.logPublish c msg).bind fun r ↦
        let found := r.2.getOrCreateTopic topicName
        let pushed := found.1.runPublish msg false
        publishBatchLoop topicName msgs (if pushed.1 then count + 1 else count)
          (found.2.setTopic topicName pushed.2)

/-- The messages of a batch; every payload comes with its stamp. -/
def batchMessages (topicName : Bytes) (payloads : List (Option Bytes × Stamp)) : List Message :=
  payloads.map fun p ↦ p.2.message topicName p.1

/-- `PublishBatch`. Its error is always nil. -/
def publishBatch (topicName : Bytes) (payloads : List (Option Bytes × Stamp)) :
    Option (ℕ × Broker) :=
  if payloads = [] then some (0, b)
  else
    (publishBatchLoop c topicName (batchMessages topicName payloads) 0
      (b.getOrCreateTopic topicName).2).map fun r ↦
        (r.1, { r.2 with totalPublished := r.2.totalPublished + UInt64.ofNat r.1 })

/-! ## Consuming -/

def consume (topicName : Bytes) (timeout : ℤ) : Option (Option Message × Broker) :=
  match b.getTopic topicName with
  | none => some (none, b)
  | some t =>
      (t.runConsumeWait timeout).map fun r ↦
        match r.1 with
        | some msg =>
            (some msg, { b.setTopic topicName r.2 with totalConsumed := b.totalConsumed + 1 })
        | none => (none, b)

def consumeGroup (topicName groupName consumerID : Bytes) (timeout now : ℤ) :
    Option (Option Message × Broker) :=
  let found := b.getOrCreateTopic topicName
  (found.1.runConsumeGroup groupName consumerID timeout now).map fun r ↦
    match r.1 with
    | some msg =>
        (some msg, { found.2.setTopic topicName r.2 with totalConsumed := b.totalConsumed + 1 })
    | none => (none, found.2.setTopic topicName r.2)

/-! ## Acknowledging and failing -/

/-- `b.wal.WriteAck(..)`, if there is a log; its error is ignored. -/
def logAck (topicName groupName msgID : Bytes) : Option Broker :=
  match b.wal with
  | none => some b
  | some w => (w.writeAck topicName groupName msgID).map fun r ↦ { b with wal := some r.2 }

def ack (topicName groupName msgID : Bytes) : Option (Bool × Broker) :=
  match b.getTopic topicName with
  | none => some (false, b)
  | some t =>
      if (t.runAck groupName msgID).1 then
        ({ b.setTopic topicName (t.runAck groupName msgID).2 with
          totalAcked := b.totalAcked + 1 }.logAck topicName groupName msgID).map fun b' ↦ (true, b')
      else some (false, b)

def nack (topicName groupName msgID reason : Bytes) (now : ℤ) : Option (Bool × Broker) :=
  match b.getTopic topicName with
  | none => some (false, b)
  | some t =>
      (t.runNack groupName msgID reason now).map fun r ↦
        if r.1 then (true, { b.setTopic topicName r.2 with totalNacked := b.totalNacked + 1 })
        else (false, b)

def replayDLQ (topicName msgID : Bytes) (now : ℤ) : Option Message × Broker :=
  match b.getTopic topicName with
  | none => (none, b)
  | some t =>
      match t.runReplayDeadLetter msgID now with
      | (some msg, t') => (some msg, b.setTopic topicName t')
      | (none, _) => (none, b)

/-! ## The timers -/

/-- `SweepConsumerTimeouts` on one topic. -/
structure TopicSweep where
  topicName : Bytes
  plan : List Topic.GroupSweep

/-- The loop of `sweepAllTimeouts`. -/
def sweepTopics : List TopicSweep → Broker → Option Broker
  | [], b => some b
  | s :: ss, b =>
      (b.getTopic s.topicName).bind fun t ↦
        (t.runSweep s.plan).bind fun t' ↦ sweepTopics ss (b.setTopic s.topicName t')

/-- `sweepAllTimeouts`; the plan visits every topic once. -/
def sweepAllTimeouts (plan : List TopicSweep) : Option Broker :=
  if (plan.map TopicSweep.topicName).Perm b.topics.keys then sweepTopics plan b else none

/-- A tick of one topic's timing wheel. -/
def tick (topicName : Bytes) : Option Broker :=
  (b.getTopic topicName).map fun t ↦ b.setTopic topicName t.runAdvance

/-- A tick of the log's own timer. -/
def syncLog : Broker := { b with wal := b.wal.map Wal.sync }

/-! ## Shutdown and recovery -/

def close : Broker :=
  if b.closed then b
  else
    { b with
      closed := true
      topics := ⟨b.topics.entries.map fun e ↦ ⟨e.1, e.2.runClose⟩,
        List.NodupKeys.map₂ (fun _ t ↦ t.runClose) _ b.topics.nodupKeys⟩
      wal := b.wal.map Wal.close }

/-- What `main` does with a replayed message. -/
def recover (msg : Message) : Broker :=
  let found := b.getOrCreateTopic msg.topic
  found.2.setTopic msg.topic (found.1.runPublish msg false).2

/-- The start of `main` on a log directory: `OpenWAL`, `NewBroker`, `Replay`. -/
def boot (dir : Directory) (policy : FsyncPolicy) (now : ℤ) : Broker :=
  let w := Wal.openWAL dir policy
  (replay c w.dir).2.foldl recover (newBroker (some w) now)

/-- A clean shutdown and the next start. -/
def restart (policy : FsyncPolicy) (now : ℤ) : Broker :=
  match b.close.wal with
  | some w => boot c w.dir policy now
  | none => newBroker none now

end Broker

end VortexMQ
