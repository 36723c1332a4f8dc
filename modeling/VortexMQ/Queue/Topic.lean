import VortexMQ.Queue.ConsumerGroup
import VortexMQ.Queue.DeadLetter
import VortexMQ.Queue.RingRefinement
import VortexMQ.Queue.TimingWheel

/-!
# Topics

`internal/queue/topic.go`: a ring, a timing wheel, a dead letter queue and the consumer groups. The
definitions of this file are the atomic pieces the topic's operations are made of; how the pieces
of concurrent operations interleave is the subject of `VortexMQ.Queue.TopicSystem`.

An atomic counter is bumped together with the step it counts. Nothing but `Stats` reads counters.
-/

namespace VortexMQ

structure Topic where
  name : Bytes
  ring : Ring Message
  groups : AList fun _ : Bytes ↦ ConsumerGroup
  dlq : DeadLetterQueue
  tw : TimingWheel Message
  closed : Bool
  published : UInt64
  consumed : UInt64
  acked : UInt64
  nacked : UInt64
  deadLettered : UInt64
  bytesPub : UInt64
  bytesSub : UInt64

namespace Topic

def newTopic (name : Bytes) (capacity : UInt64) : Option Topic :=
  (Ring.new capacity).map fun ring ↦
    { name := name
      ring := ring
      groups := ∅
      dlq := DeadLetterQueue.newDeadLetterQueue 50000
      tw := TimingWheel.newTimingWheel (50 * millisecond) 3600
      closed := false
      published := 0, consumed := 0, acked := 0, nacked := 0, deadLettered := 0
      bytesPub := 0, bytesSub := 0 }

/-! ## Publishing -/

/-- Count a message that has gone in. -/
def countPublished (t : Topic) (msg : Message) : Topic :=
  { t with
    published := t.published + 1
    bytesPub := t.bytesPub + UInt64.ofNat msg.payloadLen }

/-- The second half of `Publish` and, with `front`, of `PublishFront`: the push itself. -/
def push (t : Topic) (msg : Message) (front : Bool) : Bool × Topic :=
  let pushed := if front then t.ring.pushFront msg else t.ring.push msg
  if pushed.1 then (true, countPublished { t with ring := pushed.2 } msg)
  else (false, { t with ring := pushed.2 })

/-- Apart from its counters, a topic is pushed to by pushing to its ring. -/
theorem fields_push (t : Topic) (msg : Message) (front : Bool) :
    (t.push msg front).2.closed = t.closed ∧
      (t.push msg front).2.ring = (if front then t.ring.pushFront msg else t.ring.push msg).2 ∧
      (t.push msg front).2.tw = t.tw ∧ (t.push msg front).2.groups = t.groups ∧
      (t.push msg front).2.dlq = t.dlq := by
  unfold push
  simp only
  by_cases hok : (if front then t.ring.pushFront msg else t.ring.push msg).1
  · rw [if_pos hok]
    exact ⟨rfl, rfl, rfl, rfl, rfl⟩
  · rw [if_neg hok]
    exact ⟨rfl, rfl, rfl, rfl, rfl⟩

/-- The wheel's `onExpire`: `t.ring.Push(msg)`, its result ignored. -/
def onExpire (t : Topic) (msg : Message) : Topic := { t with ring := (t.ring.push msg).2 }

/-- `t.tw.Add(msg, delay)`, with the expiry of a message that is not to wait. -/
def schedule (t : Topic) (msg : Message) (delay : ℤ) : Topic :=
  match t.tw.add msg delay with
  | (some m, tw) => onExpire { t with tw := tw } m
  | (none, tw) => { t with tw := tw }

/-- `PublishDelayed` at time `now`. -/
def publishDelayed (t : Topic) (msg : Message) (delay now : ℤ) : Topic :=
  (countPublished t msg).schedule { msg with deliverAt := wrap64 (now + delay) } delay

/-! ## Consuming -/

def countConsumed (t : Topic) (msg : Message) : Topic :=
  { t with
    consumed := t.consumed + 1
    bytesSub := t.bytesSub + UInt64.ofNat msg.payloadLen }

/-- `t.ring.Pop()`, and the part of `t.ring.PopWait` that runs once there is something to take. -/
def pop (t : Topic) : Option (Message × Topic) :=
  t.ring.pop.1.map fun msg ↦ (msg, { t with ring := t.ring.pop.2 })

/-- `Consume` and a `ConsumeWait` that finds a message. -/
def consume (t : Topic) : Option (Message × Topic) :=
  t.pop.map fun r ↦ (r.1, r.2.countConsumed r.1)

/-- Store a group, or its new state. -/
def setGroup (t : Topic) (groupName : Bytes) (cg : ConsumerGroup) : Topic :=
  { t with groups := t.groups.insert groupName cg }

def getOrCreateGroup (t : Topic) (groupName : Bytes) (defaultTimeout : ℤ) : Topic :=
  if groupName ∈ t.groups then t
  else t.setGroup groupName (ConsumerGroup.newConsumerGroup groupName t.name defaultTimeout)

/-- The end of `ConsumeGroup`: check the popped message out under the group. -/
def checkout (t : Topic) (groupName consumerID : Bytes) (msg : Message) (now : ℤ) :
    Option Topic :=
  (t.groups.lookup groupName).map fun cg ↦
    (t.setGroup groupName (cg.checkout msg consumerID (30 * second) now)).countConsumed msg

/-! ## Acknowledging and failing -/

/-- `Ack`, once the group has been found. -/
def ack (t : Topic) (groupName msgID : Bytes) : Option (Bool × Topic) :=
  (t.groups.lookup groupName).map fun cg ↦
    if (cg.ack msgID).1 then
      (true, { t.setGroup groupName (cg.ack msgID).2 with acked := t.acked + 1 })
    else (false, t)

/-- The group's `onDeadLetter`. -/
def deadLetter (t : Topic) (msg : Message) (cause : Bytes) (now : ℤ) : Topic :=
  { t with
    dlq := t.dlq.add msg cause now
    deadLettered := t.deadLettered + 1 }

/-- Send a failed message where its group decided. -/
def route (t : Topic) (msg : Message) (now : ℤ) : ConsumerGroup.Route → Topic
  | .deadLetter => t.deadLetter msg msg.failureCause now
  | .retry delay => t.schedule msg delay

/-- The message as `ReplayDeadLetter` puts it back. -/
def revive (msg : Message) (now : ℤ) : Message :=
  { msg with retryCount := 0, failureCause := [], deliverAt := now }

/-- `Close` is in progress: it holds the topic's mutex from setting the flag to stopping the wheel,
so nothing that takes the mutex can run. -/
def closing (t : Topic) : Bool := t.closed && !t.tw.closed

end Topic

end VortexMQ
