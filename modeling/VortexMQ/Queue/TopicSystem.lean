import VortexMQ.Basic.Run
import VortexMQ.Queue.Topic

/-!
# Concurrent operations on a topic

Any number of operations can be in progress on one topic. Each of them is a sequence of critical
sections of the topic, the ring, the wheel, a group or the dead letter queue, and what happens in
between is anybody's turn. A call runs its first section with `start`; if it has more to do it
leaves a `Task`, whose later sections run one at a time with `Task.resume`. A task is the program
counter of an operation together with what the operation has in its hands.

The ledger is not part of the program. It records the messages that were handed to the topic and
those that have left it for good, so that "nothing is lost" can be said at all.

Where the source's behaviour depends on time or on the iteration order of a map, the label of the
step supplies the time or the order.
-/

namespace VortexMQ

/-- An operation in progress, stopped between two critical sections. -/
inductive Task where
  /-- `Publish` or `PublishFront`, past the check of the closed flag. -/
  | publish (msg : Message) (front : Bool)
  /-- `ConsumeGroup`, with its group at hand, in `PopWait`. -/
  | popWait (groupName consumerID : Bytes)
  /-- `ConsumeGroup`, holding a message not yet checked out. -/
  | checkout (groupName consumerID : Bytes) (msg : Message)
  /-- `Ack`, with its group at hand. -/
  | ack (groupName msgID : Bytes)
  /-- `Nack`, with its group at hand. -/
  | nack (groupName msgID reason : Bytes)
  /-- `Nack`, holding a message it has removed from the pending list. -/
  | fail (msg : Message) (reason : Bytes)
  /-- `SweepConsumerTimeouts`: groups still to visit, and timed-out messages of the last one. -/
  | sweep (groups : List Bytes) (timedOut : List Message)
  /-- `advance`: expired messages still to be dispatched. -/
  | expire (msgs : List Message)
  /-- `ReplayDeadLetter`, holding a message it has taken from the dead letter queue. -/
  | replay (msg : Message)
  /-- `Close`, about to close the ring. -/
  | closeRing
  /-- `Close`, about to stop the wheel. -/
  | closeWheel

/-- The messages in the hands of an operation. -/
def Task.held : Task → List Message
  | .publish msg _ => [msg]
  | .checkout _ _ msg => [msg]
  | .fail msg _ => [msg]
  | .sweep _ timedOut => timedOut
  | .expire msgs => msgs
  | .replay msg => [msg]
  | .popWait _ _ | .ack _ _ | .nack _ _ _ | .closeRing | .closeWheel => []

/-- The calls on a topic. -/
inductive Call where
  | publish (msg : Message) (front : Bool)
  | publishDelayed (msg : Message) (delay now : ℤ)
  /-- `Consume`, or a `ConsumeWait` at the moment it stops waiting. -/
  | consume
  | consumeGroup (groupName consumerID : Bytes)
  | ack (groupName msgID : Bytes)
  | nack (groupName msgID reason : Bytes)
  /-- `order` is the order in which the map of groups happens to be iterated. -/
  | sweepConsumerTimeouts (order : List Bytes)
  | advance
  | replayDeadLetter (msgID : Bytes) (now : ℤ)
  | dlqRemove (msgID : Bytes)
  | dlqPurge
  | close

/-- What has come in and what has gone out, by identifier. -/
structure Ledger where
  /-- Handed to an open topic for publication. -/
  issued : List Bytes
  /-- Returned by a plain `Consume`. -/
  consumed : List Bytes
  /-- `Ack` returned true. -/
  acked : List Bytes
  /-- Removed from the dead letter queue. -/
  removed : List Bytes
  /-- Purged from the dead letter queue. -/
  purged : List Bytes

namespace Ledger

def empty : Ledger := ⟨[], [], [], [], []⟩

/-- Everything that has left for good. -/
def terminal (L : Ledger) : List Bytes := L.consumed ++ L.acked ++ L.removed ++ L.purged

def issue (L : Ledger) (id : Bytes) : Ledger := { L with issued := L.issued ++ [id] }

def consume (L : Ledger) (id : Bytes) : Ledger := { L with consumed := L.consumed ++ [id] }

def ack (L : Ledger) (id : Bytes) : Ledger := { L with acked := L.acked ++ [id] }

def remove (L : Ledger) (id : Bytes) : Ledger := { L with removed := L.removed ++ [id] }

def purge (L : Ledger) (ids : List Bytes) : Ledger := { L with purged := L.purged ++ ids }

end Ledger

/-- The result of one critical section: the topic, the ledger, and the rest of the operation. -/
abbrev Section := Topic × Ledger × Option Task

/-- The first critical section of a call. `none` means that the section cannot run now, because
`Close` holds the mutex it needs. -/
def Topic.start (t : Topic) (L : Ledger) : Call → Option Section
  | .publish msg front =>
      if t.closing then none
      else if t.closed then some (t, L, none)
      else some (t, L.issue msg.id, some (.publish msg front))
  | .publishDelayed msg delay now =>
      some (t.publishDelayed msg delay now, L.issue msg.id, none)
  | .consume =>
      match t.consume with
      | some (msg, t') => some (t', L.consume msg.id, none)
      | none => some (t, L, none)
  | .consumeGroup groupName consumerID =>
      if t.closing then none
      else some (t.getOrCreateGroup groupName (30 * second), L,
        some (.popWait groupName consumerID))
  | .ack groupName msgID =>
      if t.closing then none
      else some (t, L, if groupName ∈ t.groups then some (.ack groupName msgID) else none)
  | .nack groupName msgID reason =>
      if t.closing then none
      else some (t, L, if groupName ∈ t.groups then some (.nack groupName msgID reason) else none)
  | .sweepConsumerTimeouts order =>
      if t.closing then none
      else if order.Perm t.groups.keys then some (t, L, some (.sweep order [])) else none
  | .advance => some ({ t with tw := t.tw.advance.2 }, L, some (.expire t.tw.advance.1))
  | .replayDeadLetter msgID now =>
      match t.dlq.remove msgID with
      | some (msg, dlq) => some ({ t with dlq := dlq }, L, some (.replay (Topic.revive msg now)))
      | none => some (t, L, none)
  | .dlqRemove msgID =>
      match t.dlq.remove msgID with
      | some (msg, dlq) => some ({ t with dlq := dlq }, L.remove msg.id, none)
      | none => some (t, L, none)
  | .dlqPurge => some ({ t with dlq := t.dlq.purge.2 }, L.purge t.dlq.ids, none)
  | .close =>
      if t.closing then none
      else if t.closed then some (t, L, none)
      else some ({ t with closed := true }, L, some .closeRing)

/-- The locked part of `SweepTimeouts` on one group. `order` is the order in which the timed-out
entries happen to be found. -/
def Topic.sweepGroup (t : Topic) (groupName : Bytes) (now : ℤ) (order : List Message) :
    Option Topic :=
  (t.groups.lookup groupName).bind fun cg ↦
    if order.Perm ((cg.expired now).map PendingMessage.message) then
      some (t.setGroup groupName (cg.sweepTake now))
    else none

/-- The next critical section of an operation in progress. `none` means that the section cannot
run now: `PopWait` on an empty ring sleeps, and a negative shift in `Nack` brings the process
down. -/
def Task.resume (t : Topic) (L : Ledger) (now : ℤ) (order : List Message) :
    Task → Option Section
  | .publish msg front => some ((t.push msg front).2, L, none)
  | .popWait groupName consumerID =>
      t.pop.map fun r ↦ (r.2, L, some (.checkout groupName consumerID r.1))
  | .checkout groupName consumerID msg =>
      (t.checkout groupName consumerID msg now).map fun t' ↦ (t', L, none)
  | .ack groupName msgID =>
      (t.ack groupName msgID).map fun r ↦ (r.2, if r.1 then L.ack msgID else L, none)
  | .nack groupName msgID reason =>
      (t.groups.lookup groupName).map fun cg ↦
        match cg.nackTake msgID with
        | some (msg, cg') => (t.setGroup groupName cg', L, some (.fail msg reason))
        | none => (t, L, none)
  | .fail msg reason =>
      (ConsumerGroup.nackRoute (ConsumerGroup.fail msg reason)).map fun r ↦
        ({ t.route (ConsumerGroup.fail msg reason) now r with nacked := t.nacked + 1 }, L, none)
  | .sweep [] [] => some (t, L, none)
  | .sweep (groupName :: groups) [] =>
      (t.sweepGroup groupName now order).map fun t' ↦ (t', L, some (.sweep groups order))
  | .sweep groups (msg :: timedOut) =>
      let failed := ConsumerGroup.fail msg ConsumerGroup.timeoutCause
      some (t.route failed now (ConsumerGroup.sweepRoute failed), L, some (.sweep groups timedOut))
  | .expire [] => some (t, L, none)
  | .expire (msg :: msgs) => some (t.onExpire msg, L, some (.expire msgs))
  | .replay msg => some (t.onExpire msg, L, none)
  | .closeRing => some ({ t with ring := t.ring.close }, L, some .closeWheel)
  | .closeWheel => some ({ t with tw := t.tw.stop }, L, none)

/-! ## The system -/

/-- A topic and the operations in progress on it. -/
structure TopicState where
  topic : Topic
  tasks : List Task
  ledger : Ledger

inductive TopicLabel where
  /-- A goroutine calls into the topic. -/
  | call (c : Call)
  /-- The `i`-th operation in progress runs its next critical section. -/
  | resume (i : ℕ) (now : ℤ) (order : List Message)
  /-- The `i`-th operation is in `PopWait` on an empty ring and gives up: its deadline has passed,
  or the ring is closed. -/
  | giveUp (i : ℕ)

namespace TopicState

def init (t : Topic) : TopicState := ⟨t, [], Ledger.empty⟩

/-- Put the rest of the `i`-th operation, if any, in its place. -/
def replaceTask (tasks : List Task) (i : ℕ) : Option Task → List Task
  | some task => tasks.set i task
  | none => tasks.eraseIdx i

def step (s : TopicState) : TopicLabel → Option TopicState
  | .call c => (s.topic.start s.ledger c).map fun r ↦ ⟨r.1, s.tasks ++ r.2.2.toList, r.2.1⟩
  | .resume i now order =>
      (s.tasks[i]?).bind fun task ↦
        (task.resume s.topic s.ledger now order).map fun r ↦
          ⟨r.1, replaceTask s.tasks i r.2.2, r.2.1⟩
  | .giveUp i =>
      (s.tasks[i]?).bind fun task ↦
        match task, s.topic.ring.items with
        | .popWait _ _, [] => some { s with tasks := s.tasks.eraseIdx i }
        | _, _ => none

/-- The message a step returns to a consumer: `Consume` its own, `ConsumeGroup` the one it has just
checked out. -/
def handedOut (s : TopicState) : TopicLabel → Option Bytes
  | .call .consume => s.topic.consume.map fun r ↦ r.1.id
  | .resume i _ _ =>
      match s.tasks[i]? with
      | some (.checkout _ _ msg) => some msg.id
      | _ => none
  | _ => none

end TopicState

namespace TopicLabel

/-- The identifier a label brings in. -/
def issues : TopicLabel → List Bytes
  | .call (.publish msg _) => [msg.id]
  | .call (.publishDelayed msg _ _) => [msg.id]
  | _ => []

/-- Identifiers of all messages given to the publishing calls of a run. -/
def issuedIds (ls : List TopicLabel) : List Bytes := ls.flatMap issues

def IsClose : TopicLabel → Prop
  | .call .close => True
  | _ => False

end TopicLabel

end VortexMQ
