import VortexMQ.Basic.Bytes
import VortexMQ.Basic.LockOrder

/-!
# The locks of a process

Every structure that goroutines share has a mutex of its own: the server, the broker, the registry
of channels, the log, and for each topic the topic itself, its ring, its wheel, its dead letters and
its groups. This module has what each operation of the source does with these mutexes. The data are
left out. Where they decide which way the code goes, the way is an argument: whether the topic was
found, how often a reader has waited, which messages have run out.

## The order

The source takes a second lock while it holds a first in two places. `Broker.Stats` keeps the broker
locked for reading while it asks the topics, and `Broker.Close` keeps it locked for writing while it
closes the topics, each of which is locked while its ring and its wheel are closed, and then the
log. Everything else lets go of one lock before it takes the next one: a rejected message is taken
out of its group before it goes to the wheel, and the wheel is unlocked before it pushes what is
due. So the locks have ranks, with the server and the broker below the topics and the topics below
the rest, and the discipline of `LockOrder` applies to whatever the goroutines do, in any number and
in any order.

## Waiting

`Cond.Wait` lets go of the lock, sleeps, and takes the lock again, so a reader sleeps with empty
hands. So does a connection that waits for a command, a loop that waits for its ticker, and
`Server.Stop` when it waits for the connections. What is not here is `DeadLetterQueue.Get`, which
releases what it does not hold. No operation calls it.
-/

namespace VortexMQ

/-- The mutexes. A `sync.Mutex` is one that is only acquired for writing. -/
inductive Mutex where
  | server
  | broker
  | channels
  | topic (topic : Bytes)
  | ring (topic : Bytes)
  | wheel (topic : Bytes)
  | deadLetters (topic : Bytes)
  | group (topic group : Bytes)
  | wal
  deriving DecidableEq

namespace Mutex

def rank : Mutex → ℕ
  | .server | .broker | .channels => 0
  | .topic _ => 1
  | .ring _ | .wheel _ | .deadLetters _ | .group _ _ | .wal => 2

end Mutex

abbrev Trace := List (LockAction Mutex)

namespace Locking

/-! ## The parts of a topic -/

namespace Ring

variable (topic : Bytes)

def len : Trace := critical .write (.ring topic) []

def push : Trace := critical .write (.ring topic) []

def pushFront : Trace := critical .write (.ring topic) []

def pop : Trace := critical .write (.ring topic) []

/-- The reader has been woken `waits` times, the last time for good. -/
def popWait (waits : ℕ) : Trace :=
  (List.replicate waits (critical .write (.ring topic) [] ++ [.sleep])).flatten ++
    critical .write (.ring topic) []

def timeout : Trace := critical .write (.ring topic) []

def popBatch (max : ℤ) : Trace := if max ≤ 0 then [] else critical .write (.ring topic) []

def close : Trace := critical .write (.ring topic) []

end Ring

namespace Wheel

variable (topic : Bytes)

/-- Without a delay the message goes to the ring at once. -/
def add (delay : ℤ) : Trace :=
  if delay ≤ 0 then Ring.push topic else critical .write (.wheel topic) []

def advance (expired : ℕ) : Trace :=
  critical .write (.wheel topic) [] ++ (List.replicate expired (Ring.push topic)).flatten

def stop : Trace := critical .write (.wheel topic) []

end Wheel

namespace DeadLetters

variable (topic : Bytes)

def add : Trace := critical .write (.deadLetters topic) []

def list : Trace := critical .read (.deadLetters topic) []

def remove : Trace := critical .write (.deadLetters topic) []

def len : Trace := critical .read (.deadLetters topic) []

def purge : Trace := critical .write (.deadLetters topic) []

end DeadLetters

/-- What becomes of a message that was not processed. -/
inductive Fate where
  | deadLetter
  | retry (delay : ℤ)
  deriving DecidableEq

def Fate.trace (topic : Bytes) : Fate → Trace
  | .deadLetter => DeadLetters.add topic
  | .retry delay => Wheel.add topic delay

namespace Group

variable (topic group : Bytes)

def checkout : Trace := critical .write (.group topic group) []

def ack : Trace := critical .write (.group topic group) []

/-- The callbacks run outside the lock, if the message was pending. -/
def nack (fate : Option Fate) : Trace :=
  critical .write (.group topic group) [] ++ fate.toList.flatMap (Fate.trace topic)

/-- The callbacks run outside the lock, one message after the other. -/
def sweepTimeouts (timedOut : List Fate) : Trace :=
  critical .write (.group topic group) [] ++ timedOut.flatMap (Fate.trace topic)

def pendingCount : Trace := critical .read (.group topic group) []

def activeConsumers : Trace := critical .read (.group topic group) []

def listPending : Trace := critical .read (.group topic group) []

end Group

/-! ## Topics -/

namespace Topic

variable (topic : Bytes)

def publish (closed : Bool) : Trace :=
  critical .read (.topic topic) [] ++ if closed then [] else Ring.push topic

def publishFront (closed : Bool) : Trace :=
  critical .read (.topic topic) [] ++ if closed then [] else Ring.pushFront topic

def publishDelayed (delay : ℤ) : Trace := Wheel.add topic delay

def consume : Trace := Ring.pop topic

def consumeWait (waits : ℕ) : Trace := Ring.popWait topic waits

def getOrCreateGroup : Trace := critical .write (.topic topic) []

def consumeGroup (group : Bytes) (waits : ℕ) (found : Bool) : Trace :=
  getOrCreateGroup topic ++ Ring.popWait topic waits ++
    if found then Group.checkout topic group else []

def ack (group : Bytes) (known : Bool) : Trace :=
  critical .read (.topic topic) [] ++ if known then Group.ack topic group else []

def nack (group : Bytes) (known : Bool) (fate : Option Fate) : Trace :=
  critical .read (.topic topic) [] ++ if known then Group.nack topic group fate else []

def replayDeadLetter (found : Bool) : Trace :=
  DeadLetters.remove topic ++ if found then Ring.push topic else []

def stats : Trace := critical .read (.topic topic) [] ++ Ring.len topic ++ DeadLetters.len topic

/-- The groups are listed under the lock and swept outside. -/
def sweepConsumerTimeouts (groups : List (Bytes × List Fate)) : Trace :=
  critical .read (.topic topic) [] ++
    groups.flatMap fun (group, timedOut) ↦ Group.sweepTimeouts topic group timedOut

/-- The ring and the wheel are closed while the topic is locked. -/
def close (closed : Bool) : Trace :=
  critical .write (.topic topic) (if closed then [] else Ring.close topic ++ Wheel.stop topic)

end Topic

/-! ## The log -/

namespace Wal

def writeRecord : Trace := critical .write .wal []

def sync : Trace := critical .write .wal []

def close : Trace := critical .write .wal []

end Wal

/-! ## The broker -/

namespace Broker

def getOrCreateTopic : Trace := critical .write .broker []

def getTopic : Trace := critical .read .broker []

/-- A message is written to the log, if there is one, and goes to its topic if that has worked. -/
def logged (written : Option Bool) (rest : Trace) : Trace :=
  match written with
  | none => rest
  | some true => Wal.writeRecord ++ rest
  | some false => Wal.writeRecord

def publish (topic : Bytes) (written : Option Bool) (closed : Bool) : Trace :=
  getOrCreateTopic ++ logged written (Topic.publish topic closed)

def publishFront (topic : Bytes) (written : Option Bool) (closed : Bool) : Trace :=
  getOrCreateTopic ++ logged written (Topic.publishFront topic closed)

def publishDelayed (topic : Bytes) (written : Option Bool) (delay : ℤ) : Trace :=
  getOrCreateTopic ++ logged written (Topic.publishDelayed topic delay)

def publishBatch (topic : Bytes) (wal : Bool) (payloads : List Bool) : Trace :=
  if payloads = [] then [] else
    getOrCreateTopic ++ payloads.flatMap fun closed ↦
      (if wal then Wal.writeRecord else []) ++ Topic.publish topic closed

def broadcast : Trace := critical .read .channels []

def subscribeChannel : Trace := critical .write .channels []

def unsubscribeChannel : Trace := critical .write .channels []

def onTopic (found : Bool) (rest : Trace) : Trace := getTopic ++ if found then rest else []

def consume (topic : Bytes) (found : Bool) (waits : ℕ) : Trace :=
  onTopic found (Topic.consumeWait topic waits)

def consumeGroup (topic group : Bytes) (waits : ℕ) (found : Bool) : Trace :=
  getOrCreateTopic ++ Topic.consumeGroup topic group waits found

def ack (topic group : Bytes) (found known written : Bool) : Trace :=
  onTopic found (Topic.ack topic group known ++ if written then Wal.writeRecord else [])

def nack (topic group : Bytes) (found known : Bool) (fate : Option Fate) : Trace :=
  onTopic found (Topic.nack topic group known fate)

def replayDLQ (topic : Bytes) (found dead : Bool) : Trace :=
  onTopic found (Topic.replayDeadLetter topic dead)

def topicsList : Trace := critical .read .broker []

def stats (topics : List Bytes) : Trace := critical .read .broker (topics.flatMap Topic.stats)

/-- The topics are listed under the lock and swept outside. -/
def sweepAllTimeouts (topics : List (Bytes × List (Bytes × List Fate))) : Trace :=
  critical .read .broker [] ++
    topics.flatMap fun (topic, groups) ↦ Topic.sweepConsumerTimeouts topic groups

/-- The topics and the log are closed while the broker is locked, unless that has been done. -/
def close (topics : Option (List (Bytes × Bool))) (wal : Bool) : Trace :=
  critical .write .broker <|
    match topics with
    | none => []
    | some topics => (topics.flatMap fun (topic, closed) ↦ Topic.close topic closed) ++
        if wal then Wal.close else []

end Broker

/-! ## The server -/

namespace Server

/-- A connection is entered, or turned away, or the loop looks whether it is over. -/
def accept : Trace := critical .write .server []

def remove : Trace := critical .write .server []

/-- The connections are closed under the lock, and waited for outside. -/
def stop (closed : Bool) : Trace := critical .write .server [] ++ if closed then [] else [.sleep]

end Server

/-! ## Goroutines -/

/-- What goroutines do one after the other. -/
inductive Operation where
  /-- It waits for a command, a connection, a ticker or a signal. -/
  | wait
  | accept
  | remove
  | stop (closed : Bool)
  | getOrCreateTopic
  | getTopic
  | publish (topic : Bytes) (written : Option Bool) (closed : Bool)
  | publishFront (topic : Bytes) (written : Option Bool) (closed : Bool)
  | publishDelayed (topic : Bytes) (written : Option Bool) (delay : ℤ)
  | publishBatch (topic : Bytes) (wal : Bool) (payloads : List Bool)
  | broadcast
  | subscribeChannel
  | unsubscribeChannel
  | consume (topic : Bytes) (found : Bool) (waits : ℕ)
  | consumeGroup (topic group : Bytes) (waits : ℕ) (found : Bool)
  | ack (topic group : Bytes) (found known written : Bool)
  | nack (topic group : Bytes) (found known : Bool) (fate : Option Fate)
  | replayDLQ (topic : Bytes) (found dead : Bool)
  | topicsList
  | stats (topics : List Bytes)
  | sweepAllTimeouts (topics : List (Bytes × List (Bytes × List Fate)))
  | close (topics : Option (List (Bytes × Bool))) (wal : Bool)
  /-- The log is synced by its own loop. -/
  | sync
  /-- The wheel of a topic goes on. -/
  | advance (topic : Bytes) (expired : ℕ)
  /-- The timer of a reader runs out. -/
  | timeout (topic : Bytes)
  -- what the handlers and the recovery ask of a topic that they have
  | topicPublish (topic : Bytes) (closed : Bool)
  | topicConsume (topic : Bytes)
  | popBatch (topic : Bytes) (max : ℤ)
  | topicStats (topic : Bytes)
  | getOrCreateGroup (topic : Bytes)
  | pendingCount (topic group : Bytes)
  | activeConsumers (topic group : Bytes)
  | listPending (topic group : Bytes)
  | listDeadLetters (topic : Bytes)
  | purge (topic : Bytes)

def Operation.trace : Operation → Trace
  | .wait => [.sleep]
  | .accept => Server.accept
  | .remove => Server.remove
  | .stop closed => Server.stop closed
  | .getOrCreateTopic => Broker.getOrCreateTopic
  | .getTopic => Broker.getTopic
  | .publish topic written closed => Broker.publish topic written closed
  | .publishFront topic written closed => Broker.publishFront topic written closed
  | .publishDelayed topic written delay => Broker.publishDelayed topic written delay
  | .publishBatch topic wal payloads => Broker.publishBatch topic wal payloads
  | .broadcast => Broker.broadcast
  | .subscribeChannel => Broker.subscribeChannel
  | .unsubscribeChannel => Broker.unsubscribeChannel
  | .consume topic found waits => Broker.consume topic found waits
  | .consumeGroup topic group waits found => Broker.consumeGroup topic group waits found
  | .ack topic group found known written => Broker.ack topic group found known written
  | .nack topic group found known fate => Broker.nack topic group found known fate
  | .replayDLQ topic found dead => Broker.replayDLQ topic found dead
  | .topicsList => Broker.topicsList
  | .stats topics => Broker.stats topics
  | .sweepAllTimeouts topics => Broker.sweepAllTimeouts topics
  | .close topics wal => Broker.close topics wal
  | .sync => Wal.sync
  | .advance topic expired => Wheel.advance topic expired
  | .timeout topic => Ring.timeout topic
  | .topicPublish topic closed => Topic.publish topic closed
  | .topicConsume topic => Topic.consume topic
  | .popBatch topic max => Ring.popBatch topic max
  | .topicStats topic => Topic.stats topic
  | .getOrCreateGroup topic => Topic.getOrCreateGroup topic
  | .pendingCount topic group => Group.pendingCount topic group
  | .activeConsumers topic group => Group.activeConsumers topic group
  | .listPending topic group => Group.listPending topic group
  | .listDeadLetters topic => DeadLetters.list topic
  | .purge topic => DeadLetters.purge topic

/-- What happens in a process. -/
inductive Action where
  /-- A goroutine is started, with all that it is going to do. -/
  | start (operations : List Operation)
  | step (n : ℕ)
  | wake (n : ℕ)

def Action.label : Action → LockSystem.Label Mutex
  | .start operations => .spawn (operations.flatMap Operation.trace)
  | .step n => .step n
  | .wake n => .wake n

/-! ## Every operation keeps the order -/

section Order

variable {topic group : Bytes}

theorem nested_popWait (waits : ℕ) : Nested Mutex.rank 0 (Ring.popWait topic waits) :=
  .append (nested_replicate (.append (nested_brief (Nat.zero_le _)) nested_sleep) waits)
    (nested_brief (Nat.zero_le _))

theorem nested_add (delay : ℤ) : Nested Mutex.rank 2 (Wheel.add topic delay) :=
  nested_ite (nested_brief le_rfl) (nested_brief le_rfl)

private theorem nested_push : Nested Mutex.rank 2 (Ring.push topic) := nested_brief le_rfl

private theorem nested_advance (expired : ℕ) : Nested Mutex.rank 2 (Wheel.advance topic expired) :=
  .append (nested_brief le_rfl) (nested_replicate nested_push expired)

theorem nested_fate (fate : Fate) : Nested Mutex.rank 2 (fate.trace topic) := by
  cases fate with
  | deadLetter => exact nested_brief le_rfl
  | retry delay => exact nested_add delay

private theorem nested_groupNack (fate : Option Fate) :
    Nested Mutex.rank 2 (Group.nack topic group fate) :=
  .append (nested_brief le_rfl) (nested_flatMap fun fate _ ↦ nested_fate fate)

private theorem nested_sweepTimeouts (timedOut : List Fate) :
    Nested Mutex.rank 2 (Group.sweepTimeouts topic group timedOut) :=
  .append (nested_brief le_rfl) (nested_flatMap fun fate _ ↦ nested_fate fate)

/-- One after the other: first a lock that is not so large, and then one of the largest. -/
theorem nested_topicPublish (closed : Bool) : Nested Mutex.rank 1 (Topic.publish topic closed) :=
  .append (nested_brief le_rfl) (nested_ite nested_nil (nested_brief (Nat.le_succ 1)))

private theorem nested_topicPublishFront (closed : Bool) :
    Nested Mutex.rank 1 (Topic.publishFront topic closed) :=
  .append (nested_brief le_rfl) (nested_ite nested_nil (nested_brief (Nat.le_succ 1)))

private theorem nested_topicConsumeGroup (waits : ℕ) (found : Bool) :
    Nested Mutex.rank 0 (Topic.consumeGroup topic group waits found) :=
  .append (.append (nested_brief (Nat.zero_le _)) (nested_popWait waits))
    (nested_ite (nested_brief (Nat.zero_le _)) nested_nil)

private theorem nested_topicAck (known : Bool) :
    Nested Mutex.rank 1 (Topic.ack topic group known) :=
  .append (nested_brief le_rfl) (nested_ite (nested_brief (Nat.le_succ 1)) nested_nil)

private theorem nested_topicNack (known : Bool) (fate : Option Fate) :
    Nested Mutex.rank 1 (Topic.nack topic group known fate) :=
  .append (nested_brief le_rfl)
    (nested_ite ((nested_groupNack fate).mono (Nat.le_succ 1)) nested_nil)

private theorem nested_replayDeadLetter (found : Bool) :
    Nested Mutex.rank 2 (Topic.replayDeadLetter topic found) :=
  .append (nested_brief le_rfl) (nested_ite (nested_brief le_rfl) nested_nil)

theorem nested_topicStats : Nested Mutex.rank 1 (Topic.stats topic) :=
  .append (.append (nested_brief le_rfl) (nested_brief (Nat.le_succ 1)))
    (nested_brief (Nat.le_succ 1))

private theorem nested_sweepConsumerTimeouts (groups : List (Bytes × List Fate)) :
    Nested Mutex.rank 1 (Topic.sweepConsumerTimeouts topic groups) :=
  .append (nested_brief le_rfl)
    (nested_flatMap fun group _ ↦ (nested_sweepTimeouts group.2).mono (Nat.le_succ 1))

private theorem nested_topicClose (closed : Bool) :
    Nested Mutex.rank 1 (Topic.close topic closed) :=
  nested_critical le_rfl
    (nested_ite nested_nil (.append (nested_brief le_rfl) (nested_brief le_rfl)))

private theorem nested_logged (written : Option Bool) {rest : Trace}
    (h : Nested Mutex.rank 0 rest) : Nested Mutex.rank 0 (Broker.logged written rest) := by
  match written with
  | none => exact h
  | some true => exact (nested_brief (Nat.zero_le _)).append h
  | some false => exact nested_brief (Nat.zero_le _)

private theorem nested_onTopic (found : Bool) {rest : Trace} (h : Nested Mutex.rank 0 rest) :
    Nested Mutex.rank 0 (Broker.onTopic found rest) :=
  .append (nested_brief (Nat.zero_le _)) (nested_ite h nested_nil)

private theorem nested_publishBatch (wal : Bool) (payloads : List Bool) :
    Nested Mutex.rank 0 (Broker.publishBatch topic wal payloads) := by
  refine nested_ite nested_nil ((nested_brief (Nat.zero_le _)).append (nested_flatMap ?_))
  intro closed _
  exact (nested_ite (nested_brief (Nat.zero_le _)) nested_nil).append
    ((nested_topicPublish closed).mono (Nat.zero_le _))

private theorem nested_brokerStats (topics : List Bytes) :
    Nested Mutex.rank 0 (Broker.stats topics) :=
  nested_critical le_rfl (nested_flatMap fun _ _ ↦ nested_topicStats)

private theorem nested_sweepAllTimeouts (topics : List (Bytes × List (Bytes × List Fate))) :
    Nested Mutex.rank 0 (Broker.sweepAllTimeouts topics) :=
  .append (nested_brief (Nat.zero_le _)) (nested_flatMap fun topic _ ↦
    (nested_sweepConsumerTimeouts topic.2).mono (Nat.zero_le _))

/-- Three locks at a time: the broker, a topic, and its ring or its wheel. -/
theorem nested_brokerClose (topics : Option (List (Bytes × Bool))) (wal : Bool) :
    Nested Mutex.rank 0 (Broker.close topics wal) := by
  refine nested_critical le_rfl ?_
  cases topics with
  | none => exact nested_nil
  | some topics =>
    exact (nested_flatMap fun (_, closed) _ ↦ nested_topicClose closed).append
      (nested_ite (nested_brief (Nat.le_succ 1)) nested_nil)

/-- **Every operation keeps the order.** -/
theorem nested_trace (operation : Operation) : Nested Mutex.rank 0 operation.trace := by
  cases operation with
  | wait => exact nested_sleep
  | stop closed =>
    exact (nested_brief (Nat.zero_le _)).append (nested_ite nested_nil nested_sleep)
  | publish topic written closed =>
    exact (nested_brief (Nat.zero_le _)).append
      (nested_logged written ((nested_topicPublish closed).mono (Nat.zero_le _)))
  | publishFront topic written closed =>
    exact (nested_brief (Nat.zero_le _)).append
      (nested_logged written ((nested_topicPublishFront closed).mono (Nat.zero_le _)))
  | publishDelayed topic written delay =>
    exact (nested_brief (Nat.zero_le _)).append
      (nested_logged written ((nested_add delay).mono (Nat.zero_le _)))
  | publishBatch topic wal payloads => exact nested_publishBatch wal payloads
  | consume topic found waits => exact nested_onTopic found (nested_popWait waits)
  | consumeGroup topic group waits found =>
    exact (nested_brief (Nat.zero_le _)).append (nested_topicConsumeGroup waits found)
  | ack topic group found known written =>
    exact nested_onTopic found (((nested_topicAck known).mono (Nat.zero_le _)).append
      (nested_ite (nested_brief (Nat.zero_le _)) nested_nil))
  | nack topic group found known fate =>
    exact nested_onTopic found ((nested_topicNack known fate).mono (Nat.zero_le _))
  | replayDLQ topic found dead =>
    exact nested_onTopic found ((nested_replayDeadLetter dead).mono (Nat.zero_le _))
  | stats topics => exact nested_brokerStats topics
  | sweepAllTimeouts topics => exact nested_sweepAllTimeouts topics
  | close topics wal => exact nested_brokerClose topics wal
  | advance topic expired => exact (nested_advance expired).mono (Nat.zero_le _)
  | topicPublish topic closed => exact (nested_topicPublish closed).mono (Nat.zero_le _)
  | popBatch topic max => exact nested_ite nested_nil (nested_brief (Nat.zero_le _))
  | topicStats topic => exact nested_topicStats.mono (Nat.zero_le _)
  -- the others are one critical section
  | _ => exact nested_brief (Nat.zero_le _)

end Order

private theorem admitted_label (action : Action) : LockSystem.Admitted Mutex.rank action.label := by
  cases action with
  | start operations => exact (nested_flatMap fun operation _ ↦ nested_trace operation).orderly
  | step n => trivial
  | wake n => trivial

private theorem kept_of_run_label {actions : List Action} {s : LockSystem Mutex}
    (h : Run LockSystem.step (fun _ ↦ True) .start (actions.map Action.label) s) :
    s.Kept Mutex.rank := by
  refine LockSystem.kept_of_run (fun l hl ↦ ?_) h
  obtain ⟨action, -, rfl⟩ := List.mem_map.mp hl
  exact admitted_label action

/-- **No operation waits for ever on a lock.** Let any goroutines do any operations, in any
interleaving. Then no release is fatal, and who holds a lock for writing is the only one that holds
it. From there, as long as nobody is woken, the number of steps is bounded; and where no goroutine
can take another one, all have come to their ends or sleep, and every lock is free. -/
theorem no_deadlock {actions : List Action} {s : LockSystem Mutex}
    (h : Run LockSystem.step (fun _ ↦ True) .start (actions.map Action.label) s) :
    s.fatal = none ∧
    (∀ n m lock mode, (lock, .write) ∈ (s.goroutines n).held →
      (lock, mode) ∈ (s.goroutines m).held → m = n) ∧
    ∀ (ns : List ℕ) (t : LockSystem Mutex), Run LockSystem.step (fun _ ↦ True) s (ns.map .step) t →
      ns.length ≤ s.work ∧
      ((∃ n u, t.step (.step n) = some u) ∨
        (∀ n, LockSystem.Resting (t.goroutines n)) ∧ ∀ lock, t.locks lock = .free) := by
  have hkept := kept_of_run_label h
  refine ⟨hkept.fatal, fun n m lock mode hn hm ↦ hkept.eq_of_write hn hm, fun ns t hns ↦ ?_⟩
  have hwork := hkept.length_add_work_le hns
  refine ⟨by omega, or_iff_not_imp_left.mpr fun hstuck ↦ ?_⟩
  have ht := hkept.steps hns
  refine ht.resting fun n ↦ Option.eq_none_iff_forall_not_mem.mpr fun u hu ↦ hstuck ⟨n, u, ?_⟩
  rw [ht.step_eq]
  exact hu

/-- Somebody asks for the statistics and has the broker, somebody wants to close it and is
announced, and so a third one, who only wants to look up a topic, has to wait too. -/
private def contention : List Action :=
  [.start [.stats [bytesOf "jobs"]],
    .start [.close (some [(bytesOf "jobs", false)]) true],
    .start [.consume (bytesOf "jobs") true 1],
    .step 0, .step 1]

theorem no_deadlock_contention :
    ∃ s, Run LockSystem.step (fun _ ↦ True) .start (contention.map Action.label) s ∧
      s.step (.step 1) = none ∧ s.step (.step 2) = none ∧ s.fatal = none ∧
      ((∃ n u, s.step (.step n) = some u) ∨
        (∀ n, LockSystem.Resting (s.goroutines n)) ∧ ∀ lock, s.locks lock = .free) := by
  have hsome : (Run.exec LockSystem.step (fun _ ↦ True) .start
      (contention.map Action.label)).isSome := by decide +kernel
  have hrun := Run.of_exec (Option.some_get hsome).symm
  obtain ⟨hfatal, -, hsteps⟩ := no_deadlock hrun
  refine ⟨_, hrun, ?_, ?_, hfatal, (hsteps [] _ (Run.nil trivial)).2⟩
  · exact Option.isNone_iff_eq_none.mp
      (hrun.of_exec_map (f := fun s ↦ (s.step (.step 1)).isNone) (a := true) (by decide +kernel))
  · exact Option.isNone_iff_eq_none.mp
      (hrun.of_exec_map (f := fun s ↦ (s.step (.step 2)).isNone) (a := true) (by decide +kernel))

end Locking

end VortexMQ
