import VortexMQ.Basic.ListPerm
import VortexMQ.Queue.Message

/-!
# Consumer groups

`internal/queue/consumer_group.go`. The pending entries list is keyed by message identifier; the
group carries the fact that every entry is stored under the identifier of its own message.

`Nack` and `SweepTimeouts` each have a locked part, which removes entries from the pending list,
and an unlocked part, which counts the failure and hands the message to `onRetry` or
`onDeadLetter`. The two parts are separate definitions here, since other operations can run in
between.
-/

namespace VortexMQ

/-- An in-flight message checked out by a consumer. -/
structure PendingMessage where
  message : Message
  consumerID : Bytes
  deliveryTime : ℤ
  ackDeadline : ℤ
  deriving DecidableEq

structure ConsumerGroup where
  name : Bytes
  topicName : Bytes
  /-- The pending entries list, by message identifier. -/
  pel : AList fun _ : Bytes ↦ PendingMessage
  /-- Consumers by identifier, with their last heartbeat. -/
  consumers : AList fun _ : Bytes ↦ ℤ
  defaultTimeout : ℤ
  keyed : ∀ e ∈ pel.entries, e.2.message.id = e.1

namespace ConsumerGroup

def newConsumerGroup (name topicName : Bytes) (defaultTimeout : ℤ) : ConsumerGroup where
  name := name
  topicName := topicName
  pel := ∅
  consumers := ∅
  defaultTimeout := if defaultTimeout ≤ 0 then 30 * second else defaultTimeout
  keyed := by simp

private theorem keyed_insert {pel : AList fun _ : Bytes ↦ PendingMessage}
    (h : ∀ e ∈ pel.entries, e.2.message.id = e.1) (p : PendingMessage) :
    ∀ e ∈ (pel.insert p.message.id p).entries, e.2.message.id = e.1 := by
  intro e he
  rw [AList.entries_insert, List.mem_cons] at he
  rcases he with rfl | he
  · rfl
  · exact h e ((List.kerase_sublist _ _).subset he)

private theorem keyed_erase {pel : AList fun _ : Bytes ↦ PendingMessage}
    (h : ∀ e ∈ pel.entries, e.2.message.id = e.1) (id : Bytes) :
    ∀ e ∈ (pel.erase id).entries, e.2.message.id = e.1 := fun e he ↦
  h e ((List.kerase_sublist _ _).subset he)

/-- The message as `Checkout` leaves it. -/
def stamp (cg : ConsumerGroup) (msg : Message) (consumerID : Bytes) (customTimeout now : ℤ) :
    Message :=
  { msg with
    consumerID := consumerID
    ackDeadline := wrap64 (now + if 0 < customTimeout then customTimeout else cg.defaultTimeout) }

/-- `Checkout` at time `now`. -/
def checkout (cg : ConsumerGroup) (msg : Message) (consumerID : Bytes) (customTimeout now : ℤ) :
    ConsumerGroup :=
  { cg with
    consumers := cg.consumers.insert consumerID now
    pel := cg.pel.insert msg.id
      ⟨cg.stamp msg consumerID customTimeout now, consumerID, now,
        (cg.stamp msg consumerID customTimeout now).ackDeadline⟩
    keyed := keyed_insert cg.keyed
      ⟨cg.stamp msg consumerID customTimeout now, consumerID, now,
        (cg.stamp msg consumerID customTimeout now).ackDeadline⟩ }

/-- Delete an entry of the pending list. -/
def delete (cg : ConsumerGroup) (msgID : Bytes) : ConsumerGroup :=
  { cg with
    pel := cg.pel.erase msgID
    keyed := keyed_erase cg.keyed msgID }

def ack (cg : ConsumerGroup) (msgID : Bytes) : Bool × ConsumerGroup :=
  match cg.pel.lookup msgID with
  | some _ => (true, cg.delete msgID)
  | none => (false, cg)

/-- The locked part of `Nack`: the message it goes on to fail. -/
def nackTake (cg : ConsumerGroup) (msgID : Bytes) : Option (Message × ConsumerGroup) :=
  (cg.pel.lookup msgID).map fun pending ↦ (pending.message, cg.delete msgID)

/-- The entries past their deadline at time `now`. -/
def expired (cg : ConsumerGroup) (now : ℤ) : List PendingMessage :=
  (cg.pel.entries.map Sigma.snd).filter fun pending ↦ pending.ackDeadline ≤ now

/-- The locked part of `SweepTimeouts`: what is left of the pending list. -/
def sweepTake (cg : ConsumerGroup) (now : ℤ) : ConsumerGroup :=
  { cg with
    pel := ⟨cg.pel.entries.filter fun e ↦ now < e.2.ackDeadline,
      List.NodupKeys.sublist List.filter_sublist cg.pel.nodupKeys⟩
    keyed := fun e he ↦ cg.keyed e (List.mem_of_mem_filter he) }

/-! ## Failing a message -/

/-- `SweepTimeouts`' cause. -/
def timeoutCause : Bytes := bytesOf "Ack deadline expired (worker timeout/crash)"

/-- Count a failure on the message. -/
def fail (msg : Message) (cause : Bytes) : Message :=
  { msg with
    retryCount := wrap64 (msg.retryCount + 1)
    failureCause := cause }

/-- Where a failed message goes. -/
inductive Route where
  | deadLetter
  | retry (delay : ℤ)
  deriving DecidableEq

/-- Go's `1 << n` for a signed count: a negative count panics, and a count past the word size
shifts everything out. -/
def shiftOne (n : ℤ) : Option ℤ :=
  if n < 0 then none else if 64 ≤ n then some 0 else some (wrap64 (2 ^ n.toNat))

/-- The delay of `Nack`, `100ms * 2^(retries-1)` capped at ten seconds. -/
def backoff (retryCount : ℤ) : Option ℤ :=
  (shiftOne (wrap64 (retryCount - 1))).map fun shifted ↦
    let delay := wrap64 (wrap64 (100 * shifted) * millisecond)
    if 10 * second < delay then 10 * second else delay

/-- Routing in `Nack`, on the message after `fail`; `none` is the panic of a negative shift. -/
def nackRoute (msg : Message) : Option Route :=
  if msg.maxRetries ≤ msg.retryCount then some .deadLetter
  else (backoff msg.retryCount).map .retry

/-- Routing in `SweepTimeouts`, on the message after `fail`. -/
def sweepRoute (msg : Message) : Route :=
  if msg.maxRetries ≤ msg.retryCount then .deadLetter else .retry (500 * millisecond)

/-! ## The pending identifiers -/

/-- Identifiers of the messages checked out under the group. -/
def pending (cg : ConsumerGroup) : List Bytes := cg.pel.entries.map fun e ↦ e.2.message.id

theorem pending_eq_keys (cg : ConsumerGroup) : cg.pending = cg.pel.keys := by
  rw [pending, AList.keys, List.keys]
  exact List.map_congr_left cg.keyed

theorem pending_checkout {cg : ConsumerGroup} {msg : Message} (h : msg.id ∉ cg.pending)
    (consumerID : Bytes) (customTimeout now : ℤ) :
    (cg.checkout msg consumerID customTimeout now).pending = msg.id :: cg.pending := by
  rw [pending_eq_keys] at h
  rw [pending_eq_keys, pending_eq_keys]
  exact keys_insert_of_notMem (mt AList.mem_keys.mp h)

theorem pending_delete_perm {cg : ConsumerGroup} {msgID : Bytes} {p : PendingMessage}
    (h : cg.pel.lookup msgID = some p) :
    p.message.id = msgID ∧ (msgID :: (cg.delete msgID).pending).Perm cg.pending := by
  have hmem : (⟨msgID, p⟩ : (_ : Bytes) × PendingMessage) ∈ cg.pel.entries :=
    AList.mem_lookup_iff.mp h
  refine ⟨cg.keyed _ hmem, ?_⟩
  rw [pending_eq_keys, pending_eq_keys]
  exact keys_erase_perm (mem_of_lookup_eq_some h)

/-- A sweep splits the pending identifiers into those that time out and those that stay. -/
theorem pending_sweepTake_perm (cg : ConsumerGroup) (now : ℤ) :
    ((cg.expired now).map (fun p ↦ p.message.id) ++ (cg.sweepTake now).pending).Perm
      cg.pending := by
  have hsplit := (List.filter_append_perm
    (fun e : (_ : Bytes) × PendingMessage ↦ decide (e.2.ackDeadline ≤ now)) cg.pel.entries).map
    fun e ↦ e.2.message.id
  have hkept : (cg.sweepTake now).pel.entries
      = cg.pel.entries.filter fun e ↦ !decide (e.2.ackDeadline ≤ now) := by
    refine List.filter_congr fun e _ ↦ ?_
    rw [← decide_not]
    exact decide_eq_decide.mpr not_le.symm
  rw [List.map_append] at hsplit
  rw [pending, pending, hkept, expired, List.filter_map, List.map_map]
  exact hsplit

end ConsumerGroup

end VortexMQ
