import VortexMQ.Basic.Bytes
import VortexMQ.Basic.ListPerm

/-!
# The timing wheel

`internal/queue/timingwheel.go`. A bucket is the linked list of the source read from its head, so
`Add` inserts at the front and `advance`, which rebuilds the bucket by prepending, reverses the
entries it keeps.

The wheel carries what the source establishes in `NewTimingWheel` and never breaks: a positive
interval, one bucket per slot, and a current slot inside the wheel.
-/

namespace VortexMQ

structure TimerEntry (α : Type) where
  msg : α
  /-- Full turns of the wheel still to wait. -/
  rounds : ℤ

structure TimingWheel (α : Type) where
  interval : ℤ
  slots : ℕ
  buckets : List (List (TimerEntry α))
  currentSlot : ℕ
  closed : Bool
  interval_pos : 0 < interval
  length_buckets : buckets.length = slots
  currentSlot_lt : currentSlot < slots

namespace TimingWheel

variable {α : Type}

/-- `NewTimingWheel`, with its defaults for a non-positive interval or slot count. -/
def newTimingWheel (interval : ℤ) (slots : ℤ) : TimingWheel α where
  interval := if interval ≤ 0 then 50 * millisecond else interval
  slots := if slots ≤ 0 then 3600 else slots.toNat
  buckets := List.replicate (if slots ≤ 0 then 3600 else slots.toNat) []
  currentSlot := 0
  closed := false
  interval_pos := by
    split
    · decide
    · omega
  length_buckets := List.length_replicate
  currentSlot_lt := by split <;> omega

/-- The bucket of a slot. -/
def bucket (tw : TimingWheel α) (slot : ℕ) : List (TimerEntry α) := (tw.buckets[slot]?).getD []

/-- The number of ticks `Add` waits. -/
def ticks (tw : TimingWheel α) (delay : ℤ) : ℕ :=
  let t := (delay.tdiv tw.interval).toNat
  if t = 0 then 1 else t

/-- The slot `Add` inserts into. -/
def targetSlot (tw : TimingWheel α) (delay : ℤ) : ℕ :=
  (tw.currentSlot + tw.ticks delay % tw.slots) % tw.slots

/-- The insertion at the head of the target bucket. -/
def insert (tw : TimingWheel α) (msg : α) (delay : ℤ) : TimingWheel α :=
  { tw with
    buckets := tw.buckets.set (tw.targetSlot delay)
      (⟨msg, (tw.ticks delay / tw.slots : ℕ)⟩ :: tw.bucket (tw.targetSlot delay))
    length_buckets := List.length_set.trans tw.length_buckets }

/-- `Add`. The first component is the message handed to `onExpire` on the spot, which happens when
the delay is not positive; a closed wheel drops the message. -/
def add (tw : TimingWheel α) (msg : α) (delay : ℤ) : Option α × TimingWheel α :=
  if delay ≤ 0 then (some msg, tw)
  else if tw.closed then (none, tw)
  else (none, tw.insert msg delay)

/-- The loop of `advance` over a bucket: the messages that expire, in order, and the entries that
stay, each with one round less. -/
def expireLoop : List (TimerEntry α) → List α → List (TimerEntry α) → List α × List (TimerEntry α)
  | [], expired, remaining => (expired, remaining)
  | entry :: next, expired, remaining =>
      if entry.rounds ≤ 0 then expireLoop next (expired ++ [entry.msg]) remaining
      else expireLoop next expired ({ entry with rounds := entry.rounds - 1 } :: remaining)

/-- The locked part of `advance`; the caller passes the first component to `onExpire`. -/
def advance (tw : TimingWheel α) : List α × TimingWheel α :=
  let swept := expireLoop (tw.bucket tw.currentSlot) [] []
  (swept.1, { tw with
    currentSlot := (tw.currentSlot + 1) % tw.slots
    buckets := tw.buckets.set tw.currentSlot swept.2
    length_buckets := List.length_set.trans tw.length_buckets
    currentSlot_lt := Nat.mod_lt _ (Nat.zero_lt_of_lt tw.currentSlot_lt) })

def stop (tw : TimingWheel α) : TimingWheel α := { tw with closed := true }

/-! ## The messages in the wheel -/

/-- Everything scheduled, bucket by bucket. -/
def messages (tw : TimingWheel α) : List α := tw.buckets.flatten.map TimerEntry.msg

@[simp] theorem messages_newTimingWheel (interval slots : ℤ) :
    (newTimingWheel interval slots : TimingWheel α).messages = [] := by
  rw [messages, newTimingWheel, List.flatten_replicate_nil, List.map_nil]

theorem targetSlot_lt (tw : TimingWheel α) (delay : ℤ) : tw.targetSlot delay < tw.slots :=
  Nat.mod_lt _ (Nat.zero_lt_of_lt tw.currentSlot_lt)

theorem bucket_eq (tw : TimingWheel α) {slot : ℕ} (h : slot < tw.buckets.length) :
    tw.bucket slot = tw.buckets[slot] := by
  rw [bucket, List.getElem?_eq_getElem h, Option.getD_some]

theorem messages_set_perm (tw : TimingWheel α) {slot : ℕ} (h : slot < tw.slots)
    (b : List (TimerEntry α)) :
    ((tw.bucket slot).map TimerEntry.msg ++
        (tw.buckets.set slot b).flatten.map TimerEntry.msg).Perm
      (b.map TimerEntry.msg ++ tw.messages) := by
  have hlt : slot < tw.buckets.length := tw.length_buckets.symm ▸ h
  rw [messages, ← List.map_append, ← List.map_append, tw.bucket_eq hlt]
  exact (flatten_set_perm hlt b).map _

theorem messages_insert_perm (tw : TimingWheel α) (msg : α) (delay : ℤ) :
    (tw.insert msg delay).messages.Perm (msg :: tw.messages) := by
  have h := tw.messages_set_perm (tw.targetSlot_lt delay)
    (⟨msg, (tw.ticks delay / tw.slots : ℕ)⟩ :: tw.bucket (tw.targetSlot delay))
  rw [List.map_cons, List.cons_append] at h
  exact (List.perm_append_left_iff _).mp (h.trans List.perm_middle.symm)

private theorem expireLoop_perm : ∀ (b : List (TimerEntry α)) (expired : List α)
    (remaining : List (TimerEntry α)),
    ((expireLoop b expired remaining).1 ++
        (expireLoop b expired remaining).2.map TimerEntry.msg).Perm
      (b.map TimerEntry.msg ++ (expired ++ remaining.map TimerEntry.msg)) := by
  intro b
  induction b with
  | nil => intro expired remaining; rfl
  | cons entry next ih =>
    intro expired remaining
    rw [expireLoop, List.map_cons, List.cons_append]
    split
    · refine (ih _ _).trans ?_
      rw [List.append_assoc, List.singleton_append]
      exact (List.Perm.append_left _ List.perm_middle).trans List.perm_middle
    · refine (ih _ _).trans ?_
      rw [List.map_cons]
      exact (List.Perm.append_left _ List.perm_middle).trans List.perm_middle

/-- A tick splits the wheel's messages into those that expire and those that stay. -/
theorem messages_advance_perm (tw : TimingWheel α) :
    (tw.advance.1 ++ tw.advance.2.messages).Perm tw.messages := by
  have hset := tw.messages_set_perm tw.currentSlot_lt
    (expireLoop (tw.bucket tw.currentSlot) [] []).2
  have hloop := expireLoop_perm (tw.bucket tw.currentSlot) [] []
  rw [List.map_nil, List.append_nil, List.append_nil] at hloop
  have hboth := (List.Perm.append_left (expireLoop (tw.bucket tw.currentSlot) [] []).1 hset).trans
    ((List.append_assoc _ _ _ ▸ hloop.append_right tw.messages :))
  refine (List.perm_append_left_iff ((tw.bucket tw.currentSlot).map TimerEntry.msg)).mp ?_
  refine List.Perm.trans ?_ hboth
  rw [← List.append_assoc, ← List.append_assoc]
  exact List.perm_append_comm.append_right _

end TimingWheel

end VortexMQ
