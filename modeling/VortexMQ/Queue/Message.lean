import VortexMQ.Coding.Decimal

/-!
# Messages

The `Message` record of `internal/queue/message.go`. The header map is kept as its strictly sorted
list of entries, which makes two equal maps equal values.
-/

namespace VortexMQ

/-- A `map[string]string`, in canonical form. -/
structure Headers where
  entries : List (Bytes × Bytes)
  sorted : entries.Pairwise fun a b ↦ a.1 < b.1
  deriving DecidableEq

@[ext] theorem Headers.ext {h h' : Headers} (he : h.entries = h'.entries) : h = h' := by
  cases h
  cases h'
  cases he
  rfl

/-- The map without entries. -/
def Headers.empty : Headers := ⟨[], List.Pairwise.nil⟩

structure Message where
  id : Bytes
  topic : Bytes
  /-- `none` is the nil slice. -/
  payload : Option Bytes
  headers : Headers
  priority : UInt8
  /-- Unix nanoseconds, as are the other times. -/
  timestamp : ℤ
  deliverAt : ℤ
  retryCount : ℤ
  maxRetries : ℤ
  consumerID : Bytes
  ackDeadline : ℤ
  failureCause : Bytes
  deriving DecidableEq

namespace Message

/-- The identifier `<millis>-<seq>-<rand4>`. -/
def newID (now : ℤ) (seq : UInt64) (rand : Bytes) : Bytes :=
  Decimal.ofInt (now.tdiv millisecond) ++ bytesOf "-" ++ Decimal.ofNat (seq.toNat % 100000)
    ++ bytesOf "-" ++ hexOf rand

/-- `NewMessage` at time `now`; `seq` is the value of the global sequence counter after its
increment, `rand` the two random bytes. -/
def newMessage (topic : Bytes) (payload : Option Bytes) (now : ℤ) (seq : UInt64) (rand : Bytes) :
    Message where
  id := newID now seq rand
  topic := topic
  payload := payload
  headers := Headers.empty
  priority := 0
  timestamp := now
  deliverAt := now
  retryCount := 0
  maxRetries := 3
  consumerID := []
  ackDeadline := 0
  failureCause := []

/-- `len(msg.Payload)`. -/
def payloadLen (m : Message) : ℕ := (m.payload.getD []).length

/-- `Clone`. Values are never shared in this model, so the fresh header map is the old one. -/
def clone (m : Message) : Message := m

/-- The message survives `encoding/json`: its strings are UTF-8. The numbers are in range, as they
are by their types in the source. -/
structure Portable (m : Message) : Prop where
  id : Utf8 m.id
  topic : Utf8 m.topic
  headers : ∀ e ∈ m.headers.entries, Utf8 e.1 ∧ Utf8 e.2
  timestamp : Int64Range m.timestamp
  deliverAt : Int64Range m.deliverAt
  retryCount : Int64Range m.retryCount
  maxRetries : Int64Range m.maxRetries
  consumerID : Utf8 m.consumerID
  ackDeadline : Int64Range m.ackDeadline
  failureCause : Utf8 m.failureCause

theorem utf8_newID (now : ℤ) (seq : UInt64) (rand : Bytes) : Utf8 (newID now seq rand) :=
  (((utf8_of_ascii (Decimal.ascii_ofInt _)).append (utf8_bytesOf _)).append
    (utf8_of_ascii (Decimal.ascii_ofNat _))).append (utf8_bytesOf _) |>.append
    (utf8_of_ascii (ascii_hexOf rand))

theorem portable_newMessage {topic : Bytes} {now : ℤ} (htopic : Utf8 topic)
    (hnow : Int64Range now) (payload : Option Bytes) (seq : UInt64) (rand : Bytes) :
    (newMessage topic payload now seq rand).Portable where
  id := utf8_newID now seq rand
  topic := htopic
  headers := by rintro e he; exact absurd he List.not_mem_nil
  timestamp := hnow
  deliverAt := hnow
  retryCount := (by decide : Int64Range 0)
  maxRetries := (by decide : Int64Range 3)
  consumerID := utf8_bytesOf ""
  ackDeadline := (by decide : Int64Range 0)
  failureCause := utf8_bytesOf ""

end Message

end VortexMQ
