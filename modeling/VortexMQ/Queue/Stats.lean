import VortexMQ.Coding.Json
import VortexMQ.Queue.Broker

/-!
# Telemetry

`Topic.Stats` and `Broker.Stats`, and the two texts the server makes of them: the lines of `INFO`
and the JSON object of `VMQ.STATS`.
-/

namespace VortexMQ

structure TopicStats where
  name : Bytes
  length : ℤ
  capacity : ℤ
  published : UInt64
  consumed : UInt64
  acked : UInt64
  nacked : UInt64
  deadLettered : UInt64
  bytesPublished : UInt64
  bytesConsumed : UInt64
  consumerGroups : ℕ
  deadLetterCount : ℕ
  deriving DecidableEq

def Topic.stats (t : Topic) : TopicStats where
  name := t.name
  length := t.ring.buf.len
  capacity := t.ring.buf.cap
  published := t.published
  consumed := t.consumed
  acked := t.acked
  nacked := t.nacked
  deadLettered := t.deadLettered
  bytesPublished := t.bytesPub
  bytesConsumed := t.bytesSub
  consumerGroups := t.groups.entries.length
  deadLetterCount := t.dlq.len

/-- What `Stats` takes from its environment: the seconds since the start, and the order in which it
meets the topics. -/
structure Survey where
  uptimeSeconds : ℤ
  order : List TopicStats → List TopicStats
  order_perm : ∀ stats, (order stats).Perm stats

structure BrokerStats where
  uptimeSeconds : ℤ
  totalTopics : ℕ
  totalPublished : UInt64
  totalConsumed : UInt64
  totalAcked : UInt64
  totalNacked : UInt64
  totalDLQ : UInt64
  topics : List TopicStats
  allocatedMemory : UInt64
  deriving DecidableEq

/-- `Broker.Stats`. The sum of the dead letters does not depend on the order, and nothing sets the
allocated memory. -/
def Broker.stats (b : Broker) (survey : Survey) : BrokerStats where
  uptimeSeconds := survey.uptimeSeconds
  totalTopics := b.topics.entries.length
  totalPublished := b.totalPublished
  totalConsumed := b.totalConsumed
  totalAcked := b.totalAcked
  totalNacked := b.totalNacked
  totalDLQ := (b.topics.entries.map fun e ↦ e.2.stats.deadLettered).sum
  topics := survey.order (b.topics.entries.map fun e ↦ e.2.stats)
  allocatedMemory := 0

/-! ## Texts -/

namespace TopicStats

open Json

/-- `json.Marshal` of one element of the list of topics. -/
def marshal (s : TopicStats) : Bytes :=
  123 :: (key "name" ++ quote s.name
    ++ field "length" (Decimal.ofInt s.length)
    ++ field "capacity" (Decimal.ofInt s.capacity)
    ++ field "published" (Decimal.ofNat s.published.toNat)
    ++ field "consumed" (Decimal.ofNat s.consumed.toNat)
    ++ field "acked" (Decimal.ofNat s.acked.toNat)
    ++ field "nacked" (Decimal.ofNat s.nacked.toNat)
    ++ field "dead_lettered" (Decimal.ofNat s.deadLettered.toNat)
    ++ field "bytes_published" (Decimal.ofNat s.bytesPublished.toNat)
    ++ field "bytes_consumed" (Decimal.ofNat s.bytesConsumed.toNat)
    ++ field "consumer_groups" (Decimal.ofNat s.consumerGroups)
    ++ field "dead_letter_count" (Decimal.ofNat s.deadLetterCount) ++ [125])

end TopicStats

namespace BrokerStats

open Json

/-- `json.Marshal(s.broker.Stats())`. -/
def marshal (s : BrokerStats) : Bytes :=
  123 :: (key "uptime_seconds" ++ Decimal.ofInt s.uptimeSeconds
    ++ field "total_topics" (Decimal.ofNat s.totalTopics)
    ++ field "total_published" (Decimal.ofNat s.totalPublished.toNat)
    ++ field "total_consumed" (Decimal.ofNat s.totalConsumed.toNat)
    ++ field "total_acked" (Decimal.ofNat s.totalAcked.toNat)
    ++ field "total_nacked" (Decimal.ofNat s.totalNacked.toNat)
    ++ field "total_dlq" (Decimal.ofNat s.totalDLQ.toNat)
    ++ field "topics" (91 :: ([44].intercalate (s.topics.map TopicStats.marshal) ++ [93]))
    ++ field "allocated_memory_bytes" (Decimal.ofNat s.allocatedMemory.toNat) ++ [125])

/-- One line of `INFO`. -/
def infoLine (name : String) (text : Bytes) : Bytes :=
  bytesOf name ++ 58 :: (text ++ bytesOf "\r\n")

/-- The text of `INFO`. -/
def info (s : BrokerStats) : Bytes :=
  bytesOf "# VortexMQ Telemetry\r\n"
    ++ infoLine "version" (bytesOf "1.0.0")
    ++ infoLine "uptime_seconds" (Decimal.ofInt s.uptimeSeconds)
    ++ infoLine "total_topics" (Decimal.ofNat s.totalTopics)
    ++ infoLine "total_published" (Decimal.ofNat s.totalPublished.toNat)
    ++ infoLine "total_consumed" (Decimal.ofNat s.totalConsumed.toNat)
    ++ infoLine "total_acked" (Decimal.ofNat s.totalAcked.toNat)
    ++ infoLine "total_nacked" (Decimal.ofNat s.totalNacked.toNat)
    ++ infoLine "total_dlq" (Decimal.ofNat s.totalDLQ.toNat)

end BrokerStats

end VortexMQ
