import VortexMQ.Queue.Broker

/-!
# Properties of all topics

An operation of the broker changes one topic, by one of a few operations on topics. So a property
that all topics have is kept by the broker if these few operations keep it (`Topic.Kept`), given
what is known of the messages that are published. The same goes for the channels, which none of the
operations below touches.
-/

namespace VortexMQ

/-- The operations on topics keep the property `T`, if every message that is published satisfies
`P`. -/
structure Topic.Kept (T : Topic → Prop) (P : Message → Prop) : Prop where
  default : ∀ name, T (Topic.default name)
  getOrCreateGroup : ∀ {t}, T t → ∀ groupName timeout, T (t.getOrCreateGroup groupName timeout)
  runPublish : ∀ {t msg}, T t → P msg → ∀ front, T (t.runPublish msg front).2
  publishDelayed : ∀ {t msg}, T t → P msg → ∀ delay now, T (t.publishDelayed msg delay now)
  runConsumeWait : ∀ {t timeout r}, T t → t.runConsumeWait timeout = some r → T r.2
  runConsumeGroup : ∀ {t groupName consumerID timeout now r}, T t →
    t.runConsumeGroup groupName consumerID timeout now = some r → T r.2
  runAck : ∀ {t}, T t → ∀ groupName msgID, T (t.runAck groupName msgID).2
  runNack : ∀ {t groupName msgID reason now r}, T t →
    t.runNack groupName msgID reason now = some r → T r.2
  runReplayDeadLetter : ∀ {t}, T t → ∀ msgID now, T (t.runReplayDeadLetter msgID now).2

/-- Every topic of the broker has the property `T`, and every channel the property `C`. -/
structure Broker.Every (T : Topic → Prop) (C : Bytes → List Subscriber → Prop) (b : Broker) :
    Prop where
  topics : ∀ name t, b.topics.lookup name = some t → T t
  channels : ∀ name subs, b.channels.lookup name = some subs → C name subs

namespace Broker.Every

variable {T : Topic → Prop} {C : Bytes → List Subscriber → Prop} {P : Message → Prop}
  {b b' : Broker} {c : Codec} {t : Topic} {topicName groupName msgID : Bytes}

theorem of_eq (h : b.Every T C) (htopics : b'.topics = b.topics)
    (hchannels : b'.channels = b.channels) : b'.Every T C :=
  ⟨htopics ▸ h.topics, hchannels ▸ h.channels⟩

theorem newBroker (wal : Option Wal) (now : ℤ) : (Broker.newBroker wal now).Every T C := by
  constructor <;>
  · intro name x hx
    exact absurd hx (by simp [Broker.newBroker])

theorem setTopic (h : b.Every T C) (ht : T t) (name : Bytes) : (b.setTopic name t).Every T C := by
  refine ⟨fun name' t' hlookup ↦ ?_, h.channels⟩
  by_cases hname : name' = name
  · subst hname
    rw [Broker.setTopic, AList.lookup_insert, Option.some_inj] at hlookup
    exact hlookup ▸ ht
  · rw [Broker.setTopic, AList.lookup_insert_ne hname] at hlookup
    exact h.topics name' t' hlookup

theorem setChannel (h : b.Every T C) {channel : Bytes} {subs : List Subscriber}
    (hsubs : C channel subs) :
    { b with channels := b.channels.insert channel subs }.Every T C := by
  refine ⟨h.topics, fun name subs' hlookup ↦ ?_⟩
  change (b.channels.insert channel subs).lookup name = some subs' at hlookup
  by_cases hname : name = channel
  · subst hname
    rw [AList.lookup_insert, Option.some_inj] at hlookup
    exact hlookup ▸ hsubs
  · rw [AList.lookup_insert_ne hname] at hlookup
    exact h.channels name subs' hlookup

theorem logPublish (h : b.Every T C) {msg : Message} {r : Except Bytes Unit × Broker}
    (hr : b.logPublish c msg = some r) : r.2.Every T C := by
  rw [Broker.logPublish] at hr
  split at hr
  · rw [← Option.some_inj.mp hr]
    exact h
  · obtain ⟨r', -, rfl⟩ := Option.map_eq_some_iff.mp hr
    exact h.of_eq rfl rfl

theorem logAck (h : b.Every T C) (hb' : b.logAck topicName groupName msgID = some b') :
    b'.Every T C := by
  rw [Broker.logAck] at hb'
  split at hb'
  · rw [← Option.some_inj.mp hb']
    exact h
  · obtain ⟨r', -, rfl⟩ := Option.map_eq_some_iff.mp hb'
    exact h.of_eq rfl rfl

/-! ## Publishing -/

section Operations

variable (hT : Topic.Kept T P)
include hT

theorem getOrCreateTopic (h : b.Every T C) (name : Bytes) :
    T (b.getOrCreateTopic name).1 ∧ (b.getOrCreateTopic name).2.Every T C := by
  rw [Broker.getOrCreateTopic]
  split
  · rename_i t hlookup
    exact ⟨h.topics name t hlookup, h⟩
  · exact ⟨hT.default name, h.setTopic (hT.default name) name⟩

theorem foldl_recover : ∀ {msgs : List Message} {b : Broker}, b.Every T C →
    (∀ m ∈ msgs, P m) → (msgs.foldl Broker.recover b).Every T C := by
  intro msgs
  induction msgs with
  | nil => intro b h _; exact h
  | cons msg msgs ih =>
    intro b h hmsgs
    obtain ⟨ht, hb⟩ := h.getOrCreateTopic hT msg.topic
    refine ih ?_ fun m hm ↦ hmsgs m (List.mem_cons_of_mem _ hm)
    exact hb.setTopic (hT.runPublish ht (hmsgs msg List.mem_cons_self) false) _

theorem publishWith (h : b.Every T C) {msg : Message} {put : Topic → Option Message × Topic}
    (hput : ∀ t, T t → T (put t).2) {r : Except Bytes Message × Broker}
    (hr : b.publishWith c msg put = some r) : r.2.Every T C := by
  obtain ⟨ht, hb⟩ := h.getOrCreateTopic hT msg.topic
  obtain ⟨⟨res, b'⟩, hlog, rfl⟩ := Option.map_eq_some_iff.mp hr
  have hb' : b'.Every T C := hb.logPublish hlog
  have hset := hb'.setTopic (hput _ ht) msg.topic
  cases res with
  | error err => exact hb'
  | ok _ =>
    simp only
    split
    · exact hset
    · exact hset.of_eq rfl rfl

theorem publish (h : b.Every T C) {payload : Option Bytes} {st : Stamp}
    (hmsg : P (st.message topicName payload)) {r : Except Bytes Message × Broker}
    (hr : b.publish c topicName payload st = some r) : r.2.Every T C :=
  h.publishWith hT (fun _ ht ↦ hT.runPublish ht hmsg false) hr

theorem publishFront (h : b.Every T C) {payload : Option Bytes} {st : Stamp}
    (hmsg : P (st.message topicName payload)) {r : Except Bytes Message × Broker}
    (hr : b.publishFront c topicName payload st = some r) : r.2.Every T C :=
  h.publishWith hT (fun _ ht ↦ hT.runPublish ht hmsg true) hr

theorem publishDelayed (h : b.Every T C) {payload : Option Bytes} {st : Stamp} {delay now : ℤ}
    (hmsg : P (st.message topicName payload)) {r : Except Bytes Message × Broker}
    (hr : b.publishDelayed c topicName payload delay st now = some r) : r.2.Every T C :=
  h.publishWith hT (fun _ ht ↦ hT.publishDelayed ht hmsg delay now) hr

private theorem publishBatchLoop : ∀ {msgs : List Message} {count : ℕ} {b : Broker}
    {r : ℕ × Broker}, b.Every T C → (∀ m ∈ msgs, P m) →
    Broker.publishBatchLoop c topicName msgs count b = some r → r.2.Every T C := by
  intro msgs
  induction msgs with
  | nil =>
    intro count b r h _ hr
    rw [← Option.some_inj.mp hr]
    exact h
  | cons msg msgs ih =>
    intro count b r h hmsgs hr
    obtain ⟨r', hr', hrest⟩ := Option.bind_eq_some_iff.mp hr
    obtain ⟨ht, hb⟩ := (h.logPublish hr').getOrCreateTopic hT topicName
    refine ih ?_ (fun m hm ↦ hmsgs m (List.mem_cons_of_mem _ hm)) hrest
    exact hb.setTopic (hT.runPublish ht (hmsgs msg List.mem_cons_self) false) topicName

theorem publishBatch (h : b.Every T C) {payloads : List (Option Bytes × Stamp)} {r : ℕ × Broker}
    (hmsgs : ∀ p ∈ payloads, P (p.2.message topicName p.1))
    (hr : b.publishBatch c topicName payloads = some r) : r.2.Every T C := by
  rw [Broker.publishBatch] at hr
  split at hr
  · rw [← Option.some_inj.mp hr]
    exact h
  · obtain ⟨r', hr', rfl⟩ := Option.map_eq_some_iff.mp hr
    have hbatch : ∀ m ∈ Broker.batchMessages topicName payloads, P m := by
      intro m hm
      obtain ⟨p, hp, rfl⟩ := List.mem_map.mp hm
      exact hmsgs p hp
    exact (publishBatchLoop hT (h.getOrCreateTopic hT topicName).2 hbatch hr').of_eq rfl rfl

/-! ## Consuming and failing -/

theorem consume (h : b.Every T C) {timeout : ℤ} {r : Option Message × Broker}
    (hr : b.consume topicName timeout = some r) : r.2.Every T C := by
  rw [Broker.consume] at hr
  split at hr
  · rw [← Option.some_inj.mp hr]
    exact h
  · rename_i t ht
    obtain ⟨⟨m, t'⟩, hr', rfl⟩ := Option.map_eq_some_iff.mp hr
    have hset := h.setTopic (hT.runConsumeWait (h.topics topicName t ht) hr') topicName
    cases m with
    | none => exact h
    | some m => exact hset.of_eq rfl rfl

theorem consumeGroup (h : b.Every T C) {consumerID : Bytes} {timeout now : ℤ}
    {r : Option Message × Broker}
    (hr : b.consumeGroup topicName groupName consumerID timeout now = some r) :
    r.2.Every T C := by
  obtain ⟨ht, hb⟩ := h.getOrCreateTopic hT topicName
  obtain ⟨⟨m, t'⟩, hr', rfl⟩ := Option.map_eq_some_iff.mp hr
  have hset := hb.setTopic (hT.runConsumeGroup ht hr') topicName
  cases m with
  | none => exact hset
  | some m => exact hset.of_eq rfl rfl

theorem createGroup (h : b.Every T C) (topicName groupName : Bytes) (timeout : ℤ) :
    ((b.getOrCreateTopic topicName).2.setTopic topicName
      ((b.getOrCreateTopic topicName).1.getOrCreateGroup groupName timeout)).Every T C := by
  obtain ⟨ht, hb⟩ := h.getOrCreateTopic hT topicName
  exact hb.setTopic (hT.getOrCreateGroup ht groupName timeout) topicName

theorem ack (h : b.Every T C) {r : Bool × Broker} (hr : b.ack topicName groupName msgID = some r) :
    r.2.Every T C := by
  rw [Broker.ack] at hr
  split at hr
  · rw [← Option.some_inj.mp hr]
    exact h
  · rename_i t ht
    split at hr
    · obtain ⟨b', hb', rfl⟩ := Option.map_eq_some_iff.mp hr
      have hset := h.setTopic (hT.runAck (h.topics topicName t ht) groupName msgID) topicName
      refine logAck ?_ hb'
      exact hset.of_eq rfl rfl
    · rw [← Option.some_inj.mp hr]
      exact h

theorem nack (h : b.Every T C) {reason : Bytes} {now : ℤ} {r : Bool × Broker}
    (hr : b.nack topicName groupName msgID reason now = some r) : r.2.Every T C := by
  rw [Broker.nack] at hr
  split at hr
  · rw [← Option.some_inj.mp hr]
    exact h
  · rename_i t ht
    obtain ⟨⟨ok, t'⟩, hr', rfl⟩ := Option.map_eq_some_iff.mp hr
    have hset := h.setTopic (hT.runNack (h.topics topicName t ht) hr') topicName
    cases ok with
    | false => exact h
    | true => exact hset.of_eq rfl rfl

theorem replayDLQ (h : b.Every T C) (topicName msgID : Bytes) (now : ℤ) :
    (b.replayDLQ topicName msgID now).2.Every T C := by
  rw [Broker.replayDLQ]
  split
  · exact h
  · rename_i t ht
    have hrun := hT.runReplayDeadLetter (h.topics topicName t ht) msgID now
    split
    · rename_i m t' heq
      rw [heq] at hrun
      exact h.setTopic hrun topicName
    · exact h

end Operations

end Broker.Every

end VortexMQ
