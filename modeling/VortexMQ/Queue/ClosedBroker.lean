import VortexMQ.Queue.Recovery

/-!
# A closed broker

`Broker.Close` closes every topic there is and the log, and sets a flag that nothing but a second
`Close` reads. What a closed broker still accepts is therefore decided elsewhere, and by each
publishing operation in its own way: `Publish` and `PublishFront` fail on the closed log, or without
a log on a closed topic, but a topic that is created later is open; `PublishDelayed` has nothing but
the log to stop it; and `PublishBatch` does not look at the log.

`SameFlags` says that an operation leaves the flags as they are, up to new topics, which are open.
Every operation but `Close` does.
-/

namespace VortexMQ

/-! ## Flags -/

theorem Wal.closed_sync (w : Wal) : w.sync.closed = w.closed := by
  rw [sync]
  split <;> rfl

namespace Broker

/-- The flags of `b'` are those of `b`, and new topics are open. -/
structure SameFlags (b b' : Broker) : Prop where
  broker : b'.closed = b.closed
  log : b'.wal.map Wal.closed = b.wal.map Wal.closed
  topics : ∀ name t', b'.topics.lookup name = some t' →
    (∃ t, b.topics.lookup name = some t ∧ t'.flags = t.flags) ∨ t'.Accepts

namespace SameFlags

variable {b b' b'' : Broker} {c : Codec}

theorem refl (b : Broker) : b.SameFlags b := ⟨rfl, rfl, fun _ t' h ↦ Or.inl ⟨t', h, rfl⟩⟩

theorem trans (h : b.SameFlags b') (h' : b'.SameFlags b'') : b.SameFlags b'' := by
  refine ⟨h'.broker.trans h.broker, h'.log.trans h.log, fun name t'' ht'' ↦ ?_⟩
  rcases h'.topics name t'' ht'' with ⟨t', ht', hflags⟩ | hopen
  · rcases h.topics name t' ht' with ⟨t, ht, hflags'⟩ | hopen
    · exact Or.inl ⟨t, ht, hflags.trans hflags'⟩
    · exact Or.inr (hflags.trans hopen)
  · exact Or.inr hopen

theorem of_eq (h : b.SameFlags b') (hclosed : b''.closed = b'.closed) (hwal : b''.wal = b'.wal)
    (htopics : b''.topics = b'.topics) : b.SameFlags b'' :=
  ⟨hclosed.trans h.broker, hwal ▸ h.log, htopics ▸ h.topics⟩

theorem setTopic {name : Bytes} {t t' : Topic} (ht : b.topics.lookup name = some t)
    (hflags : t'.flags = t.flags) : b.SameFlags (b.setTopic name t') := by
  refine ⟨rfl, rfl, fun name' u hu ↦ Or.inl ?_⟩
  by_cases hname : name' = name
  · subst hname
    rw [Broker.setTopic, AList.lookup_insert, Option.some_inj] at hu
    exact ⟨t, ht, hu ▸ hflags⟩
  · rw [Broker.setTopic, AList.lookup_insert_ne hname] at hu
    exact ⟨u, hu, rfl⟩

theorem getOrCreateTopic (b : Broker) (name : Bytes) :
    b.SameFlags (b.getOrCreateTopic name).2 ∧
      (b.getOrCreateTopic name).2.topics.lookup name = some (b.getOrCreateTopic name).1 := by
  rw [Broker.getOrCreateTopic]
  split
  · rename_i t ht
    exact ⟨refl b, ht⟩
  · refine ⟨⟨rfl, rfl, fun name' u hu ↦ ?_⟩, AList.lookup_insert _⟩
    by_cases hname : name' = name
    · subst hname
      rw [Broker.setTopic, AList.lookup_insert, Option.some_inj] at hu
      exact Or.inr (hu ▸ (Topic.ring_default name').1)
    · rw [Broker.setTopic, AList.lookup_insert_ne hname] at hu
      exact Or.inl ⟨u, hu, rfl⟩

theorem logPublish {msg : Message} {r : Except Bytes Unit × Broker}
    (h : b.logPublish c msg = some r) : b.SameFlags r.2 ∧ r.2.topics = b.topics := by
  rw [Broker.logPublish] at h
  split at h
  · rw [← Option.some_inj.mp h]
    exact ⟨refl b, rfl⟩
  · rename_i w hw
    rw [Option.map_eq_some_iff] at h
    obtain ⟨⟨err, w'⟩, hwrite, rfl⟩ := h
    refine ⟨⟨rfl, ?_, fun _ t' ht' ↦ Or.inl ⟨t', ht', rfl⟩⟩, rfl⟩
    rw [hw]
    exact congrArg some (Wal.closed_writeRecord hwrite)

private theorem logAck {topicName groupName msgID : Bytes}
    (h : b.logAck topicName groupName msgID = some b') : b.SameFlags b' := by
  rw [Broker.logAck] at h
  split at h
  · rw [← Option.some_inj.mp h]
    exact refl b
  · rename_i w hw
    rw [Option.map_eq_some_iff] at h
    obtain ⟨⟨err, w'⟩, hwrite, rfl⟩ := h
    refine ⟨rfl, ?_, fun _ t' ht' ↦ Or.inl ⟨t', ht', rfl⟩⟩
    rw [hw]
    exact congrArg some (Wal.closed_writeRecord hwrite)

private theorem publishWith {msg : Message} {put : Topic → Option Message × Topic}
    (hput : ∀ t : Topic, (put t).2.flags = t.flags) {r : Except Bytes Message × Broker}
    (h : b.publishWith c msg put = some r) : b.SameFlags r.2 := by
  obtain ⟨hfound, hlookup⟩ := getOrCreateTopic b msg.topic
  unfold Broker.publishWith at h
  simp only [Option.map_eq_some_iff] at h
  obtain ⟨⟨err, b'⟩, hlog, rfl⟩ := h
  obtain ⟨hflags, htopics⟩ := logPublish hlog
  have hset : b.SameFlags (b'.setTopic msg.topic (put (b.getOrCreateTopic msg.topic).1).2) :=
    (hfound.trans hflags).trans (setTopic (htopics ▸ hlookup) (hput _))
  cases err with
  | error err => exact hfound.trans hflags
  | ok _ =>
    simp only
    cases (put (b.getOrCreateTopic msg.topic).1).1 with
    | none => exact hset
    | some msg' => exact hset.of_eq rfl rfl rfl

theorem flags_runPublish (t : Topic) (msg : Message) (front : Bool) :
    (t.runPublish msg front).2.flags = t.flags := by
  rw [Topic.runPublish]
  split
  · rfl
  · exact t.flags_push msg front

private theorem publishBatchLoop {topicName : Bytes} : ∀ {batch : List Message} {count : ℕ}
    {b : Broker}
    {r : ℕ × Broker}, publishBatchLoop c topicName batch count b = some r → b.SameFlags r.2 := by
  intro batch
  induction batch with
  | nil =>
    intro count b r h
    rw [← Option.some_inj.mp h]
    exact refl b
  | cons msg batch ih =>
    intro count b r h
    rw [Broker.publishBatchLoop, Option.bind_eq_some_iff] at h
    obtain ⟨⟨err, b'⟩, hlog, h⟩ := h
    obtain ⟨hfound, hlookup⟩ := getOrCreateTopic b' topicName
    have hset := setTopic hlookup
      (flags_runPublish (b'.getOrCreateTopic topicName).1 msg false)
    exact (((logPublish hlog).1.trans hfound).trans hset).trans (ih h)

private theorem publishBatch {topicName : Bytes} {payloads : List (Option Bytes × Stamp)}
    {r : ℕ × Broker} (h : b.publishBatch c topicName payloads = some r) : b.SameFlags r.2 := by
  rw [Broker.publishBatch] at h
  split at h
  · rw [← Option.some_inj.mp h]
    exact refl b
  · rw [Option.map_eq_some_iff] at h
    obtain ⟨r', hloop, rfl⟩ := h
    exact ((getOrCreateTopic b topicName).1.trans (publishBatchLoop hloop)).of_eq rfl rfl rfl

private theorem consume {topicName : Bytes} {timeout : ℤ} {r : Option Message × Broker}
    (h : b.consume topicName timeout = some r) : b.SameFlags r.2 := by
  rw [Broker.consume] at h
  split at h
  · rw [← Option.some_inj.mp h]
    exact refl b
  · rename_i t hlookup
    rw [Option.map_eq_some_iff] at h
    obtain ⟨⟨m, t'⟩, hrun, rfl⟩ := h
    cases m with
    | none => exact refl b
    | some m => exact (setTopic hlookup (Topic.flags_runConsumeWait hrun)).of_eq rfl rfl rfl

private theorem consumeGroup {topicName groupName consumerID : Bytes} {timeout now : ℤ}
    {r : Option Message × Broker}
    (h : b.consumeGroup topicName groupName consumerID timeout now = some r) :
    b.SameFlags r.2 := by
  obtain ⟨hfound, hlookup⟩ := getOrCreateTopic b topicName
  unfold Broker.consumeGroup at h
  simp only [Option.map_eq_some_iff] at h
  obtain ⟨⟨m, t'⟩, hrun, rfl⟩ := h
  have hset := hfound.trans (setTopic hlookup (Topic.flags_runConsumeGroup hrun))
  cases m with
  | none => exact hset
  | some m => exact hset.of_eq rfl rfl rfl

private theorem ack {topicName groupName msgID : Bytes} {r : Bool × Broker}
    (h : b.ack topicName groupName msgID = some r) : b.SameFlags r.2 := by
  rw [Broker.ack] at h
  split at h
  · rw [← Option.some_inj.mp h]
    exact refl b
  · rename_i t hlookup
    split at h
    · rw [Option.map_eq_some_iff] at h
      obtain ⟨b', hlog, rfl⟩ := h
      have hset := setTopic hlookup (t.flags_runAck groupName msgID)
      refine SameFlags.trans ?_ (logAck hlog)
      exact hset.of_eq rfl rfl rfl
    · rw [← Option.some_inj.mp h]
      exact refl b

private theorem nack {topicName groupName msgID reason : Bytes} {now : ℤ} {r : Bool × Broker}
    (h : b.nack topicName groupName msgID reason now = some r) : b.SameFlags r.2 := by
  rw [Broker.nack] at h
  split at h
  · rw [← Option.some_inj.mp h]
    exact refl b
  · rename_i t hlookup
    rw [Option.map_eq_some_iff] at h
    obtain ⟨⟨ok, t'⟩, hrun, rfl⟩ := h
    cases ok with
    | false => exact refl b
    | true => exact (setTopic hlookup (Topic.flags_runNack hrun)).of_eq rfl rfl rfl

private theorem replayDLQ (b : Broker) (topicName msgID : Bytes) (now : ℤ) :
    b.SameFlags (b.replayDLQ topicName msgID now).2 := by
  rw [Broker.replayDLQ]
  split
  · exact refl b
  · rename_i t hlookup
    have hflags := t.flags_runReplayDeadLetter msgID now
    rcases hrun : t.runReplayDeadLetter msgID now with ⟨- | m, t'⟩
    · exact refl b
    · rw [hrun] at hflags
      exact setTopic hlookup hflags

private theorem sweepTopics : ∀ {plan : List TopicSweep} {b b' : Broker},
    sweepTopics plan b = some b' → b.SameFlags b' := by
  intro plan
  induction plan with
  | nil => intro b b' h; exact Option.some_inj.mp h ▸ refl b
  | cons s plan ih =>
    intro b b' h
    rw [Broker.sweepTopics, Option.bind_eq_some_iff] at h
    obtain ⟨t, hlookup, h⟩ := h
    rw [Option.bind_eq_some_iff] at h
    obtain ⟨t', hrun, h⟩ := h
    exact (setTopic hlookup (Topic.flags_runSweep hrun)).trans (ih h)

private theorem tick {topicName : Bytes} (h : b.tick topicName = some b') : b.SameFlags b' := by
  rw [Broker.tick, Option.map_eq_some_iff] at h
  obtain ⟨t, hlookup, rfl⟩ := h
  exact setTopic hlookup t.flags_runAdvance

private theorem syncLog (b : Broker) : b.SameFlags b.syncLog := by
  refine ⟨rfl, ?_, fun _ t' ht' ↦ Or.inl ⟨t', ht', rfl⟩⟩
  rw [Broker.syncLog, Option.map_map]
  exact congrArg (b.wal.map ·) (funext Wal.closed_sync)

end SameFlags

end Broker

/-! ## Service and shutdown -/

/-- The broker's operations, and `Close`. -/
inductive ServiceLabel where
  | op (l : BrokerLabel)
  | close

namespace BrokerHistory

variable (c : Codec)

def serviceStep (s : BrokerHistory) : ServiceLabel → Option BrokerHistory
  | .op l => s.step c l
  | .close => some { s with broker := s.broker.close }

/-- A broker as `main` starts it: without a log, or on any log directory. -/
inductive Starts : BrokerHistory → Prop
  | inMemory (now : ℤ) : Starts ⟨Broker.newBroker none now, [], []⟩
  | onLog (dir : Directory) (policy : FsyncPolicy) (now : ℤ) :
      Starts ⟨Broker.boot c dir policy now, [], []⟩

end BrokerHistory

theorem Topic.Accepts.closed_eq {t : Topic} (h : t.Accepts) : t.closed = t.ring.closed :=
  (congrArg Prod.fst h).trans (congrArg Prod.snd h).symm

theorem Topic.closed_eq_of_flags {t t' : Topic} (hflags : t'.flags = t.flags)
    (h : t.closed = t.ring.closed) : t'.closed = t'.ring.closed :=
  (congrArg Prod.fst hflags).trans (h.trans (congrArg Prod.snd hflags).symm)

theorem Topic.closed_runClose {t : Topic} (h : t.closed = t.ring.closed) :
    t.runClose.closed = t.runClose.ring.closed := by
  rw [runClose]
  split
  · exact h
  · rfl

namespace Broker

/-- The flags of one broker agree: its log is closed with it, and each ring with its topic. -/
structure Consistent (b : Broker) : Prop where
  log : b.closed = true → b.wal.map Wal.closed ≠ some false
  topics : ∀ name t, b.topics.lookup name = some t → t.closed = t.ring.closed

variable {b b' : Broker} {c : Codec}

theorem SameFlags.consistent (h : b.SameFlags b') (hb : b.Consistent) : b'.Consistent := by
  refine ⟨fun hclosed ↦ ?_, fun name t' ht' ↦ ?_⟩
  · rw [h.log]
    exact hb.log (h.broker ▸ hclosed)
  · rcases h.topics name t' ht' with ⟨t, ht, hflags⟩ | hopen
    · exact Topic.closed_eq_of_flags hflags (hb.topics name t ht)
    · exact hopen.closed_eq

theorem Consistent.close (hb : b.Consistent) : b.close.Consistent := by
  rw [Broker.close]
  split
  · exact hb
  · refine ⟨fun _ ↦ ?_, fun name t' ht' ↦ ?_⟩
    · cases b.wal with
      | none => simp
      | some w => simp [w.closed_close]
    · have hmem := AList.mem_lookup_iff.mp ht'
      obtain ⟨e, he, heq⟩ := List.mem_map.mp hmem
      cases heq
      exact Topic.closed_runClose (hb.topics e.1 e.2 (AList.mem_lookup_iff.mpr he))

theorem consistent_of_accepts (hclosed : b.closed = false) (h : b.Accepts) : b.Consistent :=
  ⟨fun htrue ↦ absurd (hclosed.symm.trans htrue) Bool.false_ne_true,
    fun name t ht ↦ (h name t ht).closed_eq⟩

theorem consistent_newBroker (wal : Option Wal) (now : ℤ) : (newBroker wal now).Consistent :=
  consistent_of_accepts rfl (accepts_newBroker wal now)

theorem consistent_boot (dir : Directory) (policy : FsyncPolicy) (now : ℤ) :
    (boot c dir policy now).Consistent :=
  consistent_of_accepts wal_foldl_recover.2 (accepts_foldl_recover (accepts_newBroker _ now))

end Broker

namespace BrokerHistory

variable {c : Codec} {s s' : BrokerHistory}

private theorem broker_book (msg : Message) (r : Except Bytes Message × Broker) :
    (s.book msg r).broker = r.2 := by
  rw [book]
  split <;> rfl

private theorem consistent_step {l : BrokerLabel} (hstep : s.step c l = some s')
    (h : s.broker.Consistent) : s'.broker.Consistent := by
  cases l with
  | publish topicName payload st =>
    obtain ⟨r, hr, rfl⟩ := Option.map_eq_some_iff.mp hstep
    rw [broker_book]
    exact (Broker.SameFlags.publishWith (fun t ↦ Broker.SameFlags.flags_runPublish t _ false)
      hr).consistent h
  | publishFront topicName payload st =>
    obtain ⟨r, hr, rfl⟩ := Option.map_eq_some_iff.mp hstep
    rw [broker_book]
    exact (Broker.SameFlags.publishWith (fun t ↦ Broker.SameFlags.flags_runPublish t _ true)
      hr).consistent h
  | publishDelayed topicName payload delay st now =>
    obtain ⟨r, hr, rfl⟩ := Option.map_eq_some_iff.mp hstep
    rw [broker_book]
    exact (Broker.SameFlags.publishWith (fun t ↦ t.flags_publishDelayed _ delay now)
      hr).consistent h
  | publishBatch topicName payloads =>
    obtain ⟨r, hr, rfl⟩ := Option.map_eq_some_iff.mp hstep
    exact (Broker.SameFlags.publishBatch hr).consistent h
  | consume topicName timeout =>
    obtain ⟨r, hr, rfl⟩ := Option.map_eq_some_iff.mp hstep
    exact (Broker.SameFlags.consume hr).consistent h
  | consumeGroup topicName groupName consumerID timeout now =>
    obtain ⟨r, hr, rfl⟩ := Option.map_eq_some_iff.mp hstep
    exact (Broker.SameFlags.consumeGroup hr).consistent h
  | ack topicName groupName msgID =>
    obtain ⟨r, hr, rfl⟩ := Option.map_eq_some_iff.mp hstep
    exact (Broker.SameFlags.ack hr).consistent h
  | nack topicName groupName msgID reason now =>
    obtain ⟨r, hr, rfl⟩ := Option.map_eq_some_iff.mp hstep
    exact (Broker.SameFlags.nack hr).consistent h
  | replayDLQ topicName msgID now =>
    rw [← Option.some_inj.mp hstep]
    exact (Broker.SameFlags.replayDLQ s.broker topicName msgID now).consistent h
  | sweepAllTimeouts plan =>
    obtain ⟨b, hr, rfl⟩ := Option.map_eq_some_iff.mp hstep
    rw [Broker.sweepAllTimeouts, Option.ite_none_right_eq_some] at hr
    exact (Broker.SameFlags.sweepTopics hr.2).consistent h
  | tick topicName =>
    obtain ⟨b, hr, rfl⟩ := Option.map_eq_some_iff.mp hstep
    exact (Broker.SameFlags.tick hr).consistent h
  | syncLog =>
    rw [← Option.some_inj.mp hstep]
    exact (Broker.SameFlags.syncLog s.broker).consistent h
  | restart policy now =>
    rw [← Option.some_inj.mp hstep]
    change (s.broker.restart c policy now).Consistent
    rw [Broker.restart]
    split
    · exact Broker.consistent_boot _ policy now
    · exact Broker.consistent_newBroker none now

private theorem consistent_of_run {s₀ : BrokerHistory} {labels : List ServiceLabel}
    (hstart : Starts c s₀)
    (hrun : Run (serviceStep c) (fun _ ↦ True) s₀ labels s) : s.broker.Consistent := by
  refine hrun.invariant (I := fun s ↦ s.broker.Consistent) ?_ ?_
  · intro u l v _ _ hstep hu
    cases l with
    | op l => exact consistent_step hstep hu
    | close =>
      rw [← Option.some_inj.mp hstep]
      exact hu.close
  · cases hstart with
    | inMemory now => exact Broker.consistent_newBroker none now
    | onLog dir policy now => exact Broker.consistent_boot dir policy now

end BrokerHistory

/-! ## Refusal -/

namespace Broker

/-- The messages in the ring and in the wheel of a topic. -/
def queued (b : Broker) (name : Bytes) : List Message × List Message :=
  match b.topics.lookup name with
  | some t => (t.ring.items, t.tw.messages)
  | none => ([], [])

/-- A publishing operation reports failure, and neither enqueues nor schedules anything. -/
def Refuses (b : Broker) (c : Codec) : BrokerLabel → Prop
  | .publish topicName payload st =>
      ∃ err b', b.publish c topicName payload st = some (.error err, b') ∧ b'.queued = b.queued
  | .publishFront topicName payload st =>
      ∃ err b', b.publishFront c topicName payload st = some (.error err, b') ∧
        b'.queued = b.queued
  | .publishDelayed topicName payload delay st now =>
      ∃ err b', b.publishDelayed c topicName payload delay st now = some (.error err, b') ∧
        b'.queued = b.queued
  | .publishBatch topicName payloads =>
      ∃ b', b.publishBatch c topicName payloads = some (0, b') ∧ b'.queued = b.queued
  | _ => True

/-- There is a topic of this name, and it is closed. -/
def topicClosed (b : Broker) (name : Bytes) : Bool :=
  (b.topics.lookup name).any Topic.closed

/-- What it takes for a closed broker to refuse: a log, or a closed topic. -/
def Shut (b : Broker) : BrokerLabel → Prop
  | .publish topicName _ _ | .publishFront topicName _ _ =>
      b.wal.isSome = true ∨ b.topicClosed topicName = true
  | .publishDelayed _ _ _ _ _ => b.wal.isSome = true
  | .publishBatch topicName payloads => payloads = [] ∨ b.topicClosed topicName = true
  | _ => True

variable {b : Broker} {c : Codec}

theorem queued_setTopic (b : Broker) (name : Bytes) (t : Topic) (name' : Bytes) :
    (b.setTopic name t).queued name'
      = if name' = name then (t.ring.items, t.tw.messages) else b.queued name' := by
  rw [queued, setTopic]
  by_cases h : name' = name
  · subst h
    rw [AList.lookup_insert, if_pos rfl]
  · rw [AList.lookup_insert_ne h, if_neg h, queued]

theorem queued_setTopic_self {name : Bytes} {t : Topic} (ht : b.topics.lookup name = some t) :
    (b.setTopic name t).queued = b.queued := by
  funext name'
  rw [queued_setTopic]
  split
  · rename_i h
    rw [h, queued, ht]
  · rfl

theorem queued_getOrCreateTopic (b : Broker) (name : Bytes) :
    (b.getOrCreateTopic name).2.queued = b.queued := by
  rw [getOrCreateTopic]
  split
  · rfl
  · rename_i hlookup
    funext name'
    rw [queued_setTopic]
    split
    · rename_i h
      have hwheel : (Topic.default name).tw.messages = [] :=
        TimingWheel.messages_newTimingWheel (50 * millisecond) 3600
      rw [h, queued, hlookup, (Topic.ring_default name).2, hwheel]
    · rfl

theorem closed_getOrCreateTopic_fst (b : Broker) (name : Bytes) :
    (b.getOrCreateTopic name).1.closed = b.topicClosed name := by
  rw [getOrCreateTopic, topicClosed]
  cases b.topics.lookup name with
  | none => exact congrArg Prod.fst (Topic.ring_default name).1
  | some t => rfl

theorem logPublish_of_closed (hlog : b.wal.map Wal.closed ≠ some false) (msg : Message) :
    b.logPublish c msg
      = some (if b.wal.isSome then .error Wal.errClosed else .ok (), b) := by
  rw [logPublish]
  cases hwal : b.wal with
  | none => rfl
  | some w =>
    have hw : w.closed = true := by
      rw [hwal, Option.map_some, Ne, Option.some_inj] at hlog
      exact Bool.of_not_eq_false hlog
    have hwrite : w.writePublish c msg = some (.error Wal.errClosed, w) := if_pos hw
    simp only [hwrite, Option.map_some, Option.isSome_some, if_true]
    rw [← hwal]

theorem publishWith_refused_iff (hlog : b.wal.map Wal.closed ≠ some false) {msg : Message}
    {put : Topic → Option Message × Topic}
    (hput : (put (b.getOrCreateTopic msg.topic).1).1 = none →
      (put (b.getOrCreateTopic msg.topic).1).2 = (b.getOrCreateTopic msg.topic).1) :
    (∃ err b', b.publishWith c msg put = some (.error err, b') ∧ b'.queued = b.queued) ↔
      b.wal.isSome = true ∨ (put (b.getOrCreateTopic msg.topic).1).1 = none := by
  obtain ⟨hfound, hlookup⟩ := SameFlags.getOrCreateTopic b msg.topic
  have hqueued := b.queued_getOrCreateTopic msg.topic
  have hlogged := logPublish_of_closed (c := c) (hfound.log ▸ hlog) msg
  rw [b.wal_getOrCreateTopic] at hlogged
  unfold publishWith
  simp only [hlogged, Option.map_some]
  cases hwal : b.wal.isSome with
  | true => simpa using hqueued
  | false =>
    simp only [Bool.false_eq_true, if_false, false_or]
    cases hanswer : (put (b.getOrCreateTopic msg.topic).1).1 with
    | none =>
      rw [hput hanswer]
      have hset := (queued_setTopic_self hlookup).trans hqueued
      simpa using hset
    | some msg' => simp

private theorem putNow_eq_none_iff {t : Topic} (ht : t.closed = t.ring.closed) (msg : Message)
    (front : Bool) : (putNow msg front t).1 = none ↔ t.closed = true := by
  cases hclosed : t.closed with
  | true => simp [putNow, Topic.runPublish, hclosed]
  | false =>
    have haccepts : t.Accepts := Prod.ext hclosed (ht.symm.trans hclosed)
    simp [putNow, (haccepts.runPublish msg front).1]

private theorem putNow_of_closed {t : Topic} (hclosed : t.closed = true) (msg : Message)
    (front : Bool) : (putNow msg front t).2 = t := by
  rw [putNow, Topic.runPublish, if_pos hclosed]

theorem Consistent.getOrCreateTopic (h : b.Consistent) (name : Bytes) :
    (b.getOrCreateTopic name).1.closed = (b.getOrCreateTopic name).1.ring.closed := by
  obtain ⟨hfound, hlookup⟩ := SameFlags.getOrCreateTopic b name
  exact (hfound.consistent h).topics name _ hlookup

theorem Consistent.publish_refused_iff (h : b.Consistent) (hclosed : b.closed = true)
    (msg : Message) (front : Bool) :
    (∃ err b', b.publishWith c msg (putNow msg front) = some (.error err, b') ∧
      b'.queued = b.queued) ↔ b.wal.isSome = true ∨ b.topicClosed msg.topic = true := by
  have hiff := putNow_eq_none_iff (h.getOrCreateTopic msg.topic) msg front
  rw [publishWith_refused_iff (h.log hclosed), hiff, closed_getOrCreateTopic_fst]
  intro hnone
  exact putNow_of_closed (hiff.mp hnone) msg front

theorem Consistent.publishDelayed_refused_iff (h : b.Consistent) (hclosed : b.closed = true)
    (msg : Message) (delay now : ℤ) :
    (∃ err b', b.publishWith c msg (putDelayed msg delay now) = some (.error err, b') ∧
      b'.queued = b.queued) ↔ b.wal.isSome = true := by
  rw [publishWith_refused_iff (h.log hclosed)]
  · simp [putDelayed]
  · intro hnone
    exact absurd hnone (by simp [putDelayed])

/-! ### Batches -/

/-- A closed topic takes nothing from a batch, whatever the log says. -/
theorem publishBatchLoop_of_topicClosed {topicName : Bytes} : ∀ (batch : List Message) (count : ℕ)
    {b : Broker}, b.wal.map Wal.closed ≠ some false → b.topicClosed topicName = true →
    ∃ b', publishBatchLoop c topicName batch count b = some (count, b') ∧ b'.queued = b.queued := by
  intro batch
  induction batch with
  | nil => intro count b _ _; exact ⟨b, rfl, rfl⟩
  | cons msg batch ih =>
    intro count b hlog htopic
    obtain ⟨hfound, hlookup⟩ := SameFlags.getOrCreateTopic b topicName
    have hclosed : (b.getOrCreateTopic topicName).1.closed = true :=
      (closed_getOrCreateTopic_fst b topicName).trans htopic
    have hpush : (b.getOrCreateTopic topicName).1.runPublish msg false
        = (false, (b.getOrCreateTopic topicName).1) := by
      rw [Topic.runPublish, if_pos hclosed]
    -- the topic is stored as it was found
    have hstored : ((b.getOrCreateTopic topicName).2.setTopic topicName
        (b.getOrCreateTopic topicName).1).topicClosed topicName = true := by
      rw [topicClosed, setTopic, AList.lookup_insert]
      exact hclosed
    obtain ⟨b', hloop, hqueued⟩ := ih count (hfound.log ▸ hlog) hstored
    refine ⟨b', ?_, ?_⟩
    · rw [publishBatchLoop, logPublish_of_closed hlog, Option.bind_some]
      simp only [hpush, Bool.false_eq_true, if_false]
      exact hloop
    · rw [hqueued, queued_setTopic_self hlookup, queued_getOrCreateTopic]

private theorem le_publishBatchLoop {topicName : Bytes} : ∀ {batch : List Message} {count : ℕ}
    {b : Broker}
    {r : ℕ × Broker}, publishBatchLoop c topicName batch count b = some r → count ≤ r.1 := by
  intro batch
  induction batch with
  | nil => intro count b r h; rw [← Option.some_inj.mp h]
  | cons msg batch ih =>
    intro count b r h
    rw [publishBatchLoop, Option.bind_eq_some_iff] at h
    obtain ⟨⟨err, b'⟩, -, h⟩ := h
    refine le_trans ?_ (ih h)
    split <;> omega

private theorem publishBatchLoop_pos (h : b.Consistent) {topicName : Bytes} {msg : Message}
    {batch : List Message} {r : ℕ × Broker} (hclosed : b.closed = true)
    (htopic : b.topicClosed topicName = false)
    (hr : publishBatchLoop c topicName (msg :: batch) 0 b = some r) : 0 < r.1 := by
  have haccepts : (b.getOrCreateTopic topicName).1.Accepts := by
    have hfst := (closed_getOrCreateTopic_fst b topicName).trans htopic
    exact Prod.ext hfst ((h.getOrCreateTopic topicName).symm.trans hfst)
  rw [publishBatchLoop, logPublish_of_closed (h.log hclosed), Option.bind_some] at hr
  simp only [(haccepts.runPublish msg false).1, if_true] at hr
  exact le_publishBatchLoop hr

theorem Consistent.publishBatch_refused_iff (h : b.Consistent) (hclosed : b.closed = true)
    (topicName : Bytes) (payloads : List (Option Bytes × Stamp)) :
    (∃ b', b.publishBatch c topicName payloads = some (0, b') ∧ b'.queued = b.queued) ↔
      payloads = [] ∨ b.topicClosed topicName = true := by
  obtain ⟨hfound, hlookup⟩ := SameFlags.getOrCreateTopic b topicName
  have htopic : (b.getOrCreateTopic topicName).2.topicClosed topicName
      = b.topicClosed topicName := by
    rw [topicClosed, hlookup]
    exact closed_getOrCreateTopic_fst b topicName
  rw [publishBatch]
  cases payloads with
  | nil => simp
  | cons p payloads =>
    rw [if_neg (List.cons_ne_nil _ _)]
    constructor
    · rintro ⟨b', hr, -⟩
      refine Or.inr (Bool.of_not_eq_false fun hopen ↦ ?_)
      rw [Option.map_eq_some_iff] at hr
      obtain ⟨r, hloop, heq⟩ := hr
      have hpos := publishBatchLoop_pos (hfound.consistent h) (hfound.broker.trans hclosed)
        (htopic.trans hopen) hloop
      exact hpos.ne' (congrArg Prod.fst heq)
    · rintro (hnil | hshut)
      · exact absurd hnil (List.cons_ne_nil _ _)
      · obtain ⟨b', hloop, hqueued⟩ := publishBatchLoop_of_topicClosed (c := c)
          (batchMessages topicName (p :: payloads)) 0 (hfound.log ▸ h.log hclosed)
          (htopic.trans hshut)
        refine ⟨_, by rw [hloop, Option.map_some], ?_⟩
        exact hqueued.trans (b.queued_getOrCreateTopic topicName)

end Broker

namespace BrokerHistory

variable {c : Codec} {s : BrokerHistory}

/-- **What a closed broker refuses.** In every run of a broker, with or without a log, once `Close`
has returned: `Publish` and `PublishFront` fail if and only if there is a log or the topic exists
and is closed, `PublishDelayed` fails if and only if there is a log, and `PublishBatch` takes
nothing if and only if there is nothing in the batch or the topic exists and is closed. -/
theorem refuses_iff_shut_of_closed {s₀ : BrokerHistory} {labels : List ServiceLabel}
    (hstart : Starts c s₀) (hrun : Run (serviceStep c) (fun _ ↦ True) s₀ labels s)
    (hclosed : s.broker.closed = true) (l : BrokerLabel) :
    s.broker.Refuses c l ↔ s.broker.Shut l := by
  have h := consistent_of_run hstart hrun
  cases l with
  | publish topicName payload st => exact h.publish_refused_iff hclosed (st.message _ _) false
  | publishFront topicName payload st => exact h.publish_refused_iff hclosed (st.message _ _) true
  | publishDelayed topicName payload delay st now =>
    exact h.publishDelayed_refused_iff hclosed (st.message _ _) delay now
  | publishBatch topicName payloads => exact h.publishBatch_refused_iff hclosed topicName payloads
  | consume | consumeGroup | ack | nack | replayDLQ | sweepAllTimeouts | tick | syncLog
  | restart => exact Iff.rfl

/-! ### A broker with a log and one without -/

/-- With a log, even a topic that does not exist yet is refused. -/
theorem refuses_iff_shut_of_closed_withLog :
    ∃ s, Run (serviceStep MessageJson.codec) (fun _ ↦ True) (start MessageJson.codec .always 0)
        [.op (.publish (bytesOf "orders") (some (bytesOf "job")) jobStamp), .close] s ∧
      s.broker.closed = true ∧ s.broker.topicClosed (bytesOf "late") = false ∧
      s.broker.Refuses MessageJson.codec (.publish (bytesOf "late") none jobStamp) := by
  have hsome : (Run.exec (serviceStep MessageJson.codec) (fun _ ↦ True)
      (start MessageJson.codec .always 0)
      [.op (.publish (bytesOf "orders") (some (bytesOf "job")) jobStamp), .close]).isSome := by
    decide +kernel
  have hrun := Run.of_exec (Option.some_get hsome).symm
  have hclosed := hrun.of_exec_map (f := fun s ↦ s.broker.closed) (a := true) (by decide +kernel)
  have hlate := hrun.of_exec_map (f := fun s ↦ s.broker.topicClosed (bytesOf "late")) (a := false)
    (by decide +kernel)
  have hlog := hrun.of_exec_map (f := fun s ↦ s.broker.wal.isSome) (a := true) (by decide +kernel)
  exact ⟨_, hrun, hclosed, hlate,
    (refuses_iff_shut_of_closed (.onLog ∅ .always 0) hrun hclosed _).mpr (Or.inl hlog)⟩

/-- **A closed broker takes a message.** Without a log, the topic is created on demand. -/
theorem closed_broker_accepts :
    ∃ s, Run (serviceStep MessageJson.codec) (fun _ ↦ True) ⟨Broker.newBroker none 0, [], []⟩
        [.close] s ∧
      s.broker.closed = true ∧
      (∃ b', s.broker.publish MessageJson.codec (bytesOf "orders") (some (bytesOf "job")) jobStamp
        = some (.ok job, b') ∧ b'.queued (bytesOf "orders") = ([job], [])) ∧
      ¬s.broker.Refuses MessageJson.codec
        (.publish (bytesOf "orders") (some (bytesOf "job")) jobStamp) := by
  let b := (Broker.newBroker none 0).close
  have hrun : Run (serviceStep MessageJson.codec) (fun _ ↦ True) ⟨Broker.newBroker none 0, [], []⟩
      [.close] ⟨b, [], []⟩ := Run.cons trivial rfl (Run.nil trivial)
  have hresult : (b.publish MessageJson.codec (bytesOf "orders") (some (bytesOf "job"))
      jobStamp).map (fun r ↦ (r.1.toOption, r.2.queued (bytesOf "orders")))
        = some (some job, [job], []) := by decide +kernel
  rw [Option.map_eq_some_iff] at hresult
  obtain ⟨⟨answer, b'⟩, hpublish, heq⟩ := hresult
  rw [Prod.mk.injEq] at heq
  cases answer with
  | error err => exact absurd heq.1 (by simp [Except.toOption])
  | ok msg =>
    obtain rfl : msg = job := Option.some_inj.mp heq.1
    refine ⟨⟨b, [], []⟩, hrun, rfl, ⟨b', hpublish, heq.2⟩, ?_⟩
    rintro ⟨err, b'', hrefused, -⟩
    exact absurd (hpublish.symm.trans hrefused) (by simp)

end BrokerHistory

end VortexMQ
