import VortexMQ.Basic.Run
import VortexMQ.Queue.BrokerLog
import VortexMQ.Wal.MessageJson

/-!
# What a restart brings back

A broker's life, from the first start on an empty directory through any number of operations, timer
ticks and clean restarts, together with two lists that the program does not keep: the messages that
were published, and the identifiers of those that were dealt with.

The log holds exactly the published messages, so the next start puts exactly these into the rings:
`Replay` looks at publications only. Recovery therefore restores the unfinished messages and no
others precisely when nothing has been finished, and a delayed message comes back as if it had not
been delayed.
-/

namespace VortexMQ

/-- The operations of the broker and the ticks of its timers. -/
inductive BrokerLabel where
  | publish (topicName : Bytes) (payload : Option Bytes) (st : Stamp)
  | publishFront (topicName : Bytes) (payload : Option Bytes) (st : Stamp)
  | publishDelayed (topicName : Bytes) (payload : Option Bytes) (delay : ℤ) (st : Stamp) (now : ℤ)
  | publishBatch (topicName : Bytes) (payloads : List (Option Bytes × Stamp))
  | consume (topicName : Bytes) (timeout : ℤ)
  | consumeGroup (topicName groupName consumerID : Bytes) (timeout now : ℤ)
  | ack (topicName groupName msgID : Bytes)
  | nack (topicName groupName msgID reason : Bytes) (now : ℤ)
  | replayDLQ (topicName msgID : Bytes) (now : ℤ)
  | sweepAllTimeouts (plan : List Broker.TopicSweep)
  | tick (topicName : Bytes)
  | syncLog
  /-- `Close`, and the next start. -/
  | restart (policy : FsyncPolicy) (now : ℤ)

/-- A broker and what has happened to its messages. -/
structure BrokerHistory where
  broker : Broker
  /-- As `NewMessage` built them, in the order of publication. -/
  published : List Message
  /-- Identifiers that were acknowledged, consumed by plain `Consume`, or dead-lettered. -/
  retired : List Bytes

namespace BrokerHistory

variable (c : Codec)

/-- The first start, on an empty directory. -/
def start (policy : FsyncPolicy) (now : ℤ) : BrokerHistory := ⟨Broker.boot c ∅ policy now, [], []⟩

/-- Book a publication that was reported as a success. -/
def book (s : BrokerHistory) (msg : Message) (r : Except Bytes Message × Broker) : BrokerHistory :=
  match r.1 with
  | .ok _ => { s with broker := r.2, published := s.published ++ [msg] }
  | .error _ => { s with broker := r.2 }

def retire (s : BrokerHistory) (b : Broker) (ids : List Bytes) : BrokerHistory :=
  { s with broker := b, retired := s.retired ++ ids }

/-- The identifier that `Nack` sends to the dead letter queue. -/
def deadLetteredByNack (b : Broker) (topicName groupName msgID reason : Bytes) : List Bytes :=
  match ((b.getTopic topicName).bind fun t ↦ t.groups.lookup groupName).bind
    fun cg ↦ cg.nackTake msgID with
  | none => []
  | some (msg, _) =>
      if ConsumerGroup.nackRoute (ConsumerGroup.fail msg reason) = some .deadLetter then [msg.id]
      else []

/-- The identifiers that a sweep sends to the dead letter queues. -/
def deadLetteredBySweep (plan : List Broker.TopicSweep) : List Bytes :=
  plan.flatMap fun s ↦ s.plan.flatMap fun g ↦
    (g.order.filter fun msg ↦ ConsumerGroup.sweepRoute
      (ConsumerGroup.fail msg ConsumerGroup.timeoutCause) = .deadLetter).map Message.id

def step (s : BrokerHistory) : BrokerLabel → Option BrokerHistory
  | .publish topicName payload st =>
      (s.broker.publish c topicName payload st).map (s.book (st.message topicName payload))
  | .publishFront topicName payload st =>
      (s.broker.publishFront c topicName payload st).map (s.book (st.message topicName payload))
  | .publishDelayed topicName payload delay st now =>
      (s.broker.publishDelayed c topicName payload delay st now).map
        (s.book (st.message topicName payload))
  | .publishBatch topicName payloads =>
      -- a topic takes all messages of a batch or none of them
      (s.broker.publishBatch c topicName payloads).map fun r ↦
        { s with
          broker := r.2
          published := s.published ++ (Broker.batchMessages topicName payloads).take r.1 }
  | .consume topicName timeout =>
      (s.broker.consume topicName timeout).map fun r ↦ s.retire r.2 (r.1.toList.map Message.id)
  | .consumeGroup topicName groupName consumerID timeout now =>
      (s.broker.consumeGroup topicName groupName consumerID timeout now).map fun r ↦
        s.retire r.2 []
  | .ack topicName groupName msgID =>
      (s.broker.ack topicName groupName msgID).map fun r ↦
        s.retire r.2 (if r.1 then [msgID] else [])
  | .nack topicName groupName msgID reason now =>
      (s.broker.nack topicName groupName msgID reason now).map fun r ↦
        s.retire r.2 (deadLetteredByNack s.broker topicName groupName msgID reason)
  | .replayDLQ topicName msgID now =>
      some (s.retire (s.broker.replayDLQ topicName msgID now).2 [])
  | .sweepAllTimeouts plan =>
      (s.broker.sweepAllTimeouts plan).map fun b ↦ s.retire b (deadLetteredBySweep plan)
  | .tick topicName => (s.broker.tick topicName).map fun b ↦ s.retire b []
  | .syncLog => some (s.retire s.broker.syncLog [])
  | .restart policy now => some (s.retire (s.broker.restart c policy now) [])

/-- Every record fits the log's format, and topic names are UTF-8. -/
def Loggable (_ : BrokerHistory) : BrokerLabel → Prop
  | .publish topicName payload st | .publishFront topicName payload st
  | .publishDelayed topicName payload _ st _ =>
      Utf8 topicName ∧ (Entry.publish (st.message topicName payload)).Short c
  | .publishBatch topicName payloads =>
      Utf8 topicName ∧
        ∀ msg ∈ Broker.batchMessages topicName payloads, (Entry.publish msg).Short c
  | .ack topicName groupName msgID => (Entry.ack topicName groupName msgID).Short c
  | _ => True

/-- The log holds what has been published. -/
def Logged (s : BrokerHistory) : Prop := s.broker.Keeps c s.published

variable {c} {s s' : BrokerHistory}

theorem logged_start (policy : FsyncPolicy) (now : ℤ) : Logged c (start c policy now) :=
  Broker.keeps_boot (Directory.holds_empty c) policy now

private theorem logged_book {msg : Message} {r : Except Bytes Message × Broker}
    (hok : ∃ msg', r.1 = .ok msg') (hkeeps : r.2.Keeps c (s.published ++ [msg])) :
    Logged c (s.book msg r) := by
  obtain ⟨msg', hmsg'⟩ := hok
  rw [book, hmsg']
  exact hkeeps

theorem Logged.step {l : BrokerLabel} (hguard : Loggable c s l) (hstep : s.step c l = some s')
    (h : Logged c s) : Logged c s' := by
  cases l with
  | publish topicName payload st =>
    obtain ⟨r, hr, rfl⟩ := Option.map_eq_some_iff.mp hstep
    obtain ⟨hok, hkeeps⟩ := h.publish hguard.2 hguard.1 hr
    exact logged_book hok hkeeps
  | publishFront topicName payload st =>
    obtain ⟨r, hr, rfl⟩ := Option.map_eq_some_iff.mp hstep
    obtain ⟨hok, hkeeps⟩ := h.publish hguard.2 hguard.1 hr
    exact logged_book hok hkeeps
  | publishDelayed topicName payload delay st now =>
    obtain ⟨r, hr, rfl⟩ := Option.map_eq_some_iff.mp hstep
    obtain ⟨hok, hkeeps⟩ := h.publishDelayed hguard.2 hguard.1 hr
    exact logged_book hok hkeeps
  | publishBatch topicName payloads =>
    obtain ⟨⟨count, b⟩, hr, rfl⟩ := Option.map_eq_some_iff.mp hstep
    obtain ⟨hcount, hkeeps⟩ := h.publishBatch hguard.1 hguard.2 hr
    have htake : (Broker.batchMessages topicName payloads).take count
        = Broker.batchMessages topicName payloads :=
      List.take_of_length_le (by rw [Broker.batchMessages, List.length_map]; exact hcount.ge)
    rw [Logged]
    simp only [htake]
    exact hkeeps
  | consume topicName timeout =>
    obtain ⟨r, hr, rfl⟩ := Option.map_eq_some_iff.mp hstep
    exact Broker.Keeps.consume h hr
  | consumeGroup topicName groupName consumerID timeout now =>
    obtain ⟨r, hr, rfl⟩ := Option.map_eq_some_iff.mp hstep
    exact Broker.Keeps.consumeGroup h hr
  | ack topicName groupName msgID =>
    obtain ⟨r, hr, rfl⟩ := Option.map_eq_some_iff.mp hstep
    exact Broker.Keeps.ack h hguard hr
  | nack topicName groupName msgID reason now =>
    obtain ⟨r, hr, rfl⟩ := Option.map_eq_some_iff.mp hstep
    exact Broker.Keeps.nack h hr
  | replayDLQ topicName msgID now =>
    rw [← Option.some_inj.mp hstep]
    exact Broker.Keeps.replayDLQ h topicName msgID now
  | sweepAllTimeouts plan =>
    obtain ⟨b, hr, rfl⟩ := Option.map_eq_some_iff.mp hstep
    exact Broker.Keeps.sweepAllTimeouts h hr
  | tick topicName =>
    obtain ⟨b, hr, rfl⟩ := Option.map_eq_some_iff.mp hstep
    exact Broker.Keeps.tick h hr
  | syncLog =>
    rw [← Option.some_inj.mp hstep]
    exact Broker.Keeps.syncLog h
  | restart policy now =>
    obtain ⟨dir, hholds, hrestart⟩ := Broker.Keeps.restart h policy now
    rw [← Option.some_inj.mp hstep]
    change (s.broker.restart c policy now).Keeps c s.published
    rw [hrestart]
    exact Broker.keeps_boot hholds policy now

/-- In every run of loggable steps the log holds what has been published. -/
theorem logged_of_run {policy : FsyncPolicy} {now : ℤ} {labels : List BrokerLabel}
    (hrun : Run (step c) (fun _ ↦ True) (start c policy now) labels s)
    (hguard : Run.Guarded (step c) (Loggable c) (start c policy now) labels) : Logged c s :=
  hrun.invariant_of_guarded (fun _ _ _ hg hs h ↦ h.step hg hs) hguard (logged_start policy now)

/-! ## Recovery -/

/-- No topic has published more than a ring can hold. -/
def Fits (s : BrokerHistory) : Prop :=
  ∀ name, (s.published.filter fun m ↦ m.topic = name).length ≤ saturationCapacity.toNat

/-- After a restart each ring holds exactly the published messages of its topic. -/
theorem Logged.ringItems_restart_perm (h : Logged c s) (hfits : s.Fits) (policy : FsyncPolicy)
    (now : ℤ) (name : Bytes) :
    ((s.broker.restart c policy now).ringItems name).Perm
      (s.published.filter fun m ↦ m.topic = name) := by
  obtain ⟨dir, hholds, hrestart⟩ := Broker.Keeps.restart h policy now
  rw [hrestart]
  exact Broker.ringItems_boot_perm hholds policy now hfits name

theorem Logged.mem_ringItems_restart (h : Logged c s) (hfits : s.Fits) (policy : FsyncPolicy)
    (now : ℤ) (name : Bytes) {m : Message} :
    m ∈ (s.broker.restart c policy now).ringItems name ↔ m ∈ s.published ∧ m.topic = name := by
  rw [(h.ringItems_restart_perm hfits policy now name).mem_iff, List.mem_filter, decide_eq_true_iff]

/-- What recovery is for: nothing that was finished comes back, and everything else does. -/
structure RestoresUnfinished (s : BrokerHistory) (b : Broker) : Prop where
  finished : ∀ id ∈ s.retired, ∀ name, ∀ m ∈ b.ringItems name, m.id ≠ id
  unfinished : ∀ m ∈ s.published, m.id ∉ s.retired → ∃ name, m ∈ b.ringItems name

/-- **Recovery restores everything.** In every run of loggable steps that leaves no topic with more
messages than a ring can hold, a clean restart restores exactly the unfinished messages if and only
if no published message was acknowledged, consumed or dead-lettered. -/
theorem restoresUnfinished_restart_iff {policy policy' : FsyncPolicy} {now now' : ℤ}
    {labels : List BrokerLabel}
    (hrun : Run (step c) (fun _ ↦ True) (start c policy now) labels s)
    (hguard : Run.Guarded (step c) (Loggable c) (start c policy now) labels) (hfits : s.Fits) :
    RestoresUnfinished s (s.broker.restart c policy' now') ↔
      ∀ m ∈ s.published, m.id ∉ s.retired := by
  have hlogged := logged_of_run hrun hguard
  constructor
  · intro h m hm hretired
    have hring : m ∈ (s.broker.restart c policy' now').ringItems m.topic :=
      (hlogged.mem_ringItems_restart hfits policy' now' _).mpr ⟨hm, rfl⟩
    exact h.finished m.id hretired m.topic m hring rfl
  · intro h
    refine ⟨fun id hid name m hm hmid ↦ ?_, fun m hm _ ↦ ⟨m.topic, ?_⟩⟩
    · have hpublished := ((hlogged.mem_ringItems_restart hfits policy' now' _).mp hm).1
      exact h m hpublished (hmid ▸ hid)
    · exact (hlogged.mem_ringItems_restart hfits policy' now' _).mpr ⟨hm, rfl⟩

/-! ## Delays -/

/-- What a delay is for, seen from the next start at time `now`: a message that is due later is not
in the ring, and whatever has come back of it, in the ring or in the wheel, is due as before. -/
structure DelaySurvives (b : Broker) (msg : Message) (due now : ℤ) : Prop where
  waits : now < due → ∀ m ∈ b.ringItems msg.topic, m.id ≠ msg.id
  deliverAt : ∀ t, b.getTopic msg.topic = some t →
    ∀ m ∈ t.ring.items ++ t.tw.messages, m.id = msg.id → m.deliverAt = due

private theorem published_subset_book (msg : Message) (r : Except Bytes Message × Broker) :
    s.published ⊆ (s.book msg r).published := by
  rw [book]
  split
  · exact List.subset_append_left _ _
  · exact List.Subset.refl _

private theorem published_subset {l : BrokerLabel} (hstep : s.step c l = some s') :
    s.published ⊆ s'.published := by
  cases l with
  | publish | publishFront | publishDelayed =>
    obtain ⟨r, -, rfl⟩ := Option.map_eq_some_iff.mp hstep
    exact published_subset_book _ r
  | publishBatch =>
    obtain ⟨r, -, rfl⟩ := Option.map_eq_some_iff.mp hstep
    exact List.subset_append_left _ _
  | consume | consumeGroup | ack | nack | sweepAllTimeouts | tick =>
    obtain ⟨r, -, rfl⟩ := Option.map_eq_some_iff.mp hstep
    exact List.Subset.refl _
  | replayDLQ | syncLog | restart =>
    rw [← Option.some_inj.mp hstep]
    exact List.Subset.refl _

private theorem mem_published_of_publishDelayed {topicName : Bytes} {payload : Option Bytes}
    {delay now : ℤ} {st : Stamp} (h : Logged c s)
    (hguard : Loggable c s (.publishDelayed topicName payload delay st now))
    (hstep : s.step c (.publishDelayed topicName payload delay st now) = some s') :
    st.message topicName payload ∈ s'.published := by
  obtain ⟨r, hr, rfl⟩ := Option.map_eq_some_iff.mp hstep
  obtain ⟨⟨msg', hmsg'⟩, -⟩ := h.publishDelayed hguard.2 hguard.1 hr
  rw [book, hmsg']
  exact List.mem_append_right _ (List.mem_singleton.mpr rfl)

/-- What a run of loggable steps was asked to delay is among the publications. -/
theorem mem_published_of_mem {topicName : Bytes} {payload : Option Bytes} {delay now : ℤ}
    {st : Stamp} {labels : List BrokerLabel} (hrun : Run (step c) (fun _ ↦ True) s labels s') :
    Logged c s → Run.Guarded (step c) (Loggable c) s labels →
      .publishDelayed topicName payload delay st now ∈ labels →
      st.message topicName payload ∈ s'.published := by
  induction hrun with
  | nil _ => intro _ _ hmem; exact absurd hmem List.not_mem_nil
  | @cons s u s' l labels _ hstep hrest ih =>
    intro hlogged hguard hmem
    have hlogged' := hlogged.step hguard.1 hstep
    rcases List.mem_cons.mp hmem with rfl | hmem
    · have hsub : u.published ⊆ s'.published :=
        hrest.invariant (I := fun v ↦ u.published ⊆ v.published)
          (fun _ _ _ _ _ hs hsub ↦ List.Subset.trans hsub (published_subset hs))
          (List.Subset.refl _)
      exact hsub (mem_published_of_publishDelayed hlogged hguard.1 hstep)
    · exact ih hlogged' (hguard.2 u hstep) hmem

/-- **No delay survives a restart.** The record is written before the topic sets `DeliverAt`, and
recovery pushes what it reads. Whenever `PublishDelayed` has succeeded with a positive delay, at a
time `t` not before the message was made, the next start puts the message into the ring at once,
with the time of its creation as `DeliverAt`. -/
theorem not_delaySurvives_restart {policy policy' : FsyncPolicy} {now now' : ℤ}
    {labels : List BrokerLabel}
    (hrun : Run (step c) (fun _ ↦ True) (start c policy now) labels s)
    (hguard : Run.Guarded (step c) (Loggable c) (start c policy now) labels) (hfits : s.Fits)
    {topicName : Bytes} {payload : Option Bytes} {delay t₁ t : ℤ} {st : Stamp}
    (hmem : .publishDelayed topicName payload delay st t₁ ∈ labels) (hdelay : 0 < delay)
    (ht : st.now ≤ t) :
    st.message topicName payload ∈ (s.broker.restart c policy' now').ringItems topicName ∧
      ¬DelaySurvives (s.broker.restart c policy' now') (st.message topicName payload) (t + delay)
        now' := by
  have hpublished := mem_published_of_mem hrun (logged_start policy now) hguard hmem
  have hring : st.message topicName payload
      ∈ (s.broker.restart c policy' now').ringItems topicName :=
    ((logged_of_run hrun hguard).mem_ringItems_restart hfits policy' now' topicName).mpr
      ⟨hpublished, rfl⟩
  refine ⟨hring, fun h ↦ ?_⟩
  cases hlookup : (s.broker.restart c policy' now').getTopic topicName with
  | none =>
    rw [Broker.ringItems, show AList.lookup topicName _ = _ from hlookup] at hring
    exact absurd hring List.not_mem_nil
  | some topic =>
    rw [Broker.ringItems, show AList.lookup topicName _ = _ from hlookup] at hring
    have hdue : st.now = t + delay :=
      h.deliverAt topic hlookup _ (List.mem_append_left _ hring) rfl
    omega

/-! ### A job from publication to acknowledgment -/

def jobStamp : Stamp := ⟨0, 1, [171, 205], int64Range_zero⟩

def job : Message := jobStamp.message (bytesOf "orders") (some (bytesOf "job"))

/-- A job is published and checked out. -/
def jobInHand : List BrokerLabel :=
  [.publish (bytesOf "orders") (some (bytesOf "job")) jobStamp,
    .consumeGroup (bytesOf "orders") (bytesOf "workers") (bytesOf "w1") 0 0]

def jobDone : List BrokerLabel :=
  jobInHand ++ [.ack (bytesOf "orders") (bytesOf "workers") job.id]

theorem loggable_jobDone : ∀ l ∈ jobDone, ∀ s, Loggable MessageJson.codec s l := by
  intro l hl s
  simp only [jobDone, jobInHand, List.cons_append, List.nil_append, List.mem_cons, List.not_mem_nil,
    or_false] at hl
  rcases hl with rfl | rfl | rfl
  · exact ⟨utf8_bytesOf _, Entry.short_publish (by decide +kernel)⟩
  · trivial
  · change (Entry.payload _ _).length < _
    decide +kernel

theorem fits_of_published {s : BrokerHistory} (h : s.published = [job]) : s.Fits := by
  intro name
  refine (List.length_filter_le _ _).trans ?_
  rw [h]
  decide

/-- A job in the hands of a worker comes back. -/
theorem restoresUnfinished_restart_iff_jobInHand :
    ∃ s, Run (step MessageJson.codec) (fun _ ↦ True) (start MessageJson.codec .always 0)
        jobInHand s ∧
      s.published = [job] ∧
      RestoresUnfinished s (s.broker.restart MessageJson.codec .always 1) := by
  have hsome : (Run.exec (step MessageJson.codec) (fun _ ↦ True)
      (start MessageJson.codec .always 0) jobInHand).isSome := by decide +kernel
  have hrun := Run.of_exec (Option.some_get hsome).symm
  have hpublished := hrun.of_exec_map (f := BrokerHistory.published) (a := [job])
    (by decide +kernel)
  have hretired := hrun.of_exec_map (f := BrokerHistory.retired) (a := []) (by decide +kernel)
  have hguard : Run.Guarded (step MessageJson.codec) (Loggable MessageJson.codec)
      (start MessageJson.codec .always 0) jobInHand :=
    Run.guarded_of_forall fun l hl ↦ loggable_jobDone l (List.mem_append_left _ hl)
  refine ⟨_, hrun, hpublished, ?_⟩
  refine (restoresUnfinished_restart_iff hrun hguard (fits_of_published hpublished)).mpr ?_
  intro m _
  rw [hretired]
  exact List.not_mem_nil

/-- **An acknowledged job comes back.** -/
theorem acknowledged_job_restored :
    ∃ s, Run (step MessageJson.codec) (fun _ ↦ True) (start MessageJson.codec .always 0) jobDone s ∧
      s.published = [job] ∧ s.retired = [job.id] ∧
      job ∈ (s.broker.restart MessageJson.codec .always 1).ringItems (bytesOf "orders") ∧
      ¬RestoresUnfinished s (s.broker.restart MessageJson.codec .always 1) := by
  have hsome : (Run.exec (step MessageJson.codec) (fun _ ↦ True)
      (start MessageJson.codec .always 0) jobDone).isSome := by decide +kernel
  have hrun := Run.of_exec (Option.some_get hsome).symm
  have hpublished := hrun.of_exec_map (f := BrokerHistory.published) (a := [job])
    (by decide +kernel)
  have hretired := hrun.of_exec_map (f := BrokerHistory.retired) (a := [job.id])
    (by decide +kernel)
  have hlogged := logged_of_run hrun (Run.guarded_of_forall loggable_jobDone)
  have hring := (hlogged.mem_ringItems_restart (fits_of_published hpublished) .always 1
    (bytesOf "orders")).mpr ⟨hpublished ▸ List.mem_singleton.mpr rfl, rfl⟩
  refine ⟨_, hrun, hpublished, hretired, hring, fun h ↦ ?_⟩
  exact h.finished job.id (hretired ▸ List.mem_singleton.mpr rfl) _ job hring rfl

/-! ### A job for later -/

def jobForLater : List BrokerLabel :=
  [.publishDelayed (bytesOf "orders") (some (bytesOf "job")) (3600 * second) jobStamp 0]

theorem loggable_jobForLater : ∀ l ∈ jobForLater, ∀ s, Loggable MessageJson.codec s l := by
  intro l hl s
  obtain rfl := List.mem_singleton.mp hl
  exact ⟨utf8_bytesOf _, Entry.short_publish (by decide +kernel)⟩

/-- The job is in the ring after a restart one second later. -/
theorem not_delaySurvives_restart_jobForLater :
    ∃ s, Run (step MessageJson.codec) (fun _ ↦ True) (start MessageJson.codec .always 0)
        jobForLater s ∧
      job ∈ (s.broker.restart MessageJson.codec .always second).ringItems (bytesOf "orders") ∧
      ¬DelaySurvives (s.broker.restart MessageJson.codec .always second) job (0 + 3600 * second)
        second := by
  have hsome : (Run.exec (step MessageJson.codec) (fun _ ↦ True)
      (start MessageJson.codec .always 0) jobForLater).isSome := by decide +kernel
  have hrun := Run.of_exec (Option.some_get hsome).symm
  have hpublished := hrun.of_exec_map (f := BrokerHistory.published) (a := [job])
    (by decide +kernel)
  exact ⟨_, hrun, not_delaySurvives_restart hrun (Run.guarded_of_forall loggable_jobForLater)
    (fits_of_published hpublished) List.mem_cons_self (by decide) (by decide)⟩

/-- **An hour's delay is lost.** Before the restart the job waits in the wheel and is due in an
hour; one second later it is in the ring, due since it was made. -/
theorem delayed_job_recovered_at_once :
    ∃ s, Run (step MessageJson.codec) (fun _ ↦ True) (start MessageJson.codec .always 0)
        jobForLater s ∧
      s.broker.ringItems (bytesOf "orders") = [] ∧
      (s.broker.getTopic (bytesOf "orders")).map (fun t ↦ t.tw.messages.map Message.deliverAt)
        = some [3600 * second] ∧
      job ∈ (s.broker.restart MessageJson.codec .always second).ringItems (bytesOf "orders") ∧
      job.deliverAt = 0 := by
  have hsome : (Run.exec (step MessageJson.codec) (fun _ ↦ True)
      (start MessageJson.codec .always 0) jobForLater).isSome := by decide +kernel
  have hrun := Run.of_exec (Option.some_get hsome).symm
  have hpublished := hrun.of_exec_map (f := BrokerHistory.published) (a := [job])
    (by decide +kernel)
  have hring := hrun.of_exec_map (f := fun s ↦ s.broker.ringItems (bytesOf "orders")) (a := [])
    (by decide +kernel)
  have hwheel := hrun.of_exec_map (f := fun s ↦ (s.broker.getTopic (bytesOf "orders")).map
    (fun t ↦ t.tw.messages.map Message.deliverAt)) (a := some [3600 * second]) (by decide +kernel)
  have hlogged := logged_of_run hrun (Run.guarded_of_forall loggable_jobForLater)
  refine ⟨_, hrun, hring, hwheel, ?_, rfl⟩
  exact (hlogged.mem_ringItems_restart (fits_of_published hpublished) .always second
    (bytesOf "orders")).mpr ⟨hpublished ▸ List.mem_singleton.mpr rfl, rfl⟩

end BrokerHistory

end VortexMQ
