import VortexMQ.Queue.BrokerLog
import VortexMQ.Wal.MessageJson

/-!
# Publishing over any log

The broker writes to its log through an interface, and what an implementation reports for each
record is its own affair. Here the calls that publish are run over an arbitrary implementation, so
that any record may fail, whatever has become of the others.

Every call writes its record before it turns to the topic, and no call skips the write. So the same
records are written, and the same of them fail, whether some payloads are published one by one or
as a batch; the two differ in what they do about a failure.
-/

namespace VortexMQ

/-- The interface `BrokerWAL`, as far as publishing goes: what `WritePublish` returns, and the state
that it leaves. A panic is `none`. -/
structure BrokerWAL (σ : Type) where
  writePublish : σ → Message → Option (Except Bytes Unit × σ)

/-- A broker that writes to such a log, and the state of the log. -/
structure Logged (σ : Type) where
  broker : Broker
  log : σ

namespace BrokerWAL

variable {σ : Type} (W : BrokerWAL σ)

/-- The records of some messages, one after the other. -/
def writes : List Message → σ → Option (List (Except Bytes Unit) × σ)
  | [], log => some ([], log)
  | msg :: msgs, log =>
      (W.writePublish log msg).bind fun r ↦
        (writes msgs r.2).map fun rs ↦ (r.1 :: rs.1, rs.2)

/-- `Publish` and, with `front`, `PublishFront`. -/
def publish (front : Bool) (topicName : Bytes) (payload : Option Bytes) (st : Stamp)
    (s : Logged σ) : Option (Except Bytes Message × Logged σ) :=
  let msg := st.message topicName payload
  let found := s.broker.getOrCreateTopic topicName
  (W.writePublish s.log msg).map fun r ↦
    match r.1 with
    | .error err => (.error err, ⟨found.2, r.2⟩)
    | .ok _ =>
        let pushed := found.1.runPublish msg front
        let b := found.2.setTopic topicName pushed.2
        if pushed.1 then (.ok msg, ⟨{ b with totalPublished := b.totalPublished + 1 }, r.2⟩)
        else (.error Broker.errRejected, ⟨b, r.2⟩)

/-- A call for each payload, in order, and what the calls return. -/
def publishEach (front : Bool) (topicName : Bytes) : List (Option Bytes × Stamp) → Logged σ →
    Option (List (Except Bytes Message) × Logged σ)
  | [], s => some ([], s)
  | p :: payloads, s =>
      (W.publish front topicName p.1 p.2 s).bind fun r ↦
        (publishEach front topicName payloads r.2).map fun rs ↦ (r.1 :: rs.1, rs.2)

/-- The loop of `PublishBatch`: errors of the log are ignored. -/
def publishBatchLoop (topicName : Bytes) : List Message → ℕ → Logged σ → Option (ℕ × Logged σ)
  | [], count, s => some (count, s)
  | msg :: msgs, count, s =>
      (W.writePublish s.log msg).bind fun r ↦
        let found := s.broker.getOrCreateTopic topicName
        let pushed := found.1.runPublish msg false
        publishBatchLoop topicName msgs (if pushed.1 then count + 1 else count)
          ⟨found.2.setTopic topicName pushed.2, r.2⟩

def publishBatch (topicName : Bytes) (payloads : List (Option Bytes × Stamp)) (s : Logged σ) :
    Option (ℕ × Logged σ) :=
  if payloads = [] then some (0, s)
  else
    (W.publishBatchLoop topicName (Broker.batchMessages topicName payloads) 0
      ⟨(s.broker.getOrCreateTopic topicName).2, s.log⟩).map fun r ↦
        (r.1, ⟨{ r.2.broker with
          totalPublished := r.2.broker.totalPublished + UInt64.ofNat r.1 }, r.2.log⟩)

end BrokerWAL

/-! ## The log of the repository -/

/-- The log in `internal/wal`, or none at all. -/
def Wal.writer (c : Codec) : BrokerWAL (Option Wal) where
  writePublish
    | none, _ => some (.ok (), none)
    | some w, msg => (w.writePublish c msg).map fun r ↦ (r.1, some r.2)

/-- The broker with its log in place. -/
def Logged.toBroker (s : Logged (Option Wal)) : Broker := { s.broker with wal := s.log }

namespace Logged

variable (c : Codec) (s : Logged (Option Wal))

theorem getOrCreateTopic_toBroker (name : Bytes) :
    s.toBroker.getOrCreateTopic name
      = ((s.broker.getOrCreateTopic name).1,
          toBroker ⟨(s.broker.getOrCreateTopic name).2, s.log⟩) := by
  rw [Broker.getOrCreateTopic, Broker.getOrCreateTopic, toBroker]
  cases s.broker.topics.lookup name with
  | none => rfl
  | some t => rfl

theorem logPublish_toBroker (msg : Message) :
    s.toBroker.logPublish c msg = ((Wal.writer c).writePublish s.log msg).map fun r ↦
      (r.1, toBroker ⟨s.broker, r.2⟩) := by
  obtain ⟨b, log⟩ := s
  cases log with
  | none => rfl
  | some w =>
    change (w.writePublish c msg).map _ = ((w.writePublish c msg).map _).map _
    rw [Option.map_map]
    rfl

private theorem publishWith_toBroker (topicName : Bytes) (payload : Option Bytes) (st : Stamp)
    (front : Bool) :
    s.toBroker.publishWith c (st.message topicName payload)
        (Broker.putNow (st.message topicName payload) front)
      = ((Wal.writer c).publish front topicName payload st s).map fun r ↦ (r.1, r.2.toBroker) := by
  have htopic : (st.message topicName payload).topic = topicName := rfl
  rw [Broker.publishWith, htopic, getOrCreateTopic_toBroker]
  simp only [logPublish_toBroker, BrokerWAL.publish, Option.map_map]
  refine congrArg (Option.map · _) (funext fun r ↦ ?_)
  obtain ⟨outcome, log⟩ := r
  cases outcome with
  | error err => rfl
  | ok _ =>
    simp only [Function.comp_apply, Broker.putNow]
    cases ((s.broker.getOrCreateTopic topicName).1.runPublish (st.message topicName payload)
      front).1 with
    | false => rfl
    | true => rfl

theorem publish_toBroker (topicName : Bytes) (payload : Option Bytes) (st : Stamp)
    (front : Bool) :
    (if front then s.toBroker.publishFront c topicName payload st
      else s.toBroker.publish c topicName payload st)
      = ((Wal.writer c).publish front topicName payload st s).map fun r ↦ (r.1, r.2.toBroker) := by
  cases front with
  | false => exact s.publishWith_toBroker c topicName payload st false
  | true => exact s.publishWith_toBroker c topicName payload st true

private theorem publishBatchLoop_toBroker (topicName : Bytes) : ∀ (msgs : List Message) (count : ℕ)
    (s : Logged (Option Wal)), Broker.publishBatchLoop c topicName msgs count s.toBroker
      = ((Wal.writer c).publishBatchLoop topicName msgs count s).map fun r ↦
          (r.1, r.2.toBroker) := by
  intro msgs
  induction msgs with
  | nil => intro count s; rfl
  | cons msg msgs ih =>
    intro count s
    rw [Broker.publishBatchLoop, BrokerWAL.publishBatchLoop, logPublish_toBroker,
      Option.map_bind, Option.bind_map]
    refine Option.bind_congr fun r _ ↦ ?_
    simp only [Function.comp_apply, getOrCreateTopic_toBroker]
    exact ih _ ⟨(s.broker.getOrCreateTopic topicName).2.setTopic topicName
      ((s.broker.getOrCreateTopic topicName).1.runPublish msg false).2, r.2⟩

theorem publishBatch_toBroker (topicName : Bytes) (payloads : List (Option Bytes × Stamp)) :
    s.toBroker.publishBatch c topicName payloads
      = ((Wal.writer c).publishBatch topicName payloads s).map fun r ↦ (r.1, r.2.toBroker) := by
  rw [Broker.publishBatch, BrokerWAL.publishBatch]
  split
  · rfl
  · rw [getOrCreateTopic_toBroker, publishBatchLoop_toBroker, Option.map_map, Option.map_map]
    rfl

end Logged

/-! ## What becomes of the broker -/

namespace Topic

variable {t : Topic}

instance (t : Topic) : Decidable t.Accepts := inferInstanceAs (Decidable (_ = _))

theorem runPublish_of_not_accepts (h : ¬t.Accepts) (msg : Message) (front : Bool) :
    t.runPublish msg front = (false, t) := by
  rw [runPublish]
  split
  · rfl
  · rename_i hclosed
    have hring : t.ring.closed = true := by
      by_contra hopen
      exact h (Prod.ext (Bool.eq_false_of_not_eq_true hclosed) (Bool.eq_false_of_not_eq_true hopen))
    exact push_of_closed hring msg front

theorem runPublish_fst (t : Topic) (msg : Message) (front : Bool) :
    (t.runPublish msg front).1 = decide t.Accepts := by
  by_cases h : t.Accepts
  · rw [(h.runPublish msg front).1, decide_eq_true h]
  · rw [runPublish_of_not_accepts h, decide_eq_false h]

theorem accepts_runPublish (t : Topic) (msg : Message) (front : Bool) :
    (t.runPublish msg front).2.Accepts ↔ t.Accepts := by
  by_cases h : t.Accepts
  · exact iff_of_true (h.runPublish msg front).2 h
  · rw [runPublish_of_not_accepts h]

/-- Push messages, one after the other. -/
def pushes (front : Bool) (t : Topic) (msgs : List Message) : Topic :=
  msgs.foldl (fun t msg ↦ (t.runPublish msg front).2) t

private theorem accepts_pushes (front : Bool) : ∀ (msgs : List Message) (t : Topic),
    (t.pushes front msgs).Accepts ↔ t.Accepts := by
  intro msgs
  induction msgs with
  | nil => intro t; exact Iff.rfl
  | cons msg msgs ih =>
    intro t
    exact (ih (t.runPublish msg front).2).trans (t.accepts_runPublish msg front)

private theorem pushes_of_not_accepts (h : ¬t.Accepts) (front : Bool) (msgs : List Message) :
    t.pushes front msgs = t := by
  induction msgs with
  | nil => rfl
  | cons msg msgs ih => rw [pushes, List.foldl_cons, runPublish_of_not_accepts h, ← pushes, ih]

end Topic

namespace Broker

/-- The two brokers have the same topics, and agree in everything else. -/
structure Alike (b b' : Broker) : Prop where
  topics : ∀ name, b.topics.lookup name = b'.topics.lookup name
  rest : ({ b with topics := ∅ } : Broker) = { b' with topics := ∅ }

/-- One topic is another one now, and so many messages have been counted. -/
structure Becomes (b : Broker) (topicName : Bytes) (t : Topic) (n : ℕ) (b' : Broker) : Prop where
  topics : ∀ name,
    b'.topics.lookup name = if name = topicName then some t else b.topics.lookup name
  rest : ({ b' with topics := ∅ } : Broker)
    = { b with topics := ∅, totalPublished := b.totalPublished + UInt64.ofNat n }

variable {b b' b'' : Broker} {topicName : Bytes} {t t' : Topic} {n : ℕ}

theorem Becomes.alike (h : b.Becomes topicName t n b') (h' : b.Becomes topicName t n b'') :
    b'.Alike b'' :=
  ⟨fun name ↦ (h.topics name).trans (h'.topics name).symm, h.rest.trans h'.rest.symm⟩

theorem becomes_getOrCreateTopic (b : Broker) (topicName : Bytes) :
    b.Becomes topicName (b.getOrCreateTopic topicName).1 0 (b.getOrCreateTopic topicName).2 := by
  have hrest : ({ b with topics := ∅ } : Broker)
      = { b with topics := ∅, totalPublished := b.totalPublished + UInt64.ofNat 0 } := by
    rw [show UInt64.ofNat 0 = 0 from rfl, UInt64.add_zero]
  cases hlookup : b.topics.lookup topicName with
  | some t =>
    have hfound : b.getOrCreateTopic topicName = (t, b) := by rw [getOrCreateTopic, hlookup]
    rw [hfound]
    refine ⟨fun name ↦ ?_, hrest⟩
    by_cases hname : name = topicName
    · rw [if_pos hname, hname, hlookup]
    · rw [if_neg hname]
  | none =>
    have hfound : b.getOrCreateTopic topicName
        = (Topic.default topicName, b.setTopic topicName (Topic.default topicName)) := by
      rw [getOrCreateTopic, hlookup]
    rw [hfound]
    refine ⟨fun name ↦ ?_, hrest⟩
    by_cases hname : name = topicName
    · rw [if_pos hname, hname]
      exact AList.lookup_insert _
    · rw [if_neg hname]
      exact AList.lookup_insert_ne hname

theorem Becomes.getOrCreateTopic_eq (h : b.Becomes topicName t n b') :
    b'.getOrCreateTopic topicName = (t, b') := by
  rw [getOrCreateTopic, h.topics, if_pos rfl]

theorem Becomes.setTopic (h : b.Becomes topicName t n b') (t' : Topic) :
    b.Becomes topicName t' n (b'.setTopic topicName t') := by
  refine ⟨fun name ↦ ?_, h.rest⟩
  split
  · rename_i hname
    rw [hname]
    exact AList.lookup_insert _
  · rename_i hname
    refine (AList.lookup_insert_ne hname).trans ?_
    rw [h.topics, if_neg hname]

theorem Becomes.count (h : b.Becomes topicName t n b') (k : ℕ) : b.Becomes topicName t (n + k)
    { b' with totalPublished := b'.totalPublished + UInt64.ofNat k } := by
  refine ⟨h.topics, ?_⟩
  have hrest := congrArg
    (fun b : Broker ↦ { b with totalPublished := b.totalPublished + UInt64.ofNat k }) h.rest
  rw [UInt64.ofNat_add, ← UInt64.add_assoc]
  exact hrest

end Broker

namespace BrokerWAL

variable {σ : Type} (W : BrokerWAL σ) {b : Broker} {topicName : Bytes} {t : Topic} {n : ℕ}

theorem length_writes : ∀ {msgs : List Message} {log log' : σ}
    {outcomes : List (Except Bytes Unit)}, W.writes msgs log = some (outcomes, log') →
      outcomes.length = msgs.length := by
  intro msgs
  induction msgs with
  | nil =>
    intro log log' outcomes h
    rw [← (Prod.mk.inj (Option.some_inj.mp h)).1]
    rfl
  | cons msg msgs ih =>
    intro log log' outcomes h
    obtain ⟨r, -, h⟩ := Option.bind_eq_some_iff.mp h
    obtain ⟨rs, hrs, heq⟩ := Option.map_eq_some_iff.mp h
    rw [← (Prod.mk.inj heq).1, List.length_cons, List.length_cons, ih hrs]

/-- **A batch.** All records are written, whatever becomes of them, and all messages are pushed. -/
theorem publishBatchLoop_eq : ∀ (msgs : List Message) (count : ℕ) (s : Logged σ) {t : Topic},
    b.Becomes topicName t 0 s.broker →
    match W.writes msgs s.log with
    | none => W.publishBatchLoop topicName msgs count s = none
    | some (_, log) => ∃ b',
        W.publishBatchLoop topicName msgs count s
          = some (count + if t.Accepts then msgs.length else 0, ⟨b', log⟩) ∧
        b.Becomes topicName (t.pushes false msgs) 0 b' := by
  intro msgs
  induction msgs with
  | nil =>
    intro count s t h
    refine ⟨s.broker, ?_, h⟩
    rw [List.length_nil, ite_self, Nat.add_zero]
    rfl
  | cons msg msgs ih =>
    intro count s t h
    rw [writes, publishBatchLoop]
    cases W.writePublish s.log msg with
    | none => rfl
    | some r =>
      have hnext := ih (if decide t.Accepts then count + 1 else count)
        ⟨s.broker.setTopic topicName (t.runPublish msg false).2, r.2⟩
        (h.setTopic (t.runPublish msg false).2)
      have hcount : (if decide t.Accepts then count + 1 else count)
          + (if t.Accepts then msgs.length else 0)
            = count + if t.Accepts then msgs.length + 1 else 0 := by
        by_cases ht : t.Accepts
        · rw [if_pos (decide_eq_true ht), if_pos ht, if_pos ht]
          omega
        · rw [if_neg (by rwa [decide_eq_true_eq]), if_neg ht, if_neg ht]
      simp only [Option.bind_some, h.getOrCreateTopic_eq, Topic.runPublish_fst]
      simp only [Topic.accepts_runPublish] at hnext
      cases hw : W.writes msgs r.2 with
      | none =>
        rw [hw] at hnext
        exact hnext
      | some rs =>
        rw [hw] at hnext
        obtain ⟨b', hloop, hb'⟩ := hnext
        rw [hcount] at hloop
        exact ⟨b', hloop, hb'⟩

/-- What `Publish` answers, given what became of its record. -/
def answer (t : Topic) (msg : Message) : Except Bytes Unit → Except Bytes Message
  | .error err => .error err
  | .ok _ => if t.Accepts then .ok msg else .error Broker.errRejected

/-- The messages whose records did not fail. -/
def kept : List Message → List (Except Bytes Unit) → List Message
  | msg :: msgs, .ok _ :: outcomes => msg :: kept msgs outcomes
  | _ :: msgs, .error _ :: outcomes => kept msgs outcomes
  | _, _ => []

private theorem answer_congr {t t' : Topic} (h : t'.Accepts ↔ t.Accepts) :
    answer t' = answer t := by
  funext msg outcome
  cases outcome with
  | error err => rfl
  | ok _ => simp only [answer, h]

private theorem publish_eq (front : Bool) (payload : Option Bytes) (st : Stamp) {s : Logged σ}
    (h : b.Becomes topicName t n s.broker) :
    match W.writePublish s.log (st.message topicName payload) with
    | none => W.publish front topicName payload st s = none
    | some (outcome, log) => ∃ b',
        W.publish front topicName payload st s
          = some (answer t (st.message topicName payload) outcome, ⟨b', log⟩) ∧
        b.Becomes topicName (t.pushes front (kept [st.message topicName payload] [outcome]))
          (n + if (answer t (st.message topicName payload) outcome).isOk then 1 else 0) b' := by
  cases hw : W.writePublish s.log (st.message topicName payload) with
  | none => simp only [publish, hw, Option.map_none]
  | some r =>
    obtain ⟨outcome, log⟩ := r
    simp only [publish, hw, Option.map_some, h.getOrCreateTopic_eq, Topic.runPublish_fst]
    cases outcome with
    | error err => exact ⟨s.broker, rfl, h⟩
    | ok _ =>
      have hset := h.setTopic (t.runPublish (st.message topicName payload) front).2
      by_cases ht : t.Accepts
      · rw [if_pos (decide_eq_true ht), answer, if_pos ht]
        exact ⟨_, rfl, hset.count 1⟩
      · rw [if_neg (by rwa [decide_eq_true_eq]), answer, if_neg ht]
        exact ⟨_, rfl, hset⟩

/-- **One by one.** All records are written too, but only the messages whose records did not fail
are pushed. -/
theorem publishEach_eq (front : Bool) : ∀ (payloads : List (Option Bytes × Stamp)) (s : Logged σ)
    {t : Topic} {n : ℕ}, b.Becomes topicName t n s.broker →
    match W.writes (Broker.batchMessages topicName payloads) s.log with
    | none => W.publishEach front topicName payloads s = none
    | some (outcomes, log) => ∃ b',
        W.publishEach front topicName payloads s
          = some (List.zipWith (answer t) (Broker.batchMessages topicName payloads) outcomes,
              ⟨b', log⟩) ∧
        b.Becomes topicName
          (t.pushes front (kept (Broker.batchMessages topicName payloads) outcomes))
          (n + (List.zipWith (answer t) (Broker.batchMessages topicName payloads) outcomes).countP
            Except.isOk) b' := by
  intro payloads
  induction payloads with
  | nil => intro s t n h; exact ⟨s.broker, rfl, h⟩
  | cons p payloads ih =>
    intro s t n h
    have hone := W.publish_eq front p.1 p.2 h
    rw [Broker.batchMessages, List.map_cons, ← Broker.batchMessages, writes, publishEach]
    cases hw : W.writePublish s.log (p.2.message topicName p.1) with
    | none =>
      rw [hw] at hone
      simp only [hone, Option.bind_none]
    | some r =>
      obtain ⟨outcome, log⟩ := r
      rw [hw] at hone
      obtain ⟨b', hpublish, hb'⟩ := hone
      have hnext := ih ⟨b', log⟩ hb'
      rw [answer_congr (Topic.accepts_pushes front _ t)] at hnext
      simp only [hpublish, Option.bind_some]
      cases hrest : W.writes (Broker.batchMessages topicName payloads) log with
      | none =>
        rw [hrest] at hnext
        simp only [hnext, Option.map_none]
      | some rs =>
        obtain ⟨outcomes, log'⟩ := rs
        rw [hrest] at hnext
        obtain ⟨b'', heach, hb''⟩ := hnext
        refine ⟨b'', by rw [heach]; rfl, ?_⟩
        rw [List.zipWith_cons_cons, List.countP_cons]
        have hpushes : (t.pushes front (kept [p.2.message topicName p.1] [outcome])).pushes front
            (kept (Broker.batchMessages topicName payloads) outcomes)
              = t.pushes front (kept (p.2.message topicName p.1 ::
                  Broker.batchMessages topicName payloads) (outcome :: outcomes)) := by
          cases outcome with
          | error err => rfl
          | ok _ => rfl
        rw [hpushes, Nat.add_assoc] at hb''
        rwa [Nat.add_comm (List.countP _ _)]

/-! ## Batches and single calls -/

theorem publishEach_found (front : Bool) (topicName : Bytes)
    {payloads : List (Option Bytes × Stamp)} (hne : payloads ≠ []) (s : Logged σ) :
    W.publishEach front topicName payloads s = W.publishEach front topicName payloads
      ⟨(s.broker.getOrCreateTopic topicName).2, s.log⟩ := by
  cases payloads with
  | nil => exact absurd rfl hne
  | cons p payloads =>
    have hfound := (s.broker.becomes_getOrCreateTopic topicName).getOrCreateTopic_eq
    simp only [publishEach, publish, hfound]

theorem countP_answer (t : Topic) : ∀ {msgs : List Message} {outcomes : List (Except Bytes Unit)},
    outcomes.length = msgs.length → (List.zipWith (answer t) msgs outcomes).countP Except.isOk
      = if t.Accepts then outcomes.countP Except.isOk else 0 := by
  intro msgs
  induction msgs with
  | nil =>
    intro outcomes hlen
    obtain rfl := List.length_eq_zero_iff.mp hlen
    exact (ite_self _).symm
  | cons msg msgs ih =>
    intro outcomes hlen
    cases outcomes with
    | nil => exact absurd hlen.symm (Nat.succ_ne_zero _)
    | cons outcome outcomes =>
      rw [List.zipWith_cons_cons, List.countP_cons, List.countP_cons, ih (Nat.succ_injective hlen)]
      cases outcome with
      | error err => rfl
      | ok _ =>
        by_cases ht : t.Accepts
        · rw [answer, if_pos ht, if_pos ht, if_pos ht]
          rfl
        · rw [answer, if_neg ht, if_neg ht, if_neg ht]
          rfl

private theorem kept_eq : ∀ {msgs : List Message} {outcomes : List (Except Bytes Unit)},
    outcomes.length = msgs.length → (∀ outcome ∈ outcomes, outcome.isOk) →
    kept msgs outcomes = msgs := by
  intro msgs
  induction msgs with
  | nil =>
    intro outcomes hlen _
    obtain rfl := List.length_eq_zero_iff.mp hlen
    rfl
  | cons msg msgs ih =>
    intro outcomes hlen hall
    cases outcomes with
    | nil => exact absurd hlen.symm (Nat.succ_ne_zero _)
    | cons outcome outcomes =>
      have hrest := ih (Nat.succ_injective hlen) fun o ho ↦ hall o (List.mem_cons_of_mem _ ho)
      cases outcome with
      | error err => exact absurd (hall _ List.mem_cons_self) Bool.false_ne_true
      | ok _ => rw [kept, hrest]

/-- `PublishBatch` leaves the same log and the same broker as a `Publish` for each payload, and
counts the calls that succeed. A panic of the log ends both. -/
def BatchAgrees (topicName : Bytes) (payloads : List (Option Bytes × Stamp)) (s : Logged σ) :
    Prop :=
  match W.publishBatch topicName payloads s, W.publishEach false topicName payloads s with
  | none, none => True
  | some (count, u), some (results, v) =>
      u.log = v.log ∧ u.broker.Alike v.broker ∧ count = results.countP Except.isOk
  | _, _ => False

/-- **Batches.** For any log and any pattern of failures, a batch agrees with single calls exactly
if the topic does not accept messages at all, or no record fails. -/
theorem batchAgrees_iff (topicName : Bytes) (payloads : List (Option Bytes × Stamp))
    (s : Logged σ) :
    W.BatchAgrees topicName payloads s ↔
      ¬(s.broker.getOrCreateTopic topicName).1.Accepts ∨
        ∀ outcomes log, W.writes (Broker.batchMessages topicName payloads) s.log
          = some (outcomes, log) → ∀ outcome ∈ outcomes, outcome.isOk := by
  by_cases hne : payloads = []
  · subst hne
    refine iff_of_true ⟨rfl, ⟨fun _ ↦ rfl, rfl⟩, rfl⟩ (Or.inr fun outcomes log h ↦ ?_)
    rw [← (Prod.mk.inj (Option.some_inj.mp h)).1]
    exact fun _ h ↦ absurd h List.not_mem_nil
  have hfound := s.broker.becomes_getOrCreateTopic topicName
  have hbatch := W.publishBatchLoop_eq (Broker.batchMessages topicName payloads) 0
    ⟨(s.broker.getOrCreateTopic topicName).2, s.log⟩ hfound
  have heach := W.publishEach_eq false payloads
    ⟨(s.broker.getOrCreateTopic topicName).2, s.log⟩ hfound
  rw [BatchAgrees, publishBatch, if_neg hne, publishEach_found W false topicName hne]
  generalize (s.broker.getOrCreateTopic topicName).1 = t at *
  cases hw : W.writes (Broker.batchMessages topicName payloads) s.log with
  | none =>
    rw [hw] at hbatch heach
    simp only [hbatch, heach, Option.map_none]
    exact iff_of_true trivial (Or.inr nofun)
  | some r =>
    obtain ⟨outcomes, log⟩ := r
    have hlen := W.length_writes hw
    rw [hw] at hbatch heach
    obtain ⟨b', hbatch, hb'⟩ := hbatch
    obtain ⟨b'', heach, hb''⟩ := heach
    rw [countP_answer t hlen, Nat.zero_add] at hb''
    simp only [hbatch, heach, Option.map_some, Nat.zero_add, countP_answer t hlen]
    have hcond : (∀ outcomes' log', some (outcomes, log) = some (outcomes', log') →
        ∀ outcome ∈ outcomes', outcome.isOk) ↔ ∀ outcome ∈ outcomes, outcome.isOk := by
      constructor
      · intro h
        exact h outcomes log rfl
      · rintro h outcomes' log' heq
        rwa [← (Prod.mk.inj (Option.some_inj.mp heq)).1]
    rw [hcond]
    by_cases ht : t.Accepts
    · -- the count of the batch is the number of its messages
      rw [if_pos ht, if_pos ht, ← hlen, or_iff_right (not_not_intro ht)]
      constructor
      · rintro ⟨-, -, hcount⟩
        exact List.countP_eq_length.mp hcount.symm
      · intro hall
        have hcount := List.countP_eq_length.mpr hall
        have hsum := hb'.count outcomes.length
        rw [if_pos ht, hcount, kept_eq hlen hall] at hb''
        rw [Nat.zero_add] at hsum
        exact ⟨trivial, hsum.alike hb'', hcount.symm⟩
    · rw [if_neg ht, if_neg ht]
      rw [if_neg ht, Topic.pushes_of_not_accepts ht] at hb''
      rw [Topic.pushes_of_not_accepts ht] at hb'
      exact iff_of_true ⟨trivial, (hb'.count 0).alike hb'', rfl⟩ (Or.inl ht)

end BrokerWAL

/-- A broker without topics and its log, as `Close` leaves them. -/
def closedLog : Logged (Option Wal) :=
  ⟨{ Broker.newBroker none 0 with closed := true }, some (Wal.openWAL ∅ .always).close⟩

/-- A batch of one message to a new topic. The record is not written, `Publish` reports that, and
`PublishBatch` counts the message as published. -/
theorem batch_ignores_log :
    (closedLog.toBroker.publishBatch MessageJson.codec (bytesOf "q")
        [(none, ⟨0, 1, [171, 205], by decide⟩)]).map Prod.fst = some 1 ∧
      (closedLog.toBroker.publish MessageJson.codec (bytesOf "q") none
        ⟨0, 1, [171, 205], by decide⟩).map Prod.fst = some (.error Wal.errClosed) ∧
      ¬(Wal.writer MessageJson.codec).BatchAgrees (bytesOf "q")
        [(none, ⟨0, 1, [171, 205], by decide⟩)] closedLog := by
  refine ⟨rfl, rfl, fun h ↦ ?_⟩
  have hcount : 1 = 0 := h.2.2
  exact absurd hcount Nat.one_ne_zero

end VortexMQ
