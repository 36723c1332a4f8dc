import VortexMQ.Queue.Holdings
import VortexMQ.Queue.Totals

/-!
# Where messages come from

On its way through a topic a message gains a consumer, a deadline, a count of retries and a cause of
failure. Its identifier, its topic and its payload stay as they were when it was published
(`Message.publication`): no section of a topic makes a message up, and none changes one in these
three respects (`Topic.Within.start`, `Topic.Within.resume`, and `Life.publication_mem` for a whole
run).

So a property `R` of publications, possibly depending on the topic, holds of everything that the
broker holds, in the topics or in the hands of operations, as soon as it holds of the messages that
operations bring in. An operation brings a message in when it has written it to the log
(`Job.Admits`); before that the message only has to satisfy `Q`. One step of an operation is
`Job.Within.step`, a step of the broker `BrokerState.Within.step`, and the properties may grow on
the way.
-/

namespace VortexMQ

/-- An identifier, a topic and a payload. -/
abbrev Publication := Bytes × Bytes × Option Bytes

/-- What stays the same from the publication of a message on. -/
def Message.publication (m : Message) : Publication := (m.id, m.topic, m.payload)

/-! ## Topics -/

/-- The messages that a call publishes. -/
def Call.brings : Call → List Message
  | .publish msg _ | .publishDelayed msg _ _ => [msg]
  | _ => []

section Moves

variable {t : Topic} {p q : Spot} {m m' : Message} {e : Effect}

theorem Born.publication_mem {call : Call} (h : Born (.call call) p m) :
    ∃ msg ∈ call.brings, m.publication = msg.publication := by
  cases h with
  | publish => exact ⟨m, List.mem_singleton_self m, rfl⟩
  | publishDelayed => exact ⟨_, List.mem_singleton_self _, rfl⟩

theorem CallMoves.publication_eq {call : Call} (h : CallMoves t call p m e q m') :
    m'.publication = m.publication := by
  cases h <;> rfl

theorem TaskMoves.publication_eq {now : ℤ} {order : List Message} {task : Task}
    (h : TaskMoves t now order task p m e q m') : m'.publication = m.publication := by
  cases h <;> rfl

theorem Moves.publication_eq {s : TopicState} {l : TopicLabel} (h : Moves s l p m e q m') :
    m'.publication = m.publication := by
  cases h with
  | call h => exact h.publication_eq
  | resume htask h => exact h.publication_eq

end Moves

/-- Everything in the topic is in `R`. -/
def Topic.Within (R : Publication → Prop) (t : Topic) : Prop :=
  ∀ p m, t.HoldsAt p m → R m.publication

namespace Topic

variable {R R' : Publication → Prop} {t t' : Topic}

theorem Within.mono (h : t.Within R) (hR : ∀ x, R x → R' x) : t.Within R' :=
  fun p m hm ↦ hR _ (h p m hm)

theorem Within.of_addsNothing (h : t.Within R) (hadds : t.AddsNothing t') : t'.Within R :=
  fun p m hm ↦ h p m (hadds p m hm)

theorem Within.push (h : t.Within R) {msg : Message} (hmsg : R msg.publication) (front : Bool) :
    (t.push msg front).2.Within R := by
  intro p m hm
  rcases t.addsAt_push msg front p m hm with hold | ⟨-, rfl⟩
  · exact h p m hold
  · exact hmsg

theorem Within.runPublish (h : t.Within R) {msg : Message} (hmsg : R msg.publication)
    (front : Bool) : (t.runPublish msg front).2.Within R := by
  rw [Topic.runPublish]
  split
  · exact h
  · exact h.push hmsg front

private theorem within_default (name : Bytes) : (Topic.default name).Within R :=
  fun p m hm ↦ (Topic.carries_default (S := fun _ ↦ False) name p m hm).elim

theorem Within.closeTopic (h : t.Within R) (ht' : PublishSystem.closeTopic t = some t') :
    t'.Within R := by
  refine h.of_addsNothing fun p m hm ↦ ?_
  rw [PublishSystem.closeTopic] at ht'
  split at ht'
  · obtain rfl := Option.some_inj.mp ht'
    cases p <;> exact hm
  split at ht'
  · obtain rfl := Option.some_inj.mp ht'
    cases p <;> exact hm
  split at ht'
  · obtain rfl := Option.some_inj.mp ht'
    cases p <;> exact hm
  · exact absurd ht' (Option.some_ne_none _).symm

variable {L : Ledger} {r : Section}

/-- The first section of a call on a topic: what it leaves there, and what it takes along. -/
theorem Within.start (h : t.Within R) {call : Call} (hr : t.start L call = some r)
    (hcall : ∀ m ∈ call.brings, R m.publication) :
    r.1.Within R ∧ ∀ task, r.2.2 = some task → ∀ m ∈ task.held, R m.publication := by
  have hborn : ∀ {p m}, Born (.call call) p m → R m.publication := by
    intro p m hb
    obtain ⟨msg, hmem, heq⟩ := hb.publication_mem
    exact heq ▸ hcall msg hmem
  constructor
  · intro p m hm
    rcases origin_start hr hm with hold | hb
    · exact h p m hold
    · exact hborn hb
  · intro task htask m hm
    rcases origin_start_held hr htask hm with hb | ⟨p₀, m₀, e, hold, hmoves⟩
    · exact hborn hb
    · exact hmoves.publication_eq ▸ h p₀ m₀ hold

theorem Within.resume (h : t.Within R) {task : Task} {now : ℤ} {order : List Message}
    (hr : task.resume t L now order = some r) (htask : ∀ m ∈ task.held, R m.publication) :
    r.1.Within R ∧ ∀ task', r.2.2 = some task' → ∀ m ∈ task'.held, R m.publication := by
  constructor
  · intro p m hm
    rcases Task.origin_resume hr hm with hold | ⟨m₀, hm₀, e, hmoves⟩
    · exact h p m hold
    · exact hmoves.publication_eq ▸ htask m₀ hm₀
  · intro task' htask' m hm
    obtain ⟨p₀, m₀, e, hold, hmoves⟩ := Task.origin_resume_held hr htask' hm
    rcases hold with hold | ⟨-, hold⟩
    · exact hmoves.publication_eq ▸ h p₀ m₀ hold
    · exact hmoves.publication_eq ▸ htask m₀ hold

end Topic

/-- The messages that a step publishes. -/
def TopicLabel.brings : TopicLabel → List Message
  | .call c => c.brings
  | _ => []

theorem Life.publication_mem {s₀ s : TopicState} {labels : List TopicLabel} {p : Spot}
    {m : Message} {n : Tally} (h : Life s₀ labels s p m n) :
    ∃ msg ∈ labels.flatMap TopicLabel.brings, m.publication = msg.publication := by
  -- along a life the identifier, the topic and the payload do not change
  induction h with
  | @born labels s s' l p m hrun hstep hborn hholds =>
    rw [List.flatMap_append, List.flatMap_singleton]
    cases l with
    | call c =>
      obtain ⟨msg, hmsg, heq⟩ := hborn.publication_mem
      exact ⟨msg, List.mem_append_right _ hmsg, heq⟩
    | resume i now order => cases hborn
    | giveUp i => cases hborn
  | stays hlife hstep hholds ih =>
    obtain ⟨msg, hmsg, heq⟩ := ih
    rw [List.flatMap_append]
    exact ⟨msg, List.mem_append_left _ hmsg, heq⟩
  | moves hlife hstep hmoves hholds ih =>
    obtain ⟨msg, hmsg, heq⟩ := ih
    rw [List.flatMap_append]
    exact ⟨msg, List.mem_append_left _ hmsg, hmoves.publication_eq.trans heq⟩

/-! ## The topics of a broker -/

/-- Everything in a topic of the broker is in `R` of its name. -/
def Broker.Within (R : Bytes → Publication → Prop) (b : Broker) : Prop :=
  ∀ name t, b.topics.lookup name = some t → t.Within (R name)

namespace Broker

variable {R R' : Bytes → Publication → Prop} {b b' : Broker} {c : Codec} {t : Topic}

theorem Within.mono (h : b.Within R) (hR : ∀ name x, R name x → R' name x) : b.Within R' :=
  fun name t ht ↦ (h name t ht).mono (hR name)

theorem Within.of_topics (h : b.Within R) (htopics : b'.topics = b.topics) : b'.Within R := by
  rw [Broker.Within, htopics]
  exact h

theorem Within.setTopic (h : b.Within R) {name : Bytes} (ht : t.Within (R name)) :
    (b.setTopic name t).Within R := by
  intro name' t' hlookup
  by_cases hname : name' = name
  · subst hname
    rw [Broker.setTopic, AList.lookup_insert, Option.some_inj] at hlookup
    exact hlookup ▸ ht
  · rw [Broker.setTopic, AList.lookup_insert_ne hname] at hlookup
    exact h name' t' hlookup

theorem Within.getOrCreateTopic (h : b.Within R) (name : Bytes) :
    (b.getOrCreateTopic name).2.Within R := by
  rw [Broker.getOrCreateTopic]
  split
  · exact h
  · exact h.setTopic (Topic.within_default name)

theorem topics_logPublish {msg : Message} {r : Except Bytes Unit × Broker}
    (hr : b.logPublish c msg = some r) : r.2.topics = b.topics := by
  rw [Broker.logPublish] at hr
  split at hr
  · exact Option.some_inj.mp hr ▸ rfl
  · obtain ⟨r', -, rfl⟩ := Option.map_eq_some_iff.mp hr
    rfl

theorem topics_logAck {topicName groupName msgID : Bytes}
    (hb' : b.logAck topicName groupName msgID = some b') : b'.topics = b.topics := by
  rw [Broker.logAck] at hb'
  split at hb'
  · exact Option.some_inj.mp hb' ▸ rfl
  · obtain ⟨r', -, rfl⟩ := Option.map_eq_some_iff.mp hb'
    rfl

theorem topics_addTotal (b : Broker) (n : UInt64) (k : Counter) :
    (b.addTotal n k).topics = b.topics := by
  cases k <;> rfl

theorem Within.foldl_recover : ∀ {msgs : List Message} {b : Broker}, b.Within R →
    (∀ m ∈ msgs, R m.topic m.publication) → (msgs.foldl Broker.recover b).Within R := by
  intro msgs
  induction msgs with
  | nil => intro b h _; exact h
  | cons msg msgs ih =>
    intro b h hmsgs
    have hcreated := h.getOrCreateTopic msg.topic
    have ht := hcreated _ _ (b.lookup_getOrCreateTopic msg.topic)
    refine ih ?_ fun m hm ↦ hmsgs m (List.mem_cons_of_mem _ hm)
    exact hcreated.setTopic (ht.runPublish (hmsgs msg List.mem_cons_self) false)

end Broker

/-! ## Operations in progress -/

def Call.Publishes (msg : Message) : Call → Prop
  | .publish m _ | .publishDelayed m _ _ => m = msg
  | _ => False

theorem Call.Publishes.eq_of_mem {msg m : Message} {call : Call} (h : call.Publishes msg)
    (hm : m ∈ call.brings) : m = msg := by
  cases call with
  | publish m' front => exact (List.mem_singleton.mp hm).trans h
  | publishDelayed m' delay now => exact (List.mem_singleton.mp hm).trans h
  | _ => exact h.elim

namespace Job

/-- The messages that the operation has yet to write to the log, each with the topic it is for. -/
def pending : Job → List (Bytes × Message)
  | .log msg _ => [(msg.topic, msg)]
  | .batch topicName msgs _ | .batchCheck topicName _ msgs _ | .batchPush topicName _ msgs _ =>
      msgs.map fun m ↦ (topicName, m)
  | _ => []

/-- The messages that the operation has in its hands, past the log. -/
def carries : Job → List (Bytes × Message)
  | .enter topicName call => call.brings.map fun m ↦ (topicName, m)
  | .inTopic topicName task => task.held.map fun m ↦ (topicName, m)
  | .batchCheck topicName msg _ _ | .batchPush topicName msg _ _ => [(topicName, msg)]
  | _ => []

/-- The messages before the log are in `Q`, those past it in `R`, and what is logged is what is
published. -/
structure Within (Q R : Bytes → Publication → Prop) (job : Job) : Prop where
  pending : ∀ x ∈ job.pending, Q x.1 x.2.publication
  carries : ∀ x ∈ job.carries, R x.1 x.2.publication
  publishes : ∀ msg call, job = .log msg call → call.Publishes msg

/-- The next step of the operation lets the message past the log. -/
def Admits (c : Codec) (b : Broker) : Job → Bytes → Message → Prop
  | .log msg _, topicName, m =>
      topicName = m.topic ∧ m = msg ∧ ∃ b', b.logPublish c msg = some (.ok (), b')
  | .batch name (msg :: _) _, topicName, m => topicName = name ∧ m = msg
  | _, _, _ => False

section

variable {Q R Q' R' : Bytes → Publication → Prop} {job : Job} {c : Codec} {b : Broker} {now : ℤ}
  {order : List Message}

theorem Within.mono (h : job.Within Q R) (hQ : ∀ name x, Q name x → Q' name x)
    (hR : ∀ name x, R name x → R' name x) : job.Within Q' R' :=
  ⟨fun x hx ↦ hQ _ _ (h.pending x hx), fun x hx ↦ hR _ _ (h.carries x hx), h.publishes⟩

theorem within_of_nil (hpending : job.pending = []) (hcarries : job.carries = []) :
    job.Within Q R := by
  refine ⟨by simp [hpending], by simp [hcarries], ?_⟩
  rintro msg call rfl
  exact absurd hpending (List.cons_ne_nil _ _)

private theorem within_next {topicName : Bytes} {rest : Option Task} {report : Option Counter}
    {record : Option (Bytes × Bytes × Bytes)}
    (h : ∀ task, rest = some task → ∀ m ∈ task.held, R topicName m.publication) {job : Job}
    (hjob : next topicName rest report record = some job) : job.Within Q R := by
  cases rest with
  | some task =>
    obtain rfl := Option.some_inj.mp hjob
    refine ⟨by simp [Job.pending], fun x hx ↦ ?_, by simp⟩
    obtain ⟨m, hm, rfl⟩ := List.mem_map.mp hx
    exact h task rfl m hm
  | none =>
    obtain ⟨k, -, rfl⟩ := Option.map_eq_some_iff.mp hjob
    exact within_of_nil rfl rfl

/-- **One step of an operation.** -/
theorem Within.step (h : job.Within Q R) (hb : b.Within R) (hR : ∀ name x, R name x → R' name x)
    (hadmits : ∀ name m, job.Admits c b name m → Q name m.publication → R' name m.publication)
    {r : Broker × Option Job} (hr : job.step c b now order = some r) :
    r.1.Within R' ∧ ∀ job', r.2 = some job' → job'.Within Q R' := by
  have hb' := hb.mono hR
  have h' := h.mono (fun _ _ ↦ id) hR
  cases job with
  | log msg call =>
    rw [Job.step, Option.map_eq_some_iff] at hr
    obtain ⟨⟨res, b₁⟩, hlog, rfl⟩ := hr
    have hb₁ : b₁.Within R' := hb'.of_topics (Broker.topics_logPublish hlog)
    cases res with
    | error err => exact ⟨hb₁, by simp⟩
    | ok _ =>
      refine ⟨hb₁, fun job' hjob' ↦ ?_⟩
      obtain rfl := Option.some_inj.mp hjob'
      refine ⟨by simp [Job.pending], fun x hx ↦ ?_, by simp⟩
      obtain ⟨m, hm, rfl⟩ := List.mem_map.mp hx
      obtain rfl := (h.publishes msg call rfl).eq_of_mem hm
      exact hadmits _ _ ⟨rfl, rfl, b₁, hlog⟩ (h.pending _ (List.mem_singleton_self _))
  | enter topicName call =>
    rw [Job.step, Option.bind_eq_some_iff] at hr
    obtain ⟨t, ht, hr⟩ := hr
    rw [Option.map_eq_some_iff] at hr
    obtain ⟨x, hstart, rfl⟩ := hr
    obtain ⟨htopic, htask⟩ := (hb' topicName t ht).start hstart fun m hm ↦
      h'.carries (topicName, m) (List.mem_map_of_mem hm)
    exact ⟨hb'.setTopic htopic, fun job' ↦ within_next htask⟩
  | inTopic topicName task =>
    rw [Job.step, Option.bind_eq_some_iff] at hr
    obtain ⟨t, ht, hr⟩ := hr
    rw [Option.map_eq_some_iff] at hr
    obtain ⟨x, hresume, rfl⟩ := hr
    obtain ⟨htopic, htask⟩ := (hb' topicName t ht).resume hresume fun m hm ↦
      h'.carries (topicName, m) (List.mem_map_of_mem hm)
    exact ⟨hb'.setTopic htopic, fun job' ↦ within_next htask⟩
  | batch topicName msgs count =>
    cases msgs with
    | nil =>
      obtain rfl := Option.some_inj.mp hr
      refine ⟨hb', ?_⟩
      rintro job' ⟨⟩
      exact within_of_nil rfl rfl
    | cons msg msgs =>
      rw [Job.step, Option.map_eq_some_iff] at hr
      obtain ⟨⟨res, b₁⟩, hlog, rfl⟩ := hr
      refine ⟨hb'.of_topics (Broker.topics_logPublish hlog), ?_⟩
      rintro job' ⟨⟩
      refine ⟨fun x hx ↦ h.pending x (List.mem_cons_of_mem _ hx), fun x hx ↦ ?_, by simp⟩
      rw [List.mem_singleton.mp hx]
      exact hadmits _ _ ⟨rfl, rfl⟩ (h.pending _ List.mem_cons_self)
  | batchCheck topicName msg msgs count =>
    rw [Job.step, Option.bind_eq_some_iff] at hr
    obtain ⟨t, -, hr⟩ := hr
    rw [Option.ite_none_left_eq_some] at hr
    obtain ⟨-, hr⟩ := hr
    split at hr <;> obtain rfl := Option.some_inj.mp hr
    · refine ⟨hb', ?_⟩
      rintro job' ⟨⟩
      exact ⟨h.pending, by simp [Job.carries], by simp⟩
    · refine ⟨hb', ?_⟩
      rintro job' ⟨⟩
      exact ⟨h.pending, h'.carries, by simp⟩
  | batchPush topicName msg msgs count =>
    rw [Job.step, Option.map_eq_some_iff] at hr
    obtain ⟨t, ht, rfl⟩ := hr
    have hpush := (hb' topicName t ht).push (h'.carries _ (List.mem_singleton_self _)) false
    refine ⟨hb'.setTopic hpush, ?_⟩
    rintro job' ⟨⟩
    exact ⟨h.pending, by simp [Job.carries], by simp⟩
  | add k n record =>
    obtain rfl := Option.some_inj.mp hr
    refine ⟨hb'.of_topics (b.topics_addTotal _ k), fun job' hjob' ↦ ?_⟩
    obtain ⟨x, -, rfl⟩ := Option.map_eq_some_iff.mp hjob'
    exact within_of_nil rfl rfl
  | logAck topicName groupName msgID =>
    rw [Job.step, Option.map_eq_some_iff] at hr
    obtain ⟨b₁, hlog, rfl⟩ := hr
    exact ⟨hb'.of_topics (Broker.topics_logAck hlog), by simp⟩
  | createGroup topicName groupName timeout =>
    rw [Job.step, Option.bind_eq_some_iff] at hr
    obtain ⟨t, ht, hr⟩ := hr
    rw [Option.ite_none_left_eq_some, Option.some_inj] at hr
    obtain ⟨-, rfl⟩ := hr
    have hgroup := (hb' topicName t ht).of_addsNothing
      (t.addsNothing_getOrCreateGroup groupName timeout)
    exact ⟨hb'.setTopic hgroup, by simp⟩
  | close names =>
    cases names with
    | nil =>
      obtain rfl := Option.some_inj.mp hr
      exact ⟨hb'.of_topics rfl, by simp⟩
    | cons topicName names =>
      rw [Job.step, Option.map_eq_some_iff] at hr
      obtain ⟨t, ht, rfl⟩ := hr
      cases hclose : PublishSystem.closeTopic t with
      | none =>
        refine ⟨hb', ?_⟩
        rintro job' ⟨⟩
        exact within_of_nil rfl rfl
      | some t' =>
        refine ⟨hb'.setTopic ((hb' topicName t ht).closeTopic hclose), ?_⟩
        rintro job' ⟨⟩
        exact within_of_nil rfl rfl

end

end Job

/-! ## The system -/

namespace BrokerState

/-- The messages that the topics hold and those that operations have in their hands, past the
log. -/
def messages (s : BrokerState) : List Message :=
  s.broker.topics.entries.flatMap (fun e ↦ e.2.messages) ++
    s.jobs.flatMap fun job ↦ job.carries.map Prod.snd

/-- The messages that a call makes. -/
def Label.messages : Label → List Message
  | .publish topicName payload st _ => [st.message topicName payload]
  | .publishDelayed topicName payload _ st _ => [st.message topicName payload]
  | .publishBatch topicName payloads => Broker.batchMessages topicName payloads
  | _ => []

/-- The messages before the log are in `Q`, those past it in `R`. -/
structure Within (Q R : Bytes → Publication → Prop) (s : BrokerState) : Prop where
  broker : s.broker.Within R
  jobs : ∀ job ∈ s.jobs, job.Within Q R

/-- A step that lets the message past the log, on its way into the topic. -/
def Admits (c : Codec) (s : BrokerState) : Label → Bytes → Message → Prop
  | .resume i _ _, name, m => ∃ job, s.jobs[i]? = some job ∧ job.Admits c s.broker name m
  | _, _, _ => False

variable {Q R Q' R' : Bytes → Publication → Prop} {c : Codec} {s s' : BrokerState}

namespace Within

private theorem mono (h : s.Within Q R) (hQ : ∀ name x, Q name x → Q' name x)
    (hR : ∀ name x, R name x → R' name x) : s.Within Q' R' :=
  ⟨h.broker.mono hR, fun job hjob ↦ (h.jobs job hjob).mono hQ hR⟩

theorem exists_of_mem (h : s.Within Q R) {m : Message} (hm : m ∈ s.messages) :
    ∃ name, R name m.publication := by
  rcases List.mem_append.mp hm with hm | hm
  · obtain ⟨e, he, hm⟩ := List.mem_flatMap.mp hm
    obtain ⟨p, hp⟩ := Topic.mem_messages_iff.mp hm
    exact ⟨e.1, h.broker e.1 e.2 (AList.mem_lookup_iff.mpr he) p m hp⟩
  · obtain ⟨job, hjob, hm⟩ := List.mem_flatMap.mp hm
    obtain ⟨x, hx, rfl⟩ := List.mem_map.mp hm
    exact ⟨x.1, (h.jobs job hjob).carries x hx⟩

theorem spawn (h : s.Within Q R) {b : Broker} (hb : b.Within R) {job : Job}
    (hjob : job.Within Q R) : Within Q R ⟨b, s.jobs ++ [job]⟩ := by
  refine ⟨hb, fun job' hjob' ↦ ?_⟩
  rcases List.mem_append.mp hjob' with hold | hnew
  · exact h.jobs job' hold
  · rw [List.mem_singleton.mp hnew]
    exact hjob

private theorem find (h : s.Within Q R) {topicName : Bytes} {call : Call} (hcall : call.brings = [])
    (hs' : s.find topicName call = some s') : s'.Within Q R := by
  rw [BrokerState.find, Option.ite_none_left_eq_some] at hs'
  obtain ⟨-, hs'⟩ := hs'
  split at hs' <;> obtain rfl := Option.some_inj.mp hs'
  · exact h
  · exact h.spawn h.broker (Job.within_of_nil rfl (by simp [Job.carries, hcall]))

private theorem findOrCreate (h : s.Within Q R) {topicName : Bytes} {job : Job}
    (hs' : s.findOrCreate topicName job = some s') (hjob : job.Within Q R) : s'.Within Q R := by
  rw [BrokerState.findOrCreate, Option.ite_none_left_eq_some, Option.some_inj] at hs'
  obtain ⟨-, rfl⟩ := hs'
  exact h.spawn (h.broker.getOrCreateTopic topicName) hjob

private theorem resume (h : s.Within Q R) (hR : ∀ name x, R name x → R' name x) {i : ℕ} {now : ℤ}
    {order : List Message}
    (hadmits : ∀ name m, s.Admits c (.resume i now order) name m →
      Q name m.publication → R' name m.publication)
    (hs' : s.step c (.resume i now order) = some s') : s'.Within Q R' := by
  rw [BrokerState.step, Option.bind_eq_some_iff] at hs'
  obtain ⟨job, hjob, hs'⟩ := hs'
  rw [Option.map_eq_some_iff] at hs'
  obtain ⟨r, hr, rfl⟩ := hs'
  obtain ⟨hb, hnext⟩ := (h.jobs job (List.mem_of_getElem? hjob)).step h.broker hR
    (fun name m hm ↦ hadmits name m ⟨job, hjob, hm⟩) hr
  refine ⟨hb, fun job' hjob' ↦ ?_⟩
  rcases List.mem_append.mp hjob' with hold | hnew
  · exact (h.jobs job' (List.mem_of_mem_eraseIdx hold)).mono (fun _ _ ↦ id) hR
  · exact hnext job' (Option.mem_toList.mp hnew)

/-- **A step of the broker.** -/
theorem step (h : s.Within Q R) (hQ : ∀ name x, Q name x → Q' name x)
    (hR : ∀ name x, R name x → R' name x) {l : Label}
    (hnew : ∀ m ∈ l.messages, Q' m.topic m.publication)
    (hadmits : ∀ name m, s.Admits c l name m → Q name m.publication → R' name m.publication)
    (hs' : s.step c l = some s') : s'.Within Q' R' := by
  have h' := h.mono hQ hR
  -- what a single message is published with
  have hsingle {msg : Message} {call : Call} (hmsg : Q' msg.topic msg.publication)
      (hcall : call.Publishes msg) : (Job.log msg call).Within Q' R' := by
    refine ⟨fun x hx ↦ ?_, by simp [Job.carries], ?_⟩
    · rw [List.mem_singleton.mp hx]
      exact hmsg
    · rintro msg' call' ⟨⟩
      exact hcall
  cases l with
  | publish topicName payload st front =>
    exact h'.findOrCreate hs' (hsingle (hnew _ (List.mem_singleton_self _)) rfl)
  | publishDelayed topicName payload delay st now =>
    exact h'.findOrCreate hs' (hsingle (hnew _ (List.mem_singleton_self _)) rfl)
  | publishBatch topicName payloads =>
    rw [BrokerState.step] at hs'
    split at hs'
    · obtain rfl := Option.some_inj.mp hs'
      exact h'
    · refine h'.findOrCreate hs' ⟨fun x hx ↦ ?_, by simp [Job.carries], by simp⟩
      obtain ⟨m, hm, rfl⟩ := List.mem_map.mp hx
      have hm' := hnew m hm
      obtain ⟨p, -, rfl⟩ := List.mem_map.mp hm
      exact hm'
  | consumeGroup | createGroup => exact h'.findOrCreate hs' (Job.within_of_nil rfl rfl)
  | consume | ack | nack | replayDLQ | purgeDLQ | sweep => exact h'.find rfl hs'
  | tick topicName =>
    rw [BrokerState.step, Option.map_eq_some_iff] at hs'
    obtain ⟨t, -, rfl⟩ := hs'
    exact h'.spawn h'.broker (Job.within_of_nil rfl rfl)
  | syncLog =>
    obtain rfl := Option.some_inj.mp hs'
    have hb : s.broker.syncLog.Within R' := h'.broker.of_topics rfl
    exact ⟨hb, h'.jobs⟩
  | close order =>
    rw [BrokerState.step, Option.ite_none_left_eq_some] at hs'
    obtain ⟨-, hs'⟩ := hs'
    split at hs'
    · obtain rfl := Option.some_inj.mp hs'
      exact h'
    · rw [Option.ite_none_right_eq_some, Option.some_inj] at hs'
      obtain ⟨-, rfl⟩ := hs'
      have hb : { s.broker with closed := true }.Within R' := h'.broker.of_topics rfl
      have hjob : (Job.close order).Within Q' R' := Job.within_of_nil rfl rfl
      exact h'.spawn hb hjob
  | resume i now order => exact (h.resume hR hadmits hs').mono hQ fun _ _ ↦ id
  | giveUp i =>
    rw [BrokerState.step] at hs'
    split at hs'
    · obtain ⟨t, -, hs'⟩ := Option.bind_eq_some_iff.mp hs'
      rw [Option.ite_none_right_eq_some, Option.some_inj] at hs'
      obtain ⟨-, rfl⟩ := hs'
      exact ⟨h'.broker, fun job hjob ↦ h'.jobs job (List.mem_of_mem_eraseIdx hjob)⟩
    · exact absurd hs' (by simp)

end Within

/-! ## Nothing comes from nowhere -/

/-- The publication is one of the given ones, and its topic is the one asked for. -/
def Stems (msgs : List Message) (name : Bytes) (x : Publication) : Prop :=
  x.2.1 = name ∧ x ∈ msgs.map Message.publication

theorem Stems.mono {msgs msgs' : List Message} (hsub : msgs ⊆ msgs') (name : Bytes)
    (x : Publication) (h : Stems msgs name x) : Stems msgs' name x :=
  ⟨h.1, List.map_subset _ hsub h.2⟩

theorem stems_of_mem {msgs : List Message} {m : Message} (h : m ∈ msgs) :
    Stems msgs m.topic m.publication := ⟨rfl, List.mem_map_of_mem h⟩

private theorem within_start (c : Codec) (start : Start) (now : ℤ) :
    Within (Stems (start.messages c)) (Stems (start.messages c)) (idle (start.broker c now)) := by
  have hempty (wal : Option Wal) : (Broker.newBroker wal now).Within (Stems (start.messages c)) :=
    fun name t ht ↦ absurd ht (by simp [Broker.newBroker])
  refine ⟨?_, fun job hjob ↦ absurd hjob List.not_mem_nil⟩
  cases start with
  | inMemory => exact hempty none
  | withLog dir policy => exact (hempty _).foldl_recover fun m hm ↦ stems_of_mem hm

theorem within_of_run {start : Start} {now : ℤ} {labels : List Label}
    (hrun : Run (BrokerState.step c) (fun _ ↦ True) (idle (start.broker c now)) labels s) :
    s.Within (Stems (start.messages c ++ labels.flatMap Label.messages))
      (Stems (start.messages c ++ labels.flatMap Label.messages)) := by
  refine hrun.history (I := fun ls u ↦ u.Within
      (Stems (start.messages c ++ ls.flatMap Label.messages))
      (Stems (start.messages c ++ ls.flatMap Label.messages)))
    (fun ls u l v _ _ hstep hu ↦ ?_) ?_
  · rw [List.flatMap_append, List.flatMap_singleton, ← List.append_assoc]
    have hmono := Stems.mono (List.subset_append_left
      (start.messages c ++ ls.flatMap Label.messages) l.messages)
    refine hu.step hmono hmono (fun m hm ↦ ?_) (fun name m _ hm ↦ hmono name _ hm) hstep
    exact stems_of_mem (List.mem_append_right _ hm)
  · rw [List.flatMap_nil, List.append_nil]
    exact within_start c start now

/-- **Nothing comes from nowhere.** In every interleaving of the operations of a broker, from the
start of the process on, whatever a topic holds anywhere, and whatever an operation on the topic has
in its hands, has that topic as its own, and its identifier, topic and payload are those of a
message that was recovered at the start or made by a call. -/
theorem stems_from_publication {start : Start} {now : ℤ} {labels : List Label}
    (hrun : Run (BrokerState.step c) (fun _ ↦ True) (idle (start.broker c now)) labels s) :
    (∀ name t, s.broker.getTopic name = some t → ∀ m ∈ t.messages, m.topic = name ∧
      ∃ m₀ ∈ start.messages c ++ labels.flatMap Label.messages,
        m.publication = m₀.publication) ∧
    ∀ job ∈ s.jobs, ∀ x ∈ job.carries, x.2.topic = x.1 ∧
      ∃ m₀ ∈ start.messages c ++ labels.flatMap Label.messages,
        x.2.publication = m₀.publication := by
  have hwithin := within_of_run hrun
  have hstems {name : Bytes} {m : Message}
      (h : Stems (start.messages c ++ labels.flatMap Label.messages) name m.publication) :
      m.topic = name ∧ ∃ m₀ ∈ start.messages c ++ labels.flatMap Label.messages,
        m.publication = m₀.publication := by
    obtain ⟨m₀, hm₀, heq⟩ := List.mem_map.mp h.2
    exact ⟨h.1, m₀, hm₀, heq.symm⟩
  refine ⟨fun name t ht m hm ↦ ?_, fun job hjob x hx ↦ ?_⟩
  · obtain ⟨p, hp⟩ := Topic.mem_messages_iff.mp hm
    exact hstems (hwithin.broker name t ht p m hp)
  · exact hstems ((hwithin.jobs job hjob).carries x hx)

/-- A job that has failed once waits in the wheel. It has a cause of failure and a count of retries,
and is still the job that was published. -/
theorem stems_from_publication_failed :
    ∃ s t m, Run (BrokerState.step MessageJson.codec) (fun _ ↦ True)
        (idle (Start.inMemory.broker MessageJson.codec 0))
        [.publish (bytesOf "orders") (some (bytesOf "job")) BrokerHistory.jobStamp false,
          .resume 0 0 [], .resume 0 0 [], .resume 0 0 [], .resume 0 0 [],
          .consumeGroup (bytesOf "orders") (bytesOf "g") (bytesOf "c"), .resume 0 0 [],
          .resume 0 0 [], .resume 0 0 [], .resume 0 0 [],
          .nack (bytesOf "orders") (bytesOf "g") BrokerHistory.job.id (bytesOf "no"),
          .resume 0 0 [], .resume 0 0 [], .resume 0 0 []] s ∧
      s.broker.getTopic (bytesOf "orders") = some t ∧ t.tw.messages = [m] ∧ m.retryCount = 1 ∧
      m.publication = BrokerHistory.job.publication := by
  have hsome : (Run.exec (BrokerState.step MessageJson.codec) (fun _ ↦ True)
      (idle (Start.inMemory.broker MessageJson.codec 0))
      [.publish (bytesOf "orders") (some (bytesOf "job")) BrokerHistory.jobStamp false,
        .resume 0 0 [], .resume 0 0 [], .resume 0 0 [], .resume 0 0 [],
        .consumeGroup (bytesOf "orders") (bytesOf "g") (bytesOf "c"), .resume 0 0 [],
        .resume 0 0 [], .resume 0 0 [], .resume 0 0 [],
        .nack (bytesOf "orders") (bytesOf "g") BrokerHistory.job.id (bytesOf "no"),
        .resume 0 0 [], .resume 0 0 [], .resume 0 0 []]).isSome := by decide +kernel
  have hrun := Run.of_exec (Option.some_get hsome).symm
  have hwheel := hrun.of_exec_map (f := fun s ↦ (s.broker.getTopic (bytesOf "orders")).map
    fun t ↦ t.tw.messages.map Message.retryCount) (a := some [1]) (by decide +kernel)
  obtain ⟨t, ht, hcounts⟩ := Option.map_eq_some_iff.mp hwheel
  obtain ⟨m, hm, hcount⟩ := List.map_eq_singleton_iff.mp hcounts
  have hmem : m ∈ t.messages := Topic.mem_messages_of_wheel (hm ▸ List.mem_singleton_self m)
  obtain ⟨-, m₀, hm₀, heq⟩ := (stems_from_publication hrun).1 _ t ht m hmem
  rw [List.mem_singleton.mp hm₀] at heq
  exact ⟨_, t, m, hrun, ht, hm, hcount, heq⟩

end BrokerState

end VortexMQ
