import VortexMQ.Coding.Numeral
import VortexMQ.Network.Connection
import VortexMQ.Queue.Calendar

/-!
# Delays

A `time.Duration` is a number of nanoseconds in 64 bits. There are two places where the source
computes one by a multiplication that can overflow: the delay that a client asks for in
milliseconds, with `VMQ.PUBLISH` or over HTTP, and the backoff of `Nack`, which doubles with every
retry before it is capped.

What a wrapped delay leads to depends on its sign. A delay that is not positive makes the timing
wheel, or already the front end, publish the message at once.

A delay is honoured if the message has gone into the wheel with exactly this delay and into the ring
not at all. What the wheel makes of a delay, which it counts in ticks, is another matter
(`VortexMQ.Queue.Schedule`); and so is a wheel that has been stopped, which drops the message.
-/

namespace VortexMQ

theorem wrap64_eq_self_iff {x : ℤ} (hpos : 0 ≤ x) : wrap64 x = x ↔ x < 2 ^ 63 := by
  constructor
  · intro h
    exact h ▸ (int64Range_wrap64 x).2
  · intro h
    exact wrap64_of_mem (by omega) h

/-! ## What the wheel is given -/

namespace TimingWheel

variable {α : Type} {tw : TimingWheel α} {delay delay' : ℤ}

private theorem ticks_eq_of_insert_eq {msg msg' : α}
    (h : tw.insert msg delay = tw.insert msg' delay') : tw.ticks delay = tw.ticks delay' := by
  by_contra hne
  have hdue := congrArg (fun tw ↦ (due tw (ticks tw delay)).length) h
  have hticks : ∀ (m : α) (d : ℤ), (tw.insert m d).ticks delay = tw.ticks delay := fun _ _ ↦ rfl
  simp only [hticks, due_insert, if_neg hne, if_true, List.length_cons] at hdue
  exact absurd hdue (Nat.succ_ne_self _)

private theorem insert_ne_self (msg : α) : tw.insert msg delay ≠ tw := by
  intro h
  have hlen := (tw.messages_insert_perm msg delay).length_eq
  rw [h] at hlen
  exact absurd hlen.symm (Nat.succ_ne_self _)

private theorem ticks_lt_ticks (hpos : 0 < delay) (h : delay + 2 * tw.interval ≤ delay') :
    tw.ticks delay < tw.ticks delay' := by
  have hinterval := tw.interval_pos
  rw [tw.ticks_eq hpos, tw.ticks_eq (by omega)]
  have hdiv : delay / tw.interval + 2 ≤ delay' / tw.interval := by
    rw [← Int.add_mul_ediv_right delay 2 hinterval.ne']
    exact Int.ediv_le_ediv hinterval h
  have hnonneg : 0 ≤ delay / tw.interval := Int.ediv_nonneg hpos.le hinterval.le
  omega

end TimingWheel

namespace Topic

variable (t : Topic) (msg : Message) {delay : ℤ} (now : ℤ)

private theorem publishDelayed_of_pos (hpos : 0 < delay) (hopen : t.tw.closed = false) :
    (t.publishDelayed msg delay now).ring = t.ring ∧
      (t.publishDelayed msg delay now).tw
        = t.tw.insert { msg with deliverAt := wrap64 (now + delay) } delay := by
  have hadd : ∀ m, (t.countPublished msg).tw.add m delay = (none, t.tw.insert m delay) := by
    intro m
    rw [TimingWheel.add, if_neg (not_le.mpr hpos)]
    exact if_neg (by rw [show (t.countPublished msg).tw.closed = false from hopen]; decide)
  rw [publishDelayed, schedule, hadd]
  exact ⟨rfl, rfl⟩

private theorem publishDelayed_of_nonpos (h : delay ≤ 0) :
    (t.publishDelayed msg delay now).ring
      = (t.ring.push { msg with deliverAt := wrap64 (now + delay) }).2 := by
  rw [publishDelayed, schedule, TimingWheel.add, if_pos h]
  rfl

private theorem tw_default (name : Bytes) :
    (Topic.default name).tw = TimingWheel.newTimingWheel (50 * millisecond) 3600 := by
  have h : newTopic name 131072 = some (Topic.default name) := (Option.some_get _).symm
  obtain ⟨ring, -, heq⟩ := Option.map_eq_some_iff.mp h
  rw [← heq]

end Topic

/-! ## Requested delays -/

/-- How a front end asks the broker to publish. -/
inductive Timing where
  | now
  | after (delay : ℤ)
  deriving DecidableEq

namespace Broker

/-- `Publish` or `PublishDelayed`. -/
def publishTimed (b : Broker) (c : Codec) (topicName : Bytes) (payload : Option Bytes) (st : Stamp)
    (now : ℤ) : Timing → Option (Except Bytes Message × Broker)
  | .now => b.publish c topicName payload st
  | .after delay => b.publishDelayed c topicName payload delay st now

/-- The wheel of the topic is running. A topic that is not there yet is made with one that is. -/
def Ticking (b : Broker) (name : Bytes) : Prop := (b.getOrCreateTopic name).1.tw.closed = false

/-- What becomes of a message that is to be published after a delay. An error leaves the ring and
the wheel of the topic as they were. Otherwise the message is in the wheel with exactly this delay,
and the ring is as it was. -/
def Delays (b : Broker) (msg : Message) (delay now : ℤ) (r : Except Bytes Message × Broker) :
    Prop :=
  ∃ t, r.2.getTopic msg.topic = some t ∧ t.ring = (b.getOrCreateTopic msg.topic).1.ring ∧
    match r.1 with
    | .error _ => t.tw = (b.getOrCreateTopic msg.topic).1.tw
    | .ok msg' => msg' = { msg with deliverAt := wrap64 (now + delay) } ∧
        t.tw = (b.getOrCreateTopic msg.topic).1.tw.insert msg' delay

variable {b : Broker} {c : Codec}

private theorem exists_logPublish {msg : Message}
    (hshort : b.wal.isSome → (Entry.publish msg).Short c) :
    ∃ r, b.logPublish c msg = some r ∧ r.2.topics = b.topics := by
  rw [logPublish]
  cases hw : b.wal with
  | none => exact ⟨_, rfl, rfl⟩
  | some w =>
    have hwrite : ∃ r, w.writePublish c msg = some r := by
      cases hclosed : w.closed with
      | true => exact ⟨_, if_pos hclosed⟩
      | false => exact ⟨_, Wal.write_eq hclosed (hshort (by rw [hw]; rfl))⟩
    obtain ⟨r, hr⟩ := hwrite
    simp only [hr, Option.map_some]
    exact ⟨_, rfl, rfl⟩

/-- **A positive delay** that `PublishDelayed` is given is honoured. -/
theorem delays_publishDelayed {topicName : Bytes} {payload : Option Bytes} {st : Stamp}
    {delay : ℤ} (now : ℤ) (hpos : 0 < delay) (hticking : b.Ticking topicName)
    (hshort : b.wal.isSome → (Entry.publish (st.message topicName payload)).Short c) :
    ∃ r, b.publishDelayed c topicName payload delay st now = some r ∧
      b.Delays (st.message topicName payload) delay now r := by
  obtain ⟨⟨res, b'⟩, hlog, htopics⟩ := exists_logPublish (b := (b.getOrCreateTopic topicName).2)
    (b.wal_getOrCreateTopic topicName ▸ hshort)
  obtain ⟨hring, htw⟩ := Topic.publishDelayed_of_pos _ (st.message topicName payload) now hpos
    hticking
  rw [publishDelayed, publishWith]
  change ∃ r, Option.map _ ((b.getOrCreateTopic topicName).2.logPublish c _) = some r ∧ _
  rw [hlog, Option.map_some]
  cases res with
  | error err =>
    refine ⟨_, rfl, _, ?_, rfl, rfl⟩
    change b'.topics.lookup topicName = _
    rw [htopics]
    exact b.lookup_getOrCreateTopic topicName
  | ok =>
    exact ⟨_, rfl, _, AList.lookup_insert _, hring, rfl, htw⟩

end Broker

namespace Server

/-- The choice of `VMQ.PUBLISH`. -/
def timing (args : Args) : Ending Panic Timing := do
  let delay ← publishDelay args
  return if 0 < delay then .after delay else .now

/-- A request with a topic, a payload and a number is never refused on account of the number: the
broker is asked to publish. -/
theorem vmqPublish_eq (srv : Server) (env : Env) (c : Conn) {args : Args} {topicName : Bytes}
    {payload : Option Bytes} {p : Timing} (h0 : args.text 0 = .ok topicName)
    (h1 : args.arg 1 = .ok payload) (hp : timing args = .ok p) :
    vmqPublish srv env c args = (do
      let r ← .ofLog (c.broker.publishTimed srv.codec topicName payload (env.stamp 0) env.now p)
      return (c.answerID r, .flush)) := by
  have hlen : ¬args.length < 2 := by
    intro hlt
    rw [Args.arg, List.getElem?_eq_none (Nat.le_of_lt_succ hlt)] at h1
    cases h1
  rw [timing] at hp
  obtain ⟨delay, hdelay, hp⟩ := Ending.bind_eq_ok.mp hp
  obtain rfl := Ending.ok.inj hp
  rw [vmqPublish, if_neg hlen, h0, h1, hdelay]
  simp only [Ending.ok_bind]
  split
  · rfl
  · rfl

private theorem timing_eq {args : Args} {text : Bytes} {ms : ℤ} (h2 : args.text 2 = .ok text)
    (hms : Text.atoi text = (ms, true)) (hpos : 0 < ms) :
    timing args = .ok (if 0 < wrap64 (ms * millisecond) then .after (wrap64 (ms * millisecond))
      else .now) := by
  have hlen : 3 ≤ args.length := by
    by_contra hlt
    rw [Args.text, Args.arg, List.getElem?_eq_none (Nat.le_of_lt_succ (Nat.not_le.mp hlt))] at h2
    cases h2
  rw [timing, publishDelay, if_pos hlen, h2]
  simp only [Ending.ok_bind, hms, hpos, and_self, if_true]
  rfl

/-- Every `VMQ.PUBLISH` with this number of milliseconds, on a topic whose wheel runs, is answered
with an error, or the message is scheduled with exactly this delay. -/
def HonoursDelay (ms : ℤ) : Prop :=
  ∀ (srv : Server) (env : Env) (c : Conn) (args : Args) (topicName text : Bytes)
    (payload : Option Bytes), args.text 0 = .ok topicName → args.arg 1 = .ok payload →
    args.text 2 = .ok text → Text.atoi text = (ms, true) → c.broker.Ticking topicName →
    (c.broker.wal.isSome →
      (Entry.publish ((env.stamp 0).message topicName payload)).Short srv.codec) →
    ∃ r, vmqPublish srv env c args = .ok (c.answerID r, .flush) ∧
      c.broker.Delays ((env.stamp 0).message topicName payload) (ms * millisecond) env.now r

end Server

/-! ### Over HTTP -/

/-- What `json.Unmarshal` makes of the body of a request to publish: whether there was no error, the
payload as bytes unless it is nil, and the delay. -/
structure PublishRequest where
  ok : Bool
  payload : Option Bytes
  delayMs : ℤ
  inRange : Int64Range delayMs

namespace PublishRequest

/-- The payload of the message, which is the body itself if it cannot be understood. -/
def payloadBytes (req : PublishRequest) (body : Bytes) : Bytes :=
  if req.ok then req.payload.getD body else body

def timing (req : PublishRequest) : Timing :=
  if 0 < req.delayMs then .after (wrap64 (req.delayMs * millisecond)) else .now

end PublishRequest

/-- The HTTP front end of `internal/api/server.go`: the decoding of bodies is a parameter. -/
structure Api where
  codec : Codec
  unmarshal : Bytes → PublishRequest

namespace Api

/-- The answer to a request to publish. -/
inductive Response where
  | error (status : ℕ) (message : Bytes)
  | published (id topic : Bytes)
  deriving DecidableEq

/-- What is answered when the broker has been asked to publish. -/
def answer (topicName : Bytes) (r : Except Bytes Message × Broker) : Response × Broker :=
  match r.1 with
  | .error err => (.error 500 err, r.2)
  | .ok msg => (.published msg.id topicName, r.2)

/-- The action `publish` of `handleTopicAction`; the body may be unreadable. -/
def publish (api : Api) (b : Broker) (topicName : Bytes) (body : Option Bytes) (st : Stamp)
    (now : ℤ) : Option (Response × Broker) :=
  match body with
  | none => some (.error 400 (bytesOf "failed to read request body"), b)
  | some body =>
      (b.publishTimed api.codec topicName (some ((api.unmarshal body).payloadBytes body)) st now
        (api.unmarshal body).timing).map (answer topicName)

/-- Every request over HTTP with this number of milliseconds, for a topic whose wheel runs, is
answered with an error, or the message is scheduled with exactly this delay. -/
def HonoursDelay (ms : ℤ) : Prop :=
  ∀ (api : Api) (b : Broker) (topicName body : Bytes) (st : Stamp) (now : ℤ),
    (api.unmarshal body).delayMs = ms → b.Ticking topicName →
    (b.wal.isSome → (Entry.publish
      (st.message topicName (some ((api.unmarshal body).payloadBytes body)))).Short api.codec) →
    ∃ r, api.publish b topicName (some body) st now = some (answer topicName r) ∧
      b.Delays (st.message topicName (some ((api.unmarshal body).payloadBytes body)))
        (ms * millisecond) now r

end Api

/-! ### What a wrong delay does -/

namespace Broker

private theorem getTopic_publishWith_newBroker {c : Codec} {msg : Message}
    {put : Topic → Option Message × Topic} {r : Except Bytes Message × Broker}
    (h : (newBroker none 0).publishWith c msg put = some r) :
    r.2.getTopic msg.topic = some (put (Topic.default msg.topic)).2 := by
  obtain rfl := Option.some_inj.mp h
  simp only
  split <;> exact AList.lookup_insert _

private theorem wrap64_add_le {delay : ℤ} (h : 2 ^ 63 ≤ delay) :
    wrap64 delay + 2 * (50 * millisecond) ≤ delay := by
  change wrap64 delay + 2 * 50000000 ≤ delay
  rw [wrap64, Int.bmod_def]
  split <;> omega

/-- In a new broker without a log, the ring or the wheel shows any delay but the exact one. -/
private theorem not_delays_publishTimed {c : Codec} {topicName : Bytes} {payload : Option Bytes}
    {st : Stamp} {now delay : ℤ} (hdelay : 2 ^ 63 ≤ delay) {p : Timing}
    (hp : p = .now ∨ p = .after (wrap64 delay)) {r r' : Except Bytes Message × Broker}
    (hr : (newBroker none 0).publishTimed c topicName payload st now p = some r)
    (hsame : r'.2 = r.2) :
    ¬(newBroker none 0).Delays (st.message topicName payload) delay now r' := by
  obtain ⟨haccepts, hempty⟩ := Topic.ring_default topicName
  have hroom : (Topic.default topicName).ring.items.length < saturationCapacity.toNat := by
    rw [hempty]
    decide
  rintro ⟨t, ht, hring, htw⟩
  have hitems : t.ring.items = [] := by
    rw [hring]
    exact hempty
  rw [hsame] at ht
  rcases hp with rfl | rfl
  · -- published at once
    rw [publishTimed, publish] at hr
    obtain rfl := Option.some_inj.mp (ht.symm.trans (getTopic_publishWith_newBroker hr))
    have hpushed : ((Topic.default topicName).runPublish (st.message topicName payload)
        false).2.ring.items = _ := haccepts.items_runPublish hroom
    rw [hempty] at hpushed
    exact absurd (hitems.symm.trans hpushed) (List.cons_ne_nil _ _).symm
  · rw [publishTimed, publishDelayed] at hr
    obtain rfl := Option.some_inj.mp (ht.symm.trans (getTopic_publishWith_newBroker hr))
    by_cases hpos : 0 < wrap64 delay
    · -- scheduled with another delay
      have hwheel := (Topic.publishDelayed_of_pos (Topic.default topicName)
        (st.message topicName payload) now hpos (by rw [Topic.tw_default]; rfl)).2
      -- the two delays are so far apart that they differ in ticks
      have hlt : (Topic.default topicName).tw.ticks (wrap64 delay)
          < (Topic.default topicName).tw.ticks delay := by
        refine TimingWheel.ticks_lt_ticks hpos ?_
        rw [Topic.tw_default]
        exact wrap64_add_le hdelay
      split at htw
      · exact TimingWheel.insert_ne_self _ (hwheel.symm.trans htw)
      · exact hlt.ne (TimingWheel.ticks_eq_of_insert_eq (hwheel.symm.trans htw.2))
    · -- pushed by the wheel
      have hpush := Topic.publishDelayed_of_nonpos (Topic.default topicName)
        (st.message topicName payload) now (not_lt.mp hpos)
      have hpushed := (Ring.push_eq { st.message topicName payload with
        deliverAt := wrap64 (now + wrap64 delay) } (congrArg Prod.snd haccepts) hroom).2.1
      rw [← hpush, hempty] at hpushed
      exact absurd (hitems.symm.trans hpushed) (List.cons_ne_nil _ _).symm

end Broker

/-! ### Which delays are honoured -/

private theorem Ending.eq_some_of_ofLog {α : Type} {x : Option α} {a : α}
    (h : .ofLog x = (.ok a : Ending Panic α)) : x = some a := by
  cases x with
  | none => cases h
  | some b => exact congrArg some (Ending.ok.inj h)

private theorem Conn.broker_answerID (c : Conn) (r : Except Bytes Message × Broker) :
    (c.answerID r).broker = r.2 := by
  rw [answerID]
  split <;> rfl

private theorem Api.snd_answer (topicName : Bytes) (r : Except Bytes Message × Broker) :
    (answer topicName r).2 = r.2 := by
  rw [answer]
  split <;> rfl

private theorem Broker.ticking_newBroker (name : Bytes) : (newBroker none 0).Ticking name := by
  change (Topic.default name).tw.closed = false
  rw [Topic.tw_default]
  rfl

theorem Server.honoursDelay_iff {ms : ℤ} (hpos : 0 < ms) (hrange : Int64Range ms) :
    HonoursDelay ms ↔ ms * millisecond < 2 ^ 63 := by
  have hprod : 0 < ms * millisecond := Int.mul_pos hpos (by decide)
  constructor
  · intro h
    by_contra hlarge
    -- a plain request to a new broker without a log, with the number in its decimal form
    have hnumeral := Text.Numeral.ofNat ms.toNat
    rw [Int.toNat_of_nonneg hpos.le] at hnumeral
    have htext := hnumeral.atoi_eq hrange
    obtain ⟨r', hr', hdelays⟩ := h Session.openServer Session.restingEnv
      Session.firstContact.conn
      [some (bytesOf "q"), some (bytesOf "m"), some (Decimal.ofNat ms.toNat)] (bytesOf "q")
      (Decimal.ofNat ms.toNat) (some (bytesOf "m")) rfl rfl rfl htext
      (Broker.ticking_newBroker _) (fun hsome ↦ absurd hsome Bool.false_ne_true)
    let args : Args :=
      [some (bytesOf "q"), some (bytesOf "m"), some (Decimal.ofNat ms.toNat)]
    have htopic : args.text 0 = .ok (bytesOf "q") := rfl
    have hpayload : args.arg 1 = .ok (some (bytesOf "m")) := rfl
    have htiming : timing args = _ := timing_eq rfl htext hpos
    rw [vmqPublish_eq Session.openServer Session.restingEnv Session.firstContact.conn htopic
      hpayload htiming] at hr'
    obtain ⟨r, hr, heq⟩ := Ending.bind_eq_ok.mp hr'
    have hbroker := congrArg (fun x : Conn × Exit ↦ x.1.broker) (Ending.ok.inj heq)
    simp only [Conn.broker_answerID] at hbroker
    refine Broker.not_delays_publishTimed (not_lt.mp hlarge) ?_ (Ending.eq_some_of_ofLog hr)
      hbroker.symm hdelays
    split
    · exact Or.inr rfl
    · exact Or.inl rfl
  · intro hlt srv env c args topicName text payload h0 h1 h2 hms hticking hshort
    have hexact := (wrap64_eq_self_iff hprod.le).mpr hlt
    have hp := timing_eq h2 hms hpos
    rw [hexact, if_pos hprod] at hp
    obtain ⟨r, hr, hdelays⟩ := Broker.delays_publishDelayed env.now hprod hticking hshort
    refine ⟨r, ?_, hdelays⟩
    rw [vmqPublish_eq srv env c h0 h1 hp, Broker.publishTimed, hr]
    rfl

theorem Api.honoursDelay_iff {ms : ℤ} (hpos : 0 < ms) (hrange : Int64Range ms) :
    HonoursDelay ms ↔ ms * millisecond < 2 ^ 63 := by
  have hprod : 0 < ms * millisecond := Int.mul_pos hpos (by decide)
  constructor
  · intro h
    by_contra hlarge
    obtain ⟨r', hr', hdelays⟩ := h ⟨MessageJson.codec, fun _ ↦ ⟨true, some [], ms, hrange⟩⟩
      (Broker.newBroker none 0) (bytesOf "q") [] (Session.restingEnv.stamp 0) 0 rfl
      (Broker.ticking_newBroker _) (fun hsome ↦ absurd hsome Bool.false_ne_true)
    rw [publish] at hr'
    simp only [PublishRequest.timing, if_pos hpos] at hr'
    obtain ⟨r, hr, heq⟩ := Option.map_eq_some_iff.mp hr'
    have hbroker := congrArg Prod.snd heq
    rw [snd_answer, snd_answer] at hbroker
    exact Broker.not_delays_publishTimed (not_lt.mp hlarge) (Or.inr rfl) hr hbroker.symm hdelays
  · rintro hlt api b topicName body st now rfl hticking hshort
    have hexact := (wrap64_eq_self_iff hprod.le).mpr hlt
    obtain ⟨r, hr, hdelays⟩ := Broker.delays_publishDelayed now hprod hticking hshort
    refine ⟨r, ?_, hdelays⟩
    rw [Api.publish]
    simp only [PublishRequest.timing, if_pos hpos, hexact, Broker.publishTimed, hr]
    rfl

/-- **Requested delays.** On a topic whose wheel runs, a positive number of milliseconds is
honoured, by `VMQ.PUBLISH` as well as over HTTP, exactly if so many nanoseconds fit into 63 bits. -/
theorem honoursDelay_iff_lt (ms : ℤ) (hpos : 0 < ms) (hrange : Int64Range ms) :
    (Server.HonoursDelay ms ↔ ms * millisecond < 2 ^ 63) ∧
      (Api.HonoursDelay ms ↔ ms * millisecond < 2 ^ 63) :=
  ⟨Server.honoursDelay_iff hpos hrange, Api.honoursDelay_iff hpos hrange⟩

/-- A delay of a day. -/
theorem honoursDelay_day : Server.HonoursDelay 86400000 ∧ Api.HonoursDelay 86400000 :=
  ⟨(honoursDelay_iff_lt 86400000 (by decide) (by decide)).1.mpr (by decide),
    (honoursDelay_iff_lt 86400000 (by decide) (by decide)).2.mpr (by decide)⟩

private def hugeDelayApi : Api :=
  ⟨MessageJson.codec, fun _ ↦ ⟨true, some (bytesOf "m"), 9223372036855, by decide⟩⟩

/-- After 292 years and a bit, the product is negative: `VMQ.PUBLISH` publishes at once, and so does
the wheel that is given the delay over HTTP. The message is in the ring. -/
theorem huge_delay_published_now :
    (Session.firstContact.step Session.openServer (.command ⟨bytesOf "VMQ.PUBLISH",
        [some (bytesOf "q"), some (bytesOf "m"), some (bytesOf "9223372036855")]⟩ 0
        Session.restingEnv)).map
        (fun s ↦ (s.conn.broker.ringItems (bytesOf "q")).map Message.payload)
        = some [some (bytesOf "m")] ∧
      PublishRequest.timing ⟨true, some (bytesOf "m"), 9223372036855, by decide⟩
        = .after (-9223372036854551616) ∧
      (hugeDelayApi.publish (Broker.newBroker none 0) (bytesOf "q") (some [])
        (Session.restingEnv.stamp 0) 0).map
        (fun r ↦ (r.2.ringItems (bytesOf "q")).map Message.payload)
        = some [some (bytesOf "m")] ∧
      ¬Server.HonoursDelay 9223372036855 ∧ ¬Api.HonoursDelay 9223372036855 := by
  refine ⟨by decide +kernel, by decide +kernel, by decide +kernel, fun h ↦ ?_, fun h ↦ ?_⟩
  · exact absurd ((Server.honoursDelay_iff (by decide) (by decide)).mp h) (by decide)
  · exact absurd ((Api.honoursDelay_iff (by decide) (by decide)).mp h) (by decide)

/-! ## Backoff -/

namespace ConsumerGroup

/-- The delay of the `n`-th retry, as it is documented. -/
def documentedBackoff (n : ℕ) : ℤ := min (100 * millisecond * 2 ^ (n - 1)) (10 * second)

private theorem documentedBackoff_pos (n : ℕ) : 0 < documentedBackoff n := by
  have hpow : (0 : ℤ) < 2 ^ (n - 1) := by positivity
  exact lt_min (Int.mul_pos (by decide) hpow) (by decide)

private theorem documentedBackoff_mono {m n : ℕ} (h : m ≤ n) :
    documentedBackoff m ≤ documentedBackoff n := by
  have hpow : (2 : ℤ) ^ (m - 1) ≤ 2 ^ (n - 1) :=
    pow_le_pow_right₀ (by decide) (Nat.sub_le_sub_right h 1)
  exact min_le_min_right _ (Int.mul_le_mul_of_nonneg_left hpow (by decide))

/-- The retries whose delay is not spoiled by an overflow: up to 37, and a few later ones where the
product wraps around to something above the cap. -/
def UnspoiledRetry (n : ℕ) : Prop := n ≤ 37 ∨ n ∈ [39, 45, 47, 52, 53, 54, 55]

instance (n : ℕ) : Decidable (UnspoiledRetry n) := inferInstanceAs (Decidable (_ ∨ _))

private theorem backoff_of_le {k : ℤ} (h : 64 ≤ k) (hrange : k < 2 ^ 63 - 1) :
    backoff (k + 1) = some 0 := by
  have hshift : wrap64 (k + 1 - 1) = k := by
    rw [Int.add_sub_cancel]
    exact wrap64_of_mem (by omega) (by omega)
  rw [backoff, hshift, shiftOne, if_neg (by omega), if_pos h]
  rfl

private theorem backoff_exact_of_lt : ∀ k < 64, ∃ delay, backoff ((k : ℕ) + 1) = some delay ∧
    (delay = documentedBackoff (k + 1) ↔ UnspoiledRetry (k + 1)) ∧
    (0 < delay ↔ UnspoiledRetry (k + 1)) := by
  have hcheck : ∀ k < 64, ∃ delay ∈ backoff ((k : ℕ) + 1),
      (delay = documentedBackoff (k + 1) ↔ UnspoiledRetry (k + 1)) ∧
      (0 < delay ↔ UnspoiledRetry (k + 1)) := by
    decide +kernel
  exact hcheck

private theorem exists_backoff {k : ℕ} (hrange : (k : ℤ) < 2 ^ 63 - 1) :
    ∃ delay, backoff (k + 1) = some delay ∧
      (delay = documentedBackoff (k + 1) ↔ UnspoiledRetry (k + 1)) ∧
      (0 < delay ↔ UnspoiledRetry (k + 1)) := by
  rcases Nat.lt_or_ge k 64 with hk | hk
  · exact backoff_exact_of_lt k hk
  · have hspoiled : ¬UnspoiledRetry (k + 1) := by
      rintro (h | h)
      · omega
      · simp only [List.mem_cons, List.not_mem_nil, or_false] at h
        omega
    exact ⟨0, backoff_of_le (by exact_mod_cast hk) hrange,
      iff_of_false (documentedBackoff_pos _).ne hspoiled, iff_of_false (lt_irrefl 0) hspoiled⟩

end ConsumerGroup

/-- **Backoff.** A `Nack` that leaves retries schedules the message, and the delay of the `n`-th
retry is the documented one exactly if no overflow has spoiled it; otherwise it is not even
positive, and the wheel requeues the message at once. The documented delays are positive, at most
ten seconds, and do not decrease. -/
theorem Topic.nack_backoff_iff (t : Topic) (groupName msgID reason : Bytes) (now : ℤ)
    (cg : ConsumerGroup) (pending : PendingMessage) (hcg : t.groups.lookup groupName = some cg)
    (hpending : cg.pel.lookup msgID = some pending) (hnonneg : 0 ≤ pending.message.retryCount)
    (hlt : pending.message.retryCount + 1 < pending.message.maxRetries)
    (hrange : Int64Range pending.message.maxRetries) :
    ∃ delay,
      t.runNack groupName msgID reason now = some (true,
        { (t.setGroup groupName (cg.delete msgID)).schedule
            (ConsumerGroup.fail pending.message reason) delay with nacked := t.nacked + 1 }) ∧
      ConsumerGroup.nackRoute (ConsumerGroup.fail pending.message reason) = some (.retry delay) ∧
      (delay = ConsumerGroup.documentedBackoff (pending.message.retryCount.toNat + 1) ↔
        ConsumerGroup.UnspoiledRetry (pending.message.retryCount.toNat + 1)) ∧
      (0 < delay ∧ delay ≤ 10 * second ↔
        ConsumerGroup.UnspoiledRetry (pending.message.retryCount.toNat + 1)) ∧
      ConsumerGroup.documentedBackoff (pending.message.retryCount.toNat + 1)
        ≤ ConsumerGroup.documentedBackoff (pending.message.retryCount.toNat + 2) := by
  have hmax := hrange.2
  obtain ⟨k, hk⟩ := Int.eq_ofNat_of_zero_le hnonneg
  have hcount : (ConsumerGroup.fail pending.message reason).retryCount = k + 1 := by
    rw [← hk]
    exact wrap64_of_mem (by omega) (by omega)
  obtain ⟨delay, hdelay, hexact, hpos⟩ :=
    ConsumerGroup.exists_backoff (k := k) (by omega)
  have hroute : ConsumerGroup.nackRoute (ConsumerGroup.fail pending.message reason)
      = some (.retry delay) := by
    have hbudget : ¬(ConsumerGroup.fail pending.message reason).maxRetries ≤ (k : ℤ) + 1 :=
      not_le.mpr (hk ▸ hlt)
    rw [ConsumerGroup.nackRoute, hcount, if_neg hbudget, hdelay]
    rfl
  have hk' : pending.message.retryCount.toNat = k := by rw [hk, Int.toNat_natCast]
  rw [hk']
  refine ⟨delay, ?_, hroute, hexact, ?_, ConsumerGroup.documentedBackoff_mono (Nat.le_succ _)⟩
  · rw [runNack, hcg, Option.bind_some, ConsumerGroup.nackTake, hpending]
    simp only [Option.map_some, hroute]
    rfl
  · rw [← hpos, and_iff_left_iff_imp]
    intro h
    rw [hexact.mpr (hpos.mp h)]
    exact min_le_right _ _

private def firstDelivery : PendingMessage :=
  ⟨(ConsumerGroup.newConsumerGroup (bytesOf "g") (bytesOf "q") 0).stamp
    (Message.newMessage (bytesOf "q") none 0 1 []) (bytesOf "c") 0 0, bytesOf "c", 0, 30 * second⟩

private def topicDelivering : Topic :=
  (Topic.default (bytesOf "q")).setGroup (bytesOf "g")
    ((ConsumerGroup.newConsumerGroup (bytesOf "g") (bytesOf "q") 0).checkout
      (Message.newMessage (bytesOf "q") none 0 1 []) (bytesOf "c") 0 0)

/-- The first retry comes after 100 milliseconds. -/
theorem Topic.nack_backoff_first :
    (∃ t, topicDelivering.runNack (bytesOf "g") firstDelivery.message.id (bytesOf "no") 0
        = some (true, t)) ∧
      ConsumerGroup.nackRoute (ConsumerGroup.fail firstDelivery.message (bytesOf "no"))
        = some (.retry (100 * millisecond)) := by
  obtain ⟨delay, hrun, hroute, hexact, -⟩ := Topic.nack_backoff_iff topicDelivering (bytesOf "g")
    firstDelivery.message.id (bytesOf "no") 0 _ firstDelivery (AList.lookup_insert _)
    (AList.lookup_insert _) (by decide) (by decide) (by decide)
  obtain rfl := hexact.mpr (by decide)
  exact ⟨⟨_, hrun⟩, hroute⟩

/-- The 38th retry of a message that may be retried a hundred times: the product is negative, and
the message is back in the queue at once. -/
theorem Topic.nack_backoff_wraps :
    ConsumerGroup.nackRoute (ConsumerGroup.fail
        { Message.newMessage (bytesOf "q") none 0 1 [] with retryCount := 37, maxRetries := 100 }
        (bytesOf "no")) = some (.retry (-4702848726509551616)) ∧
      ConsumerGroup.documentedBackoff 38 = 10 * second ∧
      ∀ (t : Topic) (msg : Message),
        t.schedule msg (-4702848726509551616) = t.onExpire msg := by
  refine ⟨by decide +kernel, by decide +kernel, fun t msg ↦ ?_⟩
  rw [schedule, TimingWheel.add, if_pos (by decide)]

end VortexMQ
