import VortexMQ.Network.Server
import VortexMQ.Protocol.Value
import VortexMQ.Queue.BrokerLog

/-!
# What the cases do

One specification for each case of the switch, and from these one for the whole switch: it writes
exactly one reply, it leaves in the way that its verb and its arguments say, and it comes to grief
only in the log, unless there is something in the broker to trip over.

The replies are the methods of the writer that the cases call. All of them add one value of the
protocol to the stream, as long as the texts of errors fit in a line.
-/

namespace VortexMQ

/-! ## Replies -/

/-- One call of a method of the writer. -/
inductive Reply where
  | error (msg : Bytes)
  | raw (data : Bytes)
  | integer (n : ℤ)
  | bulk (b : Option Bytes)
  | array (elements : List (Option Bytes))

namespace Reply

/-- Make the call. -/
def write (w : Writer) : Reply → Writer
  | .error msg => w.writeError msg
  | .raw data => w.writeRaw data
  | .integer n => w.writeInteger n
  | .bulk b => w.writeBulkString b
  | .array elements => w.writeArray (some elements)

/-- Errors fit in a line, and raw bytes are those of a constant. -/
def Proper : Reply → Prop
  | .error msg => Resp.Plain msg
  | .raw data => data ∈ [Resp.ok, Resp.pong, Resp.nullBulk, Resp.emptyArray]
  | _ => True

end Reply

/-! ## Arguments -/

namespace Args

variable {args : Args} {i : ℕ}

theorem arg_eq (h : i < args.length) : args.arg i = .ok args[i] := by
  rw [arg, List.getElem?_eq_getElem h]
  rfl

theorem text_eq (h : i < args.length) : args.text i = .ok (args[i].getD []) := by
  rw [text, arg_eq h]
  rfl

theorem after_eq (h : i ≤ args.length) : args.after i = .ok (args.drop i) := if_pos h

end Args

/-! ## The broker -/

namespace Broker

/-- Nothing that a command could trip over: no closed Go channel in the maps, and no message in a
pending list whose next failure would make the shift count negative. -/
structure Safe (b : Broker) : Prop where
  channels : ∀ name subs, b.channels.lookup name = some subs →
    ∀ sub ∈ subs, Subscriber.closed sub = false
  shifts : ∀ name t, b.topics.lookup name = some t → ∀ groupName cg,
    t.groups.lookup groupName = some cg → ∀ msgID pending, cg.pel.lookup msgID = some pending →
      0 ≤ pending.message.retryCount ∧ pending.message.retryCount < 2 ^ 62

variable {b : Broker} {c : Codec}

private theorem lookup_publishWith {msg : Message} {put : Topic → Option Message × Topic}
    {r : Except Bytes Message × Broker} (h : b.publishWith c msg put = some r) :
    (r.2.topics.lookup msg.topic).isSome := by
  rw [publishWith, Option.map_eq_some_iff] at h
  obtain ⟨⟨err, b'⟩, hlog, rfl⟩ := h
  have htopics : b'.topics = (b.getOrCreateTopic msg.topic).2.topics := by
    rw [logPublish] at hlog
    split at hlog
    · rw [← (Prod.mk.inj (Option.some_inj.mp hlog)).2]
    · obtain ⟨_, -, heq⟩ := Option.map_eq_some_iff.mp hlog
      rw [← (Prod.mk.inj heq).2]
  cases err with
  | error err =>
    rw [htopics, lookup_getOrCreateTopic]
    rfl
  | ok _ =>
    simp only
    split
    · rw [setTopic, AList.lookup_insert]
      rfl
    · change ((b'.setTopic _ _).topics.lookup _).isSome = true
      rw [setTopic, AList.lookup_insert]
      rfl

private theorem plain_of_publishWith {msg : Message} {put : Topic → Option Message × Topic}
    {err : Bytes}
    {b' : Broker} (h : b.publishWith c msg put = some (.error err, b')) : Resp.Plain err := by
  rw [publishWith, Option.map_eq_some_iff] at h
  obtain ⟨⟨res, b''⟩, hlog, heq⟩ := h
  cases res with
  | error err' =>
    obtain rfl : err' = err := Except.error.inj (Prod.mk.inj heq).1
    rw [logPublish] at hlog
    split at hlog
    · cases (Prod.mk.inj (Option.some_inj.mp hlog)).1
    · obtain ⟨⟨res, w'⟩, hwrite, heq⟩ := Option.map_eq_some_iff.mp hlog
      obtain rfl : res = .error err' := (Prod.mk.inj heq).1
      rw [Wal.writePublish, Wal.writeRecord] at hwrite
      split at hwrite
      · obtain rfl : Wal.errClosed = err' :=
          Except.error.inj (Prod.mk.inj (Option.some_inj.mp hwrite)).1
        decide
      · obtain ⟨_, -, heq⟩ := Option.map_eq_some_iff.mp hwrite
        cases (Prod.mk.inj heq).1
  | ok _ =>
    simp only at heq
    split at heq
    · obtain rfl : errRejected = err := Except.error.inj (Prod.mk.inj heq).1
      decide
    · cases (Prod.mk.inj heq).1

end Broker

theorem ConsumerGroup.nackRoute_fail_isSome {msg : Message} (h : 0 ≤ msg.retryCount)
    (hlt : msg.retryCount < 2 ^ 62) (cause : Bytes) :
    (nackRoute (fail msg cause)).isSome := by
  have hcount : (fail msg cause).retryCount = msg.retryCount + 1 :=
    wrap64_of_mem (by omega) (by omega)
  have hshift : wrap64 (msg.retryCount + 1 - 1) = msg.retryCount := by
    rw [Int.add_sub_cancel]
    exact wrap64_of_mem (by omega) (by omega)
  rw [nackRoute]
  split
  · rfl
  · rw [Option.isSome_map, backoff, Option.isSome_map, hcount, hshift, shiftOne,
      if_neg (not_lt.mpr h)]
    split <;> rfl

theorem Broker.Safe.nack_isSome {b : Broker} (h : b.Safe) (topicName groupName msgID reason : Bytes)
    (now : ℤ) : (b.nack topicName groupName msgID reason now).isSome := by
  rw [nack, getTopic]
  split
  · rfl
  · rename_i t ht
    rw [Option.isSome_map, Topic.runNack]
    split
    · rfl
    · rename_i msg cg htake
      obtain ⟨cg', hcg', htake⟩ := Option.bind_eq_some_iff.mp htake
      obtain ⟨pending, hpending, heq⟩ := Option.map_eq_some_iff.mp htake
      obtain ⟨hnonneg, hlt⟩ := h.shifts topicName t ht groupName cg' hcg' msgID pending hpending
      rw [Option.isSome_map, ← (Prod.mk.inj heq).1]
      exact ConsumerGroup.nackRoute_fail_isSome hnonneg hlt reason

/-! ## Specifications of the cases -/

namespace Server

/-- The arguments of `XREADGROUP` do not give both a topic and a group. -/
def Incomplete (srv : Server) (args : Args) : Prop :=
  match srv.parseGroupRead args 0 with
  | .ok q => q.topicName = [] ∨ q.groupName = []
  | _ => False

instance (srv : Server) (args : Args) : Decidable (srv.Incomplete args) := by
  unfold Incomplete
  split <;> infer_instance

/-- How a case leaves the switch. -/
def exitOf (srv : Server) (args : Args) : Verb → Exit
  | .xadd => if args.length < 3 then .skip else .flush
  | .xreadgroup => if srv.Incomplete args then .skip else .flush
  | .xack => if args.length < 3 then .skip else .flush
  | .vmqPublish => if args.length < 2 then .skip else .flush
  | .vmqConsume => if args.length < 1 then .skip else .flush
  | .vmqAck => if args.length ≠ 3 then .skip else .flush
  | .vmqNack => if args.length < 3 then .skip else .flush
  | .vmqReplay => if args.length ≠ 2 then .skip else .flush
  | .quit => .quit
  | _ => .flush

/-- One reply has been written, and nobody has been logged out. -/
structure Replied (c c' : Conn) : Prop where
  reply : ∃ reply : Reply, reply.Proper ∧ c'.writer = reply.write c.writer
  loggedIn : c.authenticated = true → c'.authenticated = true

/-- The panics that are possible. -/
def Mishap (c : Conn) (e : Panic) : Prop := c.broker.Safe → e = .log

abbrev Replies (c : Conn) (x : Ending Panic Conn) : Prop := x.Sat (Replied c) (Mishap c)

abbrev Answers (c : Conn) (exit : Exit) (x : Ending Panic (Conn × Exit)) : Prop :=
  x.Sat (fun r ↦ Replied c r.1 ∧ r.2 = exit) (Mishap c)

variable {srv : Server} {env : Env} {c : Conn} {args : Args} {b : Broker}

theorem Replies.thenFlush {x : Ending Panic Conn} (h : Replies c x) :
    Answers c .flush (thenFlush x) :=
  h.bind fun _ hc ↦ ⟨hc, rfl⟩

theorem replied_error {msg : Bytes} (h : Resp.Plain msg) :
    Replied c ({ c with broker := b }.error msg) := ⟨⟨.error msg, h, rfl⟩, id⟩

theorem replied_raw {data : Bytes}
    (h : data ∈ [Resp.ok, Resp.pong, Resp.nullBulk, Resp.emptyArray]) :
    Replied c ({ c with broker := b }.raw data) := ⟨⟨.raw data, h, rfl⟩, id⟩

theorem replied_integer (n : ℤ) : Replied c ({ c with broker := b }.integer n) :=
  ⟨⟨.integer n, trivial, rfl⟩, id⟩

theorem replied_bulk (p : Option Bytes) : Replied c ({ c with broker := b }.bulk p) :=
  ⟨⟨.bulk p, trivial, rfl⟩, id⟩

theorem replied_array (elements : List (Option Bytes)) :
    Replied c ({ c with broker := b }.array elements) := ⟨⟨.array elements, trivial, rfl⟩, id⟩

theorem replied_answerOK {ok : Bool} {rejected : Bytes} (h : Resp.Plain rejected) :
    Replied c (c.answerOK ok b rejected) := by
  rw [Conn.answerOK]
  split
  · exact replied_raw (by decide)
  · exact replied_error h

theorem replied_answerID {codec : Codec} {msg : Message} {put : Topic → Option Message × Topic}
    {r : Except Bytes Message × Broker} (h : b.publishWith codec msg put = some r) :
    Replied c (c.answerID r) := by
  obtain ⟨res, b'⟩ := r
  cases res with
  | error err => exact replied_error (Broker.plain_of_publishWith h)
  | ok msg => exact replied_bulk _

theorem sat_ofLog {α : Type} {x : Option α} {P : α → Prop} (h : ∀ a, x = some a → P a) :
    (Ending.ofLog x).Sat P (Mishap c) :=
  Ending.sat_ofOption h fun _ _ ↦ rfl

theorem sat_ofPop {α : Type} {x : Option α} {P : α → Prop} (h : ∀ a, x = some a → P a) :
    (Ending.ofPop x).Sat P (Mishap c) :=
  Ending.sat_ofOption h fun _ ↦ trivial

private theorem ping_spec : Replies c (ping c args) := by
  rw [ping]
  split
  · rename_i h
    rw [Args.arg_eq h]
    exact replied_bulk _
  · exact replied_raw (by decide)

private theorem echo_spec : Replies c (echo c args) := by
  rw [echo]
  split
  · rename_i h
    rw [Args.arg_eq h]
    exact replied_bulk _
  · exact replied_error (by decide)

private theorem auth_spec : Replies c (srv.auth c args) := by
  rw [auth]
  split
  · exact replied_error (by decide)
  · rename_i h
    rw [Args.text_eq (show 0 < args.length by omega), Ending.ok_bind]
    split
    · exact ⟨⟨.raw Resp.ok, List.mem_cons_self, rfl⟩, fun _ ↦ rfl⟩
    · split
      · exact ⟨⟨.raw Resp.ok, List.mem_cons_self, rfl⟩, fun _ ↦ rfl⟩
      · exact replied_error (by decide)

theorem pushAll_spec (front : Bool) (topicName : Bytes) : ∀ (vals : Args) (i : ℕ) (b : Broker),
    (vals ≠ [] ∨ (b.getTopic topicName).isSome) →
      (srv.pushAll env front topicName vals i b).Sat (fun b' ↦ (b'.getTopic topicName).isSome)
        (Mishap c) := by
  intro vals
  induction vals with
  | nil => intro i b h; exact h.resolve_left fun hne ↦ hne rfl
  | cons val vals ih =>
    intro i b _
    refine Ending.Sat.bind (sat_ofLog fun r hr ↦ ?_) fun r hr ↦ ih (i + 1) r.2 (Or.inr hr)
    cases front with
    | true => exact Broker.lookup_publishWith hr
    | false => exact Broker.lookup_publishWith hr

private theorem pushWith_spec (front : Bool) {usage : Bytes} (husage : Resp.Plain usage) :
    Replies c (srv.pushWith env c args front usage) := by
  rw [pushWith]
  split
  · exact replied_error husage
  · rename_i h
    have hne : args.drop 1 ≠ [] := by
      rw [ne_eq, List.drop_eq_nil_iff]
      omega
    rw [Args.text_eq (show 0 < args.length by omega), Ending.ok_bind,
      Args.after_eq (show 1 ≤ args.length by omega), Ending.ok_bind]
    refine (pushAll_spec front _ _ 0 _ (Or.inl hne)).bind fun b hb ↦ ?_
    obtain ⟨t, ht⟩ := Option.isSome_iff_exists.mp hb
    rw [ht]
    exact replied_integer _

private theorem popWith_spec {usage : Bytes} (husage : Resp.Plain usage) :
    Replies c (popWith c args usage) := by
  rw [popWith]
  split
  · exact replied_error husage
  · rename_i h
    rw [Args.text_eq (show 0 < args.length by omega), Ending.ok_bind]
    exact (sat_ofPop fun _ _ ↦ trivial).bind fun r _ ↦ replied_bulk _

private theorem brpop_spec : Replies c (brpop c args) := by
  rw [brpop]
  split
  · exact replied_error (by decide)
  · rename_i h
    rw [Args.text_eq (show 0 < args.length by omega), Ending.ok_bind,
      Args.text_eq (show args.length - 1 < args.length by omega), Ending.ok_bind]
    refine (sat_ofPop fun _ _ ↦ trivial).bind fun r _ ↦ ?_
    split
    · exact replied_raw (by decide)
    · exact replied_array _

private theorem llen_spec : Replies c (llen c args) := by
  rw [llen]
  split
  · exact replied_error (by decide)
  · rename_i h
    rw [Args.text_eq (show 0 < args.length by omega), Ending.ok_bind]
    split
    · exact replied_integer _
    · exact replied_integer _

private theorem payloadMap_spec (args : Args) : ∀ (fuel i : ℕ) (m : List (Bytes × Bytes)),
    ∃ m', payloadMap args fuel i m = .ok m' := by
  intro fuel
  induction fuel with
  | zero => intro i m; exact ⟨m, rfl⟩
  | succ fuel ih =>
    intro i m
    rw [payloadMap]
    split
    · rename_i h
      rw [Args.text_eq (Nat.lt_of_succ_lt h), Ending.ok_bind, Args.text_eq h, Ending.ok_bind]
      exact ih _ _
    · exact ⟨m, rfl⟩

private theorem xadd_spec : Answers c (srv.exitOf args .xadd) (srv.xadd env c args) := by
  rw [xadd, exitOf]
  split
  · exact ⟨replied_error (by decide), rfl⟩
  · rename_i h
    obtain ⟨m, hm⟩ := payloadMap_spec (args.drop 2) (args.drop 2).length 0 []
    rw [Args.text_eq (show 0 < args.length by omega), Ending.ok_bind,
      Args.after_eq (show 2 ≤ args.length by omega), Ending.ok_bind, hm, Ending.ok_bind]
    refine (sat_ofLog fun r hr ↦ hr).bind fun r hr ↦ ?_
    exact ⟨replied_answerID hr, rfl⟩

private theorem isCreate_spec (srv : Server) (args : Args) :
    ∃ create, srv.isCreate args = .ok create ∧ (create = true → 4 ≤ args.length) := by
  rw [isCreate]
  split
  · rename_i h
    rw [Args.text_eq (show 0 < args.length by omega)]
    exact ⟨_, rfl, fun _ ↦ h⟩
  · exact ⟨false, rfl, fun h ↦ absurd h Bool.false_ne_true⟩

private theorem xgroup_spec : Replies c (srv.xgroup c args) := by
  obtain ⟨create, hcreate, hlen⟩ := isCreate_spec srv args
  rw [xgroup, hcreate, Ending.ok_bind]
  split
  · rename_i h
    have hlen := hlen h
    rw [Args.text_eq (show 1 < args.length by omega), Ending.ok_bind,
      Args.text_eq (show 2 < args.length by omega)]
    exact replied_raw (by decide)
  · exact replied_error (by decide)

private theorem groupRead_spec : ∀ (fuel i : ℕ) (q : GroupRead),
    ∃ q', srv.groupRead args fuel i q = .ok q' := by
  intro fuel
  induction fuel with
  | zero => intro i q; exact ⟨q, rfl⟩
  | succ fuel ih =>
    intro i q
    rw [groupRead]
    split
    · rename_i h
      rw [Args.text_eq h, Ending.ok_bind]
      dsimp only
      split
      · rename_i hgroup
        rw [Args.text_eq (Nat.lt_of_succ_lt hgroup.2), Ending.ok_bind, Args.text_eq hgroup.2,
          Ending.ok_bind]
        exact ih _ _
      · split
        · rename_i hblock
          rw [Args.text_eq hblock.2, Ending.ok_bind]
          exact ih _ _
        · split
          · rename_i hstreams
            rw [Args.text_eq hstreams.2, Ending.ok_bind]
            exact ⟨_, rfl⟩
          · exact ih _ _
    · exact ⟨q, rfl⟩

private theorem xreadgroup_spec : Answers c (srv.exitOf args .xreadgroup)
    (srv.xreadgroup env c args) := by
  obtain ⟨q, hq⟩ : ∃ q, srv.parseGroupRead args 0 = .ok q := groupRead_spec _ _ _
  have hincomplete : srv.Incomplete args ↔ q.topicName = [] ∨ q.groupName = [] := by
    rw [Incomplete, hq]
  rw [xreadgroup, exitOf, hq, Ending.ok_bind]
  by_cases h : q.topicName = [] ∨ q.groupName = []
  · rw [if_pos h, if_pos (hincomplete.mpr h)]
    exact ⟨replied_error (by decide), rfl⟩
  · rw [if_neg h, if_neg fun hi ↦ h (hincomplete.mp hi)]
    refine (sat_ofPop fun _ _ ↦ trivial).bind fun r _ ↦ ?_
    split
    · exact ⟨replied_raw (by decide), rfl⟩
    · exact ⟨replied_array _, rfl⟩

private theorem ackAll_spec (topicName groupName : Bytes) : ∀ (ids : Args) (n : ℤ) (b : Broker),
    (ackAll topicName groupName ids n b).Sat (fun _ ↦ True) (Mishap c) := by
  intro ids
  induction ids with
  | nil => intro n b; trivial
  | cons id ids ih => intro n b; exact (sat_ofLog fun _ _ ↦ trivial).bind fun r _ ↦ ih _ _

private theorem xack_spec : Answers c (srv.exitOf args .xack) (xack c args) := by
  rw [xack, exitOf]
  split
  · exact ⟨replied_error (by decide), rfl⟩
  · rename_i h
    rw [Args.text_eq (show 0 < args.length by omega), Ending.ok_bind,
      Args.text_eq (show 1 < args.length by omega), Ending.ok_bind,
      Args.after_eq (show 2 ≤ args.length by omega), Ending.ok_bind]
    exact (ackAll_spec _ _ _ _ _).bind fun r _ ↦ ⟨replied_integer _, rfl⟩

private theorem publishDelay_spec (args : Args) : ∃ delay, publishDelay args = .ok delay := by
  rw [publishDelay]
  split
  · rename_i h
    rw [Args.text_eq (show 2 < args.length by omega)]
    exact ⟨_, rfl⟩
  · exact ⟨0, rfl⟩

private theorem vmqPublish_spec : Answers c (srv.exitOf args .vmqPublish)
    (srv.vmqPublish env c args) := by
  rw [vmqPublish, exitOf]
  split
  · exact ⟨replied_error (by decide), rfl⟩
  · rename_i h
    obtain ⟨delay, hdelay⟩ := publishDelay_spec args
    rw [Args.text_eq (show 0 < args.length by omega), Ending.ok_bind,
      Args.arg_eq (show 1 < args.length by omega), Ending.ok_bind, hdelay, Ending.ok_bind]
    refine (sat_ofLog fun r hr ↦ hr).bind fun r hr ↦ ⟨?_, rfl⟩
    split at hr
    · exact replied_answerID hr
    · exact replied_answerID hr

private theorem consumeTimeout_spec (args : Args) :
    ∃ timeout, consumeTimeout args = .ok timeout := by
  rw [consumeTimeout]
  split
  · rename_i h
    rw [Args.text_eq (show 1 < args.length by omega)]
    exact ⟨_, rfl⟩
  · exact ⟨0, rfl⟩

private theorem vmqConsume_spec : Answers c (srv.exitOf args .vmqConsume) (vmqConsume c args) := by
  rw [vmqConsume, exitOf]
  split
  · exact ⟨replied_error (by decide), rfl⟩
  · rename_i h
    obtain ⟨timeout, htimeout⟩ := consumeTimeout_spec args
    rw [Args.text_eq (show 0 < args.length by omega), Ending.ok_bind, htimeout, Ending.ok_bind]
    refine (sat_ofPop fun _ _ ↦ trivial).bind fun r _ ↦ ?_
    split
    · exact ⟨replied_raw (by decide), rfl⟩
    · exact ⟨replied_bulk _, rfl⟩

private theorem vmqAck_spec : Answers c (srv.exitOf args .vmqAck) (vmqAck c args) := by
  rw [vmqAck, exitOf]
  split
  · exact ⟨replied_error (by decide), rfl⟩
  · rename_i h
    rw [Args.text_eq (show 0 < args.length by omega), Ending.ok_bind,
      Args.text_eq (show 1 < args.length by omega), Ending.ok_bind,
      Args.text_eq (show 2 < args.length by omega), Ending.ok_bind]
    exact (sat_ofLog fun _ _ ↦ trivial).bind fun r _ ↦ ⟨replied_answerOK (by decide), rfl⟩

private theorem nackReason_spec (args : Args) : ∃ reason, nackReason args = .ok reason := by
  rw [nackReason]
  split
  · rename_i h
    rw [Args.text_eq (show 3 < args.length by omega)]
    exact ⟨_, rfl⟩
  · exact ⟨_, rfl⟩

private theorem vmqNack_spec : Answers c (srv.exitOf args .vmqNack) (vmqNack env c args) := by
  rw [vmqNack, exitOf]
  split
  · exact ⟨replied_error (by decide), rfl⟩
  · rename_i h
    obtain ⟨reason, hreason⟩ := nackReason_spec args
    rw [hreason, Ending.ok_bind, Args.text_eq (show 0 < args.length by omega), Ending.ok_bind,
      Args.text_eq (show 1 < args.length by omega), Ending.ok_bind,
      Args.text_eq (show 2 < args.length by omega), Ending.ok_bind]
    refine Ending.Sat.bind (P := fun _ ↦ True) ?_ fun r _ ↦ ⟨replied_answerOK (by decide), rfl⟩
    refine Ending.sat_ofOption (fun _ _ ↦ trivial) fun hnone ↦ ?_
    intro hsafe
    have hsome := hsafe.nack_isSome (args[0].getD []) (args[1].getD []) (args[2].getD []) reason
      env.now
    rw [hnone] at hsome
    exact absurd hsome Bool.false_ne_true

private theorem vmqReplay_spec : Answers c (srv.exitOf args .vmqReplay) (vmqReplay env c args) := by
  rw [vmqReplay, exitOf]
  split
  · exact ⟨replied_error (by decide), rfl⟩
  · rename_i h
    rw [Args.text_eq (show 0 < args.length by omega), Ending.ok_bind,
      Args.text_eq (show 1 < args.length by omega), Ending.ok_bind]
    exact ⟨replied_answerOK (by decide), rfl⟩

private theorem vmqPublishBatch_spec : Replies c (srv.vmqPublishBatch env c args) := by
  rw [vmqPublishBatch]
  split
  · exact replied_error (by decide)
  · rename_i h
    rw [Args.text_eq (show 0 < args.length by omega), Ending.ok_bind,
      Args.after_eq (show 1 ≤ args.length by omega), Ending.ok_bind]
    exact (sat_ofLog fun _ _ ↦ trivial).bind fun r _ ↦ replied_integer _

private theorem vmqBroadcast_spec : Replies c (vmqBroadcast c args) := by
  rw [vmqBroadcast]
  split
  · exact replied_error (by decide)
  · rename_i h
    rw [Args.text_eq (show 0 < args.length by omega), Ending.ok_bind,
      Args.arg_eq (show 1 < args.length by omega), Ending.ok_bind]
    refine Ending.Sat.bind (P := fun _ ↦ True) ?_ fun r _ ↦ replied_integer _
    rw [Broker.broadcast]
    split
    · trivial
    · rename_i subs hsubs
      split
      · rename_i hclosed
        intro hsafe
        obtain ⟨sub, hsub, hsubclosed⟩ := List.any_eq_true.mp hclosed
        rw [hsafe.channels _ subs hsubs sub hsub] at hsubclosed
        exact absurd hsubclosed Bool.false_ne_true
      · trivial

/-- **The body of a case**: one reply, the exit by verb and arguments, and no mishap but in the
log. -/
theorem handle_spec (verb : Verb) :
    Answers c (srv.exitOf args verb) (srv.handle env c args verb) := by
  cases verb with
  | ping => exact ping_spec.thenFlush
  | echo => exact echo_spec.thenFlush
  | auth => exact auth_spec.thenFlush
  | command => exact ⟨replied_raw (by decide), rfl⟩
  | info => exact ⟨replied_bulk _, rfl⟩
  | lpush => exact (pushWith_spec true (by decide)).thenFlush
  | rpush => exact (pushWith_spec false (by decide)).thenFlush
  | lpop => exact (popWith_spec (by decide)).thenFlush
  | rpop => exact (popWith_spec (by decide)).thenFlush
  | brpop => exact brpop_spec.thenFlush
  | llen => exact llen_spec.thenFlush
  | xadd => exact xadd_spec
  | xgroup => exact xgroup_spec.thenFlush
  | xreadgroup => exact xreadgroup_spec
  | xack => exact xack_spec
  | vmqPublish => exact vmqPublish_spec
  | vmqConsume => exact vmqConsume_spec
  | vmqAck => exact vmqAck_spec
  | vmqNack => exact vmqNack_spec
  | vmqReplay => exact vmqReplay_spec
  | vmqPublishBatch => exact vmqPublishBatch_spec.thenFlush
  | vmqBroadcast => exact vmqBroadcast_spec.thenFlush
  | vmqStats => exact ⟨replied_bulk _, rfl⟩
  | quit => exact ⟨replied_raw (by decide), rfl⟩

end Server

end VortexMQ
