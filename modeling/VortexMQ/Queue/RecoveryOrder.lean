import VortexMQ.Queue.Recovery

/-!
# The order of a queue after a restart

Both ends of a queue are recorded in the same way, and recovery appends. What comes back is each
queue in the order of publication, as if `PublishFront` were `Publish`. The two agree as long as
`PublishFront` is called on empty queues only.

`Queues` is what the rings stand for: a bounded deque for every topic. The broker's rings before the
shutdown and those after recovery are compared through it, so that nothing depends on how far a ring
has grown or whether it has started to drop messages.
-/

namespace VortexMQ

abbrev Queues := Bytes → Deque Message

namespace Queues

/-- Nothing published; the bound is that of a ring that does not grow any further. -/
def empty : Queues := fun _ ↦ Deque.empty saturationCapacity.toNat (by decide)

def append (D : Queues) (msg : Message) : Queues :=
  Function.update D msg.topic ((D msg.topic).pushBack msg).2

def ofLog (msgs : List Message) : Queues := msgs.foldl append empty

private theorem ofLog_concat (msgs : List Message) (msg : Message) :
    ofLog (msgs ++ [msg]) = (ofLog msgs).append msg := by
  rw [ofLog, List.foldl_append]
  rfl

end Queues

/-! ## The rings of a broker -/

namespace Broker

/-- The ring under a topic name. A topic that does not exist is made on demand. -/
def ringOf (b : Broker) (name : Bytes) : Ring Message :=
  match b.topics.lookup name with
  | some t => t.ring
  | none => (Topic.default name).ring

def Rings (b : Broker) (D : Queues) : Prop := ∀ name, (b.ringOf name).buf.Refines (D name)

variable {b : Broker} {c : Codec} {D : Queues}

theorem items_ringOf (b : Broker) (name : Bytes) : (b.ringOf name).items = b.ringItems name := by
  rw [ringOf, ringItems]
  cases b.topics.lookup name with
  | none => exact (Topic.ring_default name).2
  | some t => rfl

theorem ringOf_setTopic (b : Broker) (name : Bytes) (t : Topic) :
    (b.setTopic name t).ringOf = Function.update b.ringOf name t.ring := by
  funext name'
  by_cases h : name' = name
  · subst h
    rw [Function.update_self, ringOf, setTopic, AList.lookup_insert]
  · rw [Function.update_of_ne h, ringOf, setTopic, AList.lookup_insert_ne h, ringOf]

theorem ringOf_getOrCreateTopic (b : Broker) (name : Bytes) :
    (b.getOrCreateTopic name).1.ring = b.ringOf name ∧
      (b.getOrCreateTopic name).2.ringOf = b.ringOf := by
  rw [getOrCreateTopic]
  split
  · rename_i t hlookup
    refine ⟨?_, rfl⟩
    rw [ringOf, hlookup]
  · rename_i hlookup
    have hname : b.ringOf name = (Topic.default name).ring := by rw [ringOf, hlookup]
    refine ⟨hname.symm, ?_⟩
    rw [ringOf_setTopic, ← hname, Function.update_eq_self]

private theorem refines_default (name : Bytes) :
    (Topic.default name).ring.buf.Refines (Queues.empty name) := by
  obtain ⟨d, hd⟩ := (Topic.default name).ring.valid
  have hitems : d.items = [] := (Ring.items_eq hd).symm.trans (Topic.ring_default name).2
  have hclosed : d.closed = false := hd.closed_eq.symm.trans
    (congrArg Prod.snd (Topic.ring_default name).1)
  have hbound : d.bound = saturationCapacity.toNat := hd.bound_eq
  obtain ⟨items, bound, closed, hpos, hle⟩ := d
  cases hitems
  cases hclosed
  cases hbound
  exact hd

private theorem rings_newBroker (wal : Option Wal) (now : ℤ) :
    (newBroker wal now).Rings Queues.empty :=
  refines_default

theorem Rings.update (h : b.Rings D) {b' : Broker} {name : Bytes} {ring : Ring Message}
    {d : Deque Message} (hb' : b'.ringOf = Function.update b.ringOf name ring)
    (hring : ring.buf.Refines d) : b'.Rings (Function.update D name d) := by
  intro name'
  rw [hb']
  by_cases hname : name' = name
  · subst hname
    rw [Function.update_self, Function.update_self]
    exact hring
  · rw [Function.update_of_ne hname, Function.update_of_ne hname]
    exact h name'

theorem ring_runPublish {t : Topic} (ht : t.Accepts) (msg : Message) (front : Bool) :
    (t.runPublish msg front).2.ring
      = (if front then t.ring.pushFront msg else t.ring.push msg).2 := by
  have hclosed : t.closed = false := congrArg Prod.fst ht
  rw [Topic.runPublish, hclosed, if_neg Bool.false_ne_true]
  exact (t.fields_push msg front).2.1

theorem Rings.recover (h : b.Rings D) (ha : b.Accepts) (msg : Message) :
    (b.recover msg).Rings (D.append msg) := by
  obtain ⟨hfst, hsnd⟩ := b.ringOf_getOrCreateTopic msg.topic
  have hring : ((b.ringOf msg.topic).push msg).2.buf.Refines ((D msg.topic).pushBack msg).2 :=
    ((h msg.topic).push msg).2
  refine h.update ?_ hring
  rw [Broker.recover, ringOf_setTopic, hsnd, ring_runPublish (ha.getOrCreateTopic msg.topic).1,
    hfst]
  rfl

theorem Rings.foldl_recover : ∀ {msgs : List Message} {b : Broker} {D : Queues}, b.Rings D →
    b.Accepts → (msgs.foldl Broker.recover b).Rings (msgs.foldl Queues.append D) := by
  intro msgs
  induction msgs with
  | nil => intro b D h _; exact h
  | cons msg msgs ih =>
    intro b D h ha
    obtain ⟨ht, hfound⟩ := ha.getOrCreateTopic msg.topic
    exact ih (h.recover ha msg) (hfound.setTopic (ht.runPublish msg false).2 _)

/-- **The start of the broker** rebuilds the queues in the order of the log. -/
theorem rings_boot {dir : Directory} {policy : FsyncPolicy} {msgs : List Message}
    (hreplay : replay c (Wal.openWAL dir policy).dir = (msgs.length, msgs)) (now : ℤ) :
    (boot c dir policy now).Rings (Queues.ofLog msgs) := by
  rw [boot, hreplay]
  exact (rings_newBroker _ now).foldl_recover (accepts_newBroker _ now)

end Broker

/-! ## Publishing at both ends -/

/-- A call of `Publish`, or of `PublishFront`. -/
structure PublishCall where
  topicName : Bytes
  payload : Option Bytes
  st : Stamp
  front : Bool

namespace PublishCall

def message (call : PublishCall) : Message := call.st.message call.topicName call.payload

/-- Run the call. What it returns does not matter here. -/
def step (c : Codec) (b : Broker) (call : PublishCall) : Option Broker :=
  (if call.front then b.publishFront c call.topicName call.payload call.st
    else b.publish c call.topicName call.payload call.st).map Prod.snd

private theorem step_eq (call : PublishCall) (c : Codec) (b : Broker) :
    call.step c b
      = (b.publishWith c call.message (Broker.putNow call.message call.front)).map Prod.snd := by
  rw [step]
  cases hfront : call.front <;> rfl

/-- The record fits the log's format, and the log has room for one more segment. -/
def Loggable (c : Codec) (b : Broker) (call : PublishCall) : Prop :=
  Utf8 call.topicName ∧ (Entry.publish call.message).Short c ∧
    ∀ w, b.wal = some w → w.segmentID + 1 < 10 ^ 6

/-- In addition, `PublishFront` is called on an empty queue only. -/
def KeepsOrder (c : Codec) (b : Broker) (call : PublishCall) : Prop :=
  call.Loggable c b ∧ (call.front = true → b.ringItems call.topicName = [])

end PublishCall

namespace Broker

/-- The log of an open broker holds messages in the given order. -/
structure LogsInOrder (b : Broker) (c : Codec) (msgs : List Message) : Prop where
  isOpen : b.closed = false
  accepts : b.Accepts
  log : ∃ w, b.wal = some w ∧ w.HoldsInOrder c msgs

variable {b b' : Broker} {c : Codec} {msgs : List Message}

theorem logsInOrder_boot {dir : Directory} (h : dir.HoldsInOrder c msgs) (policy : FsyncPolicy)
    (now : ℤ) : (boot c dir policy now).LogsInOrder c msgs ∧
      (boot c dir policy now).Rings (Queues.ofLog msgs) := by
  obtain ⟨hlog, hreplay⟩ := Wal.holdsInOrder_openWAL h policy
  exact ⟨⟨wal_foldl_recover.2, accepts_foldl_recover (accepts_newBroker _ now),
    _, wal_foldl_recover.1, hlog⟩, rings_boot hreplay now⟩

/-- **What a restart brings back**: every queue in the order of the log. -/
theorem LogsInOrder.rings_restart (h : b.LogsInOrder c msgs) (policy : FsyncPolicy) (now : ℤ) :
    (b.restart c policy now).Rings (Queues.ofLog msgs) := by
  obtain ⟨w, hw, hlog⟩ := h.log
  have hclose : b.close.wal = some w.close := by
    rw [Broker.close, h.isOpen, if_neg Bool.false_ne_true, hw]
    rfl
  rw [Broker.restart, hclose]
  exact rings_boot (hlog.replay_close policy) now

private theorem publishWith_eq {w : Wal} (hw : b.wal = some w) (hopen : w.closed = false)
    {msg msg' : Message} (hshort : (Entry.publish msg).Short c)
    {put : Topic → Option Message × Topic}
    (hput : (put (b.getOrCreateTopic msg.topic).1).1 = some msg') :
    b.publishWith c msg put = some (.ok msg',
      { (b.getOrCreateTopic msg.topic).2.setTopic msg.topic
          (put (b.getOrCreateTopic msg.topic).1).2 with
        wal := some (w.written (Entry.record c (.publish msg) hshort))
        totalPublished := (b.getOrCreateTopic msg.topic).2.totalPublished + 1 }) := by
  have hwrite : w.writePublish c msg = _ := Wal.write_eq hopen hshort
  unfold publishWith logPublish
  simp only [b.wal_getOrCreateTopic, hw, hwrite, Option.map_some, hput]
  rfl

/-- A call adds its message to the log and pushes it to the ring, at one end or the other. -/
theorem LogsInOrder.step (h : b.LogsInOrder c msgs) {call : PublishCall}
    (hguard : call.Loggable c b) (hstep : call.step c b = some b') :
    b'.LogsInOrder c (msgs ++ [call.message]) ∧
      b'.ringOf = Function.update b.ringOf call.message.topic
        (if call.front then (b.ringOf call.message.topic).pushFront call.message
          else (b.ringOf call.message.topic).push call.message).2 := by
  obtain ⟨hutf8, hshort, hsegments⟩ := hguard
  obtain ⟨w, hw, hlog⟩ := h.log
  obtain ⟨ht, hfound⟩ := h.accepts.getOrCreateTopic call.message.topic
  obtain ⟨hok, ht'⟩ := ht.runPublish call.message call.front
  have hput : (putNow call.message call.front (b.getOrCreateTopic call.message.topic).1).1
      = some call.message := if_pos hok
  rw [call.step_eq, publishWith_eq hw hlog.1 hshort hput, Option.map_some, Option.some_inj] at hstep
  subst hstep
  have hportable : call.message.Portable :=
    Message.portable_newMessage hutf8 call.st.inRange call.payload _ _
  refine ⟨⟨(b.closed_getOrCreateTopic _).trans h.isOpen, hfound.setTopic ht' call.message.topic,
    _, rfl, hlog.write (hsegments w hw) hshort hportable⟩, ?_⟩
  obtain ⟨hfst, hsnd⟩ := b.ringOf_getOrCreateTopic call.message.topic
  refine (ringOf_setTopic _ call.message.topic _).trans ?_
  rw [hsnd]
  refine congrArg (Function.update b.ringOf call.message.topic) ?_
  exact (ring_runPublish ht call.message call.front).trans (by rw [hfst])

/-- At the front of an empty queue or at the back of any, a push follows the order of the log. -/
theorem Rings.publish {D : Queues} (h : b.Rings D) (msg : Message) {front : Bool}
    (hfront : front = true → b.ringItems msg.topic = [])
    (hb' : b'.ringOf = Function.update b.ringOf msg.topic
      (if front then (b.ringOf msg.topic).pushFront msg else (b.ringOf msg.topic).push msg).2) :
    b'.Rings (D.append msg) := by
  refine h.update hb' ?_
  cases front with
  | false => exact ((h msg.topic).push msg).2
  | true =>
    have hempty : (D msg.topic).items = [] := by
      rw [← Ring.items_eq (h msg.topic), items_ringOf]
      exact hfront rfl
    rw [← (D msg.topic).pushFront_eq_pushBack hempty]
    exact ((h msg.topic).pushFront msg).2

/-- In every run of loggable calls the log holds their messages in the order of the calls. -/
theorem LogsInOrder.run {calls : List PublishCall}
    (hrun : Run (PublishCall.step c) (fun _ ↦ True) b calls b') :
    ∀ {msgs : List Message}, b.LogsInOrder c msgs →
      Run.Guarded (PublishCall.step c) (fun b call ↦ call.Loggable c b) b calls →
      b'.LogsInOrder c (msgs ++ calls.map PublishCall.message) := by
  induction hrun with
  | nil _ =>
    intro msgs h _
    rw [List.map_nil, List.append_nil]
    exact h
  | @cons b u b' call calls _ hstep _ ih =>
    intro msgs h hguard
    have hrest := ih (h.step hguard.1 hstep).1 (hguard.2 u hstep)
    rwa [List.append_assoc, List.singleton_append] at hrest

/-- **Order after a restart.** Start on a log whose messages are all in its first segment, for
instance on an empty directory, and publish at either end, at the front only to empty queues. After
`Close` and recovery every ring holds the same messages in the same order as before. -/
theorem ringItems_restart_of_keepsOrder {dir : Directory} {policy : FsyncPolicy} {now : ℤ}
    {calls : List PublishCall} (hdir : dir.HoldsInOrder c msgs)
    (hrun : Run (PublishCall.step c) (fun _ ↦ True) (boot c dir policy now) calls b)
    (hguard : Run.Guarded (PublishCall.step c) (fun b call ↦ call.KeepsOrder c b)
      (boot c dir policy now) calls)
    (policy' : FsyncPolicy) (now' : ℤ) (name : Bytes) :
    (b.restart c policy' now').ringItems name = b.ringItems name := by
  have hstep : ∀ ⦃b : Broker⦄ ⦃call : PublishCall⦄ ⦃b' : Broker⦄, call.KeepsOrder c b →
      call.step c b = some b' → (∃ msgs, b.LogsInOrder c msgs ∧ b.Rings (Queues.ofLog msgs)) →
      ∃ msgs, b'.LogsInOrder c msgs ∧ b'.Rings (Queues.ofLog msgs) := by
    rintro b call b' ⟨hloggable, hfront⟩ hstep ⟨msgs, hlogs, hrings⟩
    obtain ⟨hlogs', hringOf⟩ := hlogs.step hloggable hstep
    refine ⟨msgs ++ [call.message], hlogs', ?_⟩
    rw [Queues.ofLog_concat]
    exact hrings.publish call.message hfront hringOf
  obtain ⟨msgs', hlogs, hrings⟩ :=
    hrun.invariant_of_guarded hstep hguard ⟨msgs, logsInOrder_boot hdir policy now⟩
  rw [← items_ringOf, ← items_ringOf, Ring.items_eq (hrings name),
    Ring.items_eq (hlogs.rings_restart policy' now' name)]

/-! ### Two messages, one at each end -/

def firstCall (front : Bool) : PublishCall :=
  ⟨bytesOf "q", some (bytesOf "a"), ⟨0, 1, [171, 205], int64Range_zero⟩, front⟩

def secondCall (front : Bool) : PublishCall :=
  ⟨bytesOf "q", some (bytesOf "b"), ⟨0, 2, [171, 206], int64Range_zero⟩, front⟩

/-- A broker on an empty directory. -/
def freshBroker : Broker := boot MessageJson.codec ∅ .always 0

theorem segments_of_map {b : Broker} (h : b.wal.map Wal.segmentID = some 1) :
    ∀ w, b.wal = some w → w.segmentID + 1 < 10 ^ 6 := by
  intro w hw
  rw [hw, Option.map_some, Option.some_inj] at h
  rw [h]
  decide

theorem loggable_firstCall (front : Bool) :
    (firstCall front).Loggable MessageJson.codec freshBroker := by
  refine ⟨utf8_bytesOf _, ?_, segments_of_map (by decide +kernel)⟩
  change (MessageJson.marshal (firstCall false).message).length < _
  decide +kernel

theorem loggable_secondCall (front : Bool) {b : Broker} {front' : Bool}
    (h : (firstCall front').step MessageJson.codec freshBroker = some b) :
    (secondCall front).Loggable MessageJson.codec b := by
  have hsegment : ((firstCall front').step MessageJson.codec freshBroker).map
      (fun b ↦ b.wal.map Wal.segmentID) = some (some 1) := by
    cases front' <;> decide +kernel
  rw [h, Option.map_some, Option.some_inj] at hsegment
  refine ⟨utf8_bytesOf _, ?_, segments_of_map hsegment⟩
  change (MessageJson.marshal (secondCall false).message).length < _
  decide +kernel

/-- A queue begun with `PublishFront` and continued with `Publish`. -/
theorem ringItems_restart_of_keepsOrder_frontFirst :
    ∃ b, Run (PublishCall.step MessageJson.codec) (fun _ ↦ True) freshBroker
        [firstCall true, secondCall false] b ∧
      b.ringItems (bytesOf "q") = [(firstCall true).message, (secondCall false).message] ∧
      (b.restart MessageJson.codec .always 1).ringItems (bytesOf "q")
        = b.ringItems (bytesOf "q") := by
  have hsome : (Run.exec (PublishCall.step MessageJson.codec) (fun _ ↦ True) freshBroker
      [firstCall true, secondCall false]).isSome := by decide +kernel
  have hrun := Run.of_exec (Option.some_get hsome).symm
  have hitems := hrun.of_exec_map (f := fun b ↦ b.ringItems (bytesOf "q"))
    (a := [(firstCall true).message, (secondCall false).message]) (by decide +kernel)
  have hguard : Run.Guarded (PublishCall.step MessageJson.codec)
      (fun b call ↦ call.KeepsOrder MessageJson.codec b) freshBroker
      [firstCall true, secondCall false] := by
    refine ⟨⟨loggable_firstCall true, fun _ ↦ by decide +kernel⟩, fun b hb ↦ ?_⟩
    exact ⟨⟨loggable_secondCall false hb, fun h ↦ absurd h Bool.false_ne_true⟩,
      fun _ _ ↦ trivial⟩
  exact ⟨_, hrun, hitems, ringItems_restart_of_keepsOrder
    (Directory.holdsInOrder_empty MessageJson.codec) hrun hguard .always 1 (bytesOf "q")⟩

/-- **The order changes.** A message put at the front of a queue comes back at its end. -/
theorem front_message_recovered_last :
    ∃ b, Run (PublishCall.step MessageJson.codec) (fun _ ↦ True) freshBroker
        [firstCall false, secondCall true] b ∧
      b.ringItems (bytesOf "q") = [(secondCall true).message, (firstCall false).message] ∧
      (b.restart MessageJson.codec .always 1).ringItems (bytesOf "q")
        = [(firstCall false).message, (secondCall true).message] := by
  have hsome : (Run.exec (PublishCall.step MessageJson.codec) (fun _ ↦ True) freshBroker
      [firstCall false, secondCall true]).isSome := by decide +kernel
  have hrun := Run.of_exec (Option.some_get hsome).symm
  have hitems := hrun.of_exec_map (f := fun b ↦ b.ringItems (bytesOf "q"))
    (a := [(secondCall true).message, (firstCall false).message]) (by decide +kernel)
  have hguard : Run.Guarded (PublishCall.step MessageJson.codec)
      (fun b call ↦ call.Loggable MessageJson.codec b) freshBroker
      [firstCall false, secondCall true] :=
    ⟨loggable_firstCall false, fun b hb ↦ ⟨loggable_secondCall true hb, fun _ _ ↦ trivial⟩⟩
  have hlogs := LogsInOrder.run hrun
    (logsInOrder_boot (Directory.holdsInOrder_empty MessageJson.codec) .always 0).1 hguard
  refine ⟨_, hrun, hitems, ?_⟩
  rw [← items_ringOf, Ring.items_eq (hlogs.rings_restart .always 1 (bytesOf "q"))]
  decide +kernel

end Broker

end VortexMQ
