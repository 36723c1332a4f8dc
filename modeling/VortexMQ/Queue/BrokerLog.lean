import VortexMQ.Queue.Broker
import VortexMQ.Wal.Contents

/-!
# The broker and its log

A topic takes messages as long as neither it nor its ring has been closed, and no operation but
`Close` closes anything. An open broker therefore refuses nothing, and its log holds exactly the
messages that it has published: every publishing operation adds its message, every other operation
adds nothing that replay would deliver.
-/

namespace VortexMQ

/-! ## Open topics -/

namespace Topic

/-- Whether a topic takes messages is decided by these two. -/
def flags (t : Topic) : Bool × Bool := (t.closed, t.ring.closed)

/-- Pushes are accepted. -/
def Accepts (t : Topic) : Prop := t.flags = (false, false)

variable (t : Topic) (msg : Message)

theorem flags_onExpire : (t.onExpire msg).flags = t.flags :=
  Prod.ext rfl (t.ring.closed_push msg).2

theorem ok_push (front : Bool) : (t.push msg front).1 = !t.ring.closed := by
  have hok : (if front then t.ring.pushFront msg else t.ring.push msg).1 = !t.ring.closed := by
    cases front with
    | false => exact (t.ring.closed_push msg).1
    | true => exact (t.ring.closed_pushFront msg).1
  rw [← hok]
  unfold push
  simp only
  cases (if front then t.ring.pushFront msg else t.ring.push msg).1 <;> rfl

theorem flags_push (front : Bool) : (t.push msg front).2.flags = t.flags := by
  have hring : (if front then t.ring.pushFront msg else t.ring.push msg).2.closed
      = t.ring.closed := by
    cases front with
    | false => exact (t.ring.closed_push msg).2
    | true => exact (t.ring.closed_pushFront msg).2
  obtain ⟨hclosed, hpushed, -⟩ := t.fields_push msg front
  exact Prod.ext hclosed ((congrArg Ring.closed hpushed).trans hring)

theorem flags_schedule (delay : ℤ) : (t.schedule msg delay).flags = t.flags := by
  rw [schedule]
  split
  · rename_i m tw _
    exact flags_onExpire { t with tw := tw } m
  · rfl

theorem flags_publishDelayed (delay now : ℤ) : (t.publishDelayed msg delay now).flags = t.flags :=
  flags_schedule (t.countPublished msg) _ _

theorem flags_route (now : ℤ) (r : ConsumerGroup.Route) : (t.route msg now r).flags = t.flags := by
  cases r with
  | deadLetter => rfl
  | retry delay => exact t.flags_schedule msg delay

private theorem flags_getOrCreateGroup (groupName : Bytes) (timeout : ℤ) :
    (t.getOrCreateGroup groupName timeout).flags = t.flags := by
  rw [getOrCreateGroup]
  split <;> rfl

variable {t msg} {t' : Topic}

theorem flags_pop (h : t.pop = some (msg, t')) : t'.flags = t.flags := by
  rw [pop, Option.map_eq_some_iff] at h
  obtain ⟨m, -, heq⟩ := h
  rw [Prod.mk.injEq] at heq
  obtain ⟨-, rfl⟩ := heq
  exact Prod.ext rfl t.ring.pop_eq.2.2

theorem flags_popWait {timeout : ℤ} {r : Option Message × Topic} (h : t.popWait timeout = some r) :
    r.2.flags = t.flags := by
  rw [popWait] at h
  split at h
  · rename_i m t'' hpop
    rw [← Option.some_inj.mp h]
    exact flags_pop hpop
  · rw [Option.ite_none_right_eq_some, Option.some_inj] at h
    rw [← h.2]

theorem flags_runConsumeWait {timeout : ℤ} {r : Option Message × Topic}
    (h : t.runConsumeWait timeout = some r) : r.2.flags = t.flags := by
  rw [runConsumeWait, Option.map_eq_some_iff] at h
  obtain ⟨⟨m, t''⟩, hpop, rfl⟩ := h
  have hflags : t''.flags = t.flags := flags_popWait hpop
  cases m <;> exact hflags

theorem flags_runConsumeGroup {groupName consumerID : Bytes} {timeout now : ℤ}
    {r : Option Message × Topic}
    (h : t.runConsumeGroup groupName consumerID timeout now = some r) : r.2.flags = t.flags := by
  rw [runConsumeGroup, Option.bind_eq_some_iff] at h
  obtain ⟨⟨m, t''⟩, hpop, h⟩ := h
  have hflags : t''.flags = t.flags :=
    (flags_popWait hpop).trans (t.flags_getOrCreateGroup groupName _)
  cases m with
  | none =>
    rw [← Option.some_inj.mp h]
    exact hflags
  | some m =>
    rw [Option.bind_eq_some_iff] at h
    obtain ⟨cg, -, h⟩ := h
    rw [Option.map_eq_some_iff] at h
    obtain ⟨t₃, hcheckout, rfl⟩ := h
    rw [checkout, Option.map_eq_some_iff] at hcheckout
    obtain ⟨cg', -, rfl⟩ := hcheckout
    exact hflags

theorem flags_runAck (groupName msgID : Bytes) : (t.runAck groupName msgID).2.flags = t.flags := by
  rw [runAck, ack]
  cases t.groups.lookup groupName with
  | none => rfl
  | some cg =>
    rw [Option.map_some, Option.getD_some]
    split <;> rfl

theorem flags_runNack {groupName msgID reason : Bytes} {now : ℤ} {r : Bool × Topic}
    (h : t.runNack groupName msgID reason now = some r) : r.2.flags = t.flags := by
  rw [runNack] at h
  split at h
  · rw [← Option.some_inj.mp h]
  · rename_i m cg _
    rw [Option.map_eq_some_iff] at h
    obtain ⟨route, -, rfl⟩ := h
    exact flags_route (t.setGroup groupName cg) _ now route

theorem flags_foldl {f : Topic → Message → Topic} (hf : ∀ t m, (f t m).flags = t.flags) :
    ∀ (msgs : List Message) (t : Topic), (msgs.foldl f t).flags = t.flags := by
  intro msgs
  induction msgs with
  | nil => intro t; rfl
  | cons m msgs ih => intro t; exact (ih (f t m)).trans (hf t m)

private theorem flags_sweepGroups : ∀ {plan : List GroupSweep} {t t' : Topic},
    sweepGroups plan t = some t' → t'.flags = t.flags := by
  intro plan
  induction plan with
  | nil => intro t t' h; rw [← Option.some_inj.mp h]
  | cons g plan ih =>
    intro t t' h
    rw [sweepGroups, Option.bind_eq_some_iff] at h
    obtain ⟨cg, -, h⟩ := h
    rw [Option.ite_none_right_eq_some] at h
    exact (ih h.2).trans (flags_foldl (fun t m ↦ t.flags_route _ _ _) _ _)

theorem flags_runSweep {plan : List GroupSweep} (h : t.runSweep plan = some t') :
    t'.flags = t.flags := by
  rw [runSweep, Option.ite_none_right_eq_some] at h
  exact flags_sweepGroups h.2

theorem flags_runAdvance (t : Topic) : t.runAdvance.flags = t.flags :=
  flags_foldl (fun t m ↦ t.flags_onExpire m) _ _

theorem flags_runReplayDeadLetter (msgID : Bytes) (now : ℤ) :
    (t.runReplayDeadLetter msgID now).2.flags = t.flags := by
  rw [runReplayDeadLetter]
  split
  · rename_i m dlq _
    exact flags_onExpire { t with dlq := dlq } _
  · rfl

theorem Accepts.runPublish (h : t.Accepts) (msg : Message) (front : Bool) :
    (t.runPublish msg front).1 = true ∧ (t.runPublish msg front).2.Accepts := by
  have hclosed : t.closed = false := congrArg Prod.fst h
  have hring : t.ring.closed = false := congrArg Prod.snd h
  have hrun : t.runPublish msg front = t.push msg front := by
    rw [Topic.runPublish, hclosed, if_neg Bool.false_ne_true]
  rw [hrun]
  refine ⟨?_, (t.flags_push msg front).trans h⟩
  rw [t.ok_push, hring]
  rfl

/-- A topic whose ring is closed refuses everything and stays as it is. -/
theorem push_of_closed (h : t.ring.closed = true) (msg : Message) (front : Bool) :
    t.push msg front = (false, t) := by
  obtain ⟨hpush, hpushFront⟩ := Ring.push_of_closed msg h
  have hrefused : (if front then t.ring.pushFront msg else t.ring.push msg) = (false, t.ring) := by
    cases front with
    | false => exact hpush
    | true => exact hpushFront
  rw [push, hrefused]
  rfl

theorem mem_items_push (h : t.ring.closed = false) (msg : Message) (front : Bool) :
    msg ∈ (t.push msg front).2.ring.items := by
  rw [(t.fields_push msg front).2.1]
  cases front with
  | false => exact Ring.mem_items_push msg h
  | true => exact Ring.mem_items_pushFront msg h

/-- A push brings in nothing but its message, and that only if it is accepted. -/
theorem mem_of_mem_push {m : Message} {front : Bool}
    (h : m ∈ (t.push msg front).2.ring.items) :
    m ∈ t.ring.items ∨ (t.push msg front).1 = true ∧ m = msg := by
  cases hclosed : t.ring.closed with
  | false =>
    rw [(t.fields_push msg front).2.1] at h
    rw [t.ok_push msg front, hclosed]
    refine Or.symm (Or.imp_left (fun hm ↦ ⟨rfl, hm⟩) ?_)
    cases front with
    | false => exact Ring.mem_of_mem_push h
    | true => exact Ring.mem_of_mem_pushFront h
  | true =>
    rw [push_of_closed hclosed] at h
    exact Or.inl h

theorem Accepts.items_runPublish (h : t.Accepts)
    (hroom : t.ring.items.length < saturationCapacity.toNat) :
    (t.runPublish msg false).2.ring.items = t.ring.items ++ [msg] := by
  have hclosed : t.closed = false := congrArg Prod.fst h
  obtain ⟨hok, hitems, -⟩ := Ring.push_eq msg (congrArg Prod.snd h) hroom
  rw [Topic.runPublish, hclosed, if_neg Bool.false_ne_true, push]
  simp only [Bool.false_eq_true, if_false, hok, if_true]
  exact hitems

theorem ring_default (name : Bytes) :
    (Topic.default name).Accepts ∧ (Topic.default name).ring.items = [] := by
  have h : newTopic name 131072 = some (Topic.default name) := (Option.some_get _).symm
  rw [newTopic, Option.map_eq_some_iff] at h
  obtain ⟨ring, hring, heq⟩ := h
  obtain ⟨hitems, hopen⟩ := Ring.new_eq hring
  rw [← heq]
  exact ⟨Prod.ext rfl hopen, hitems⟩

end Topic

namespace Broker

/-- Every topic accepts messages. -/
def Accepts (b : Broker) : Prop := ∀ name t, b.topics.lookup name = some t → t.Accepts

variable {b b' : Broker} {c : Codec}

theorem Accepts.setTopic (h : b.Accepts) {t : Topic} (ht : t.Accepts) (name : Bytes) :
    (b.setTopic name t).Accepts := by
  intro name' t' hlookup
  by_cases hname : name' = name
  · subst hname
    rw [Broker.setTopic, AList.lookup_insert, Option.some_inj] at hlookup
    exact hlookup ▸ ht
  · rw [Broker.setTopic, AList.lookup_insert_ne hname] at hlookup
    exact h name' t' hlookup

theorem Accepts.getOrCreateTopic (h : b.Accepts) (name : Bytes) :
    (b.getOrCreateTopic name).1.Accepts ∧ (b.getOrCreateTopic name).2.Accepts := by
  rw [Broker.getOrCreateTopic]
  split
  · rename_i t hlookup
    exact ⟨h name t hlookup, h⟩
  · exact ⟨(Topic.ring_default name).1, h.setTopic ((Topic.ring_default name).1) name⟩

theorem lookup_getOrCreateTopic (b : Broker) (name : Bytes) :
    (b.getOrCreateTopic name).2.topics.lookup name = some (b.getOrCreateTopic name).1 := by
  rw [getOrCreateTopic]
  split
  · rename_i t ht
    exact ht
  · exact AList.lookup_insert _

theorem wal_getOrCreateTopic (b : Broker) (name : Bytes) :
    (b.getOrCreateTopic name).2.wal = b.wal := by
  rw [getOrCreateTopic]
  split <;> rfl

theorem closed_getOrCreateTopic (b : Broker) (name : Bytes) :
    (b.getOrCreateTopic name).2.closed = b.closed := by
  rw [getOrCreateTopic]
  split <;> rfl

/-! ## The broker's log -/

/-- The broker's topics are open and its log holds the given messages. -/
structure Keeps (b : Broker) (c : Codec) (msgs : List Message) : Prop where
  isOpen : b.closed = false
  accepts : b.Accepts
  log : ∃ w, b.wal = some w ∧ w.Holds c msgs

variable {msgs : List Message}

theorem Keeps.of_wal_eq (h : b.Keeps c msgs) (hclosed : b'.closed = b.closed)
    (hwal : b'.wal = b.wal) (ha : b'.Accepts) : b'.Keeps c msgs :=
  ⟨hclosed.trans h.isOpen, ha, hwal ▸ h.log⟩

theorem Keeps.getOrCreateTopic (h : b.Keeps c msgs) (name : Bytes) :
    (b.getOrCreateTopic name).1.Accepts ∧ (b.getOrCreateTopic name).2.Keeps c msgs :=
  ⟨(h.accepts.getOrCreateTopic name).1,
    h.of_wal_eq (b.closed_getOrCreateTopic name) (b.wal_getOrCreateTopic name)
      (h.accepts.getOrCreateTopic name).2⟩

theorem Keeps.setTopic (h : b.Keeps c msgs) {t : Topic} (ht : t.Accepts) (name : Bytes) :
    (b.setTopic name t).Keeps c msgs :=
  h.of_wal_eq rfl rfl (h.accepts.setTopic ht name)

theorem Keeps.logPublish (h : b.Keeps c msgs) {msg : Message}
    (hshort : (Entry.publish msg).Short c) (hportable : msg.Portable) :
    ∃ b', b.logPublish c msg = some (.ok (), b') ∧ b'.Keeps c (msgs ++ [msg]) := by
  obtain ⟨w, hw, hholds⟩ := h.log
  have hwrite : w.writePublish c msg = _ := Wal.write_eq hholds.1 hshort
  refine ⟨{ b with wal := some (w.written (Entry.record c (.publish msg) hshort)) }, ?_,
    h.isOpen, h.accepts, _, rfl, hholds.write hshort hportable⟩
  rw [Broker.logPublish, hw]
  simp only [hwrite, Option.map_some]

theorem Keeps.publishWith (h : b.Keeps c msgs) {msg : Message}
    (hshort : (Entry.publish msg).Short c) (hportable : msg.Portable)
    {put : Topic → Option Message × Topic}
    (hput : ∀ t : Topic, t.Accepts → (put t).1.isSome ∧ (put t).2.Accepts)
    {r : Except Bytes Message × Broker} (hr : b.publishWith c msg put = some r) :
    (∃ msg', r.1 = .ok msg') ∧ r.2.Keeps c (msgs ++ [msg]) := by
  obtain ⟨ht, hfound⟩ := h.getOrCreateTopic msg.topic
  obtain ⟨b', hlog, hb'⟩ := hfound.logPublish hshort hportable
  obtain ⟨hsome, ht'⟩ := hput _ ht
  obtain ⟨msg', hmsg'⟩ := Option.isSome_iff_exists.mp hsome
  unfold Broker.publishWith at hr
  simp only [hlog, Option.map_some, hmsg', Option.some_inj] at hr
  subst hr
  exact ⟨⟨msg', rfl⟩, (hb'.setTopic ht' msg.topic).of_wal_eq rfl rfl
    (hb'.setTopic ht' msg.topic).accepts⟩

private theorem putNow_accepts (msg : Message) (front : Bool) (t : Topic) (h : t.Accepts) :
    (putNow msg front t).1.isSome ∧ (putNow msg front t).2.Accepts := by
  obtain ⟨hok, haccepts⟩ := h.runPublish msg front
  rw [putNow, hok]
  exact ⟨rfl, haccepts⟩

private theorem putDelayed_accepts (msg : Message) (delay now : ℤ) (t : Topic) (h : t.Accepts) :
    (putDelayed msg delay now t).1.isSome ∧ (putDelayed msg delay now t).2.Accepts :=
  ⟨rfl, (t.flags_publishDelayed msg delay now).trans h⟩

theorem Keeps.publishBatchLoop {topicName : Bytes} : ∀ {batch : List Message} {count : ℕ}
    {b : Broker} {msgs : List Message} {r : ℕ × Broker}, b.Keeps c msgs →
    (∀ msg ∈ batch, (Entry.publish msg).Short c ∧ msg.Portable) →
    publishBatchLoop c topicName batch count b = some r →
      r.1 = count + batch.length ∧ r.2.Keeps c (msgs ++ batch) := by
  intro batch
  induction batch with
  | nil =>
    intro count b msgs r h _ hr
    rw [← Option.some_inj.mp hr, List.append_nil]
    exact ⟨rfl, h⟩
  | cons msg batch ih =>
    intro count b msgs r h hbatch hr
    obtain ⟨hshort, hportable⟩ := hbatch msg List.mem_cons_self
    obtain ⟨b', hlog, hb'⟩ := h.logPublish hshort hportable
    obtain ⟨ht, hfound⟩ := hb'.getOrCreateTopic topicName
    obtain ⟨hok, ht'⟩ := ht.runPublish msg false
    unfold Broker.publishBatchLoop at hr
    simp only [hlog, Option.bind_some, hok, if_true] at hr
    obtain ⟨hcount, hkeeps⟩ := ih (hfound.setTopic ht' topicName)
      (fun m hm ↦ hbatch m (List.mem_cons_of_mem _ hm)) hr
    rw [List.append_assoc] at hkeeps
    refine ⟨?_, hkeeps⟩
    rw [hcount, List.length_cons]
    omega

theorem Keeps.logAck (h : b.Keeps c msgs) {topicName groupName msgID : Bytes}
    (hshort : (Entry.ack topicName groupName msgID).Short c)
    (hb' : b.logAck topicName groupName msgID = some b') : b'.Keeps c msgs := by
  obtain ⟨w, hw, hholds⟩ := h.log
  have hwrite : w.writeAck topicName groupName msgID = _ := Wal.write_eq hholds.1 hshort
  rw [Broker.logAck, hw] at hb'
  simp only [hwrite, Option.map_some, Option.some_inj] at hb'
  subst hb'
  have hnew := hholds.write hshort trivial
  rw [show (Entry.ack topicName groupName msgID).message.toList = [] from rfl,
    List.append_nil] at hnew
  exact ⟨h.isOpen, h.accepts, _, rfl, hnew⟩

/-! ## The other operations -/

theorem Keeps.publish (h : b.Keeps c msgs) {topicName : Bytes} {payload : Option Bytes}
    {st : Stamp} (hshort : (Entry.publish (st.message topicName payload)).Short c)
    (htopic : Utf8 topicName) {front : Bool} {r : Except Bytes Message × Broker}
    (hr : b.publishWith c (st.message topicName payload)
      (putNow (st.message topicName payload) front) = some r) :
    (∃ msg', r.1 = .ok msg') ∧ r.2.Keeps c (msgs ++ [st.message topicName payload]) :=
  h.publishWith hshort (Message.portable_newMessage htopic st.inRange _ _ _)
    (putNow_accepts _ front) hr

theorem Keeps.publishDelayed (h : b.Keeps c msgs) {topicName : Bytes} {payload : Option Bytes}
    {delay now : ℤ} {st : Stamp} (hshort : (Entry.publish (st.message topicName payload)).Short c)
    (htopic : Utf8 topicName) {r : Except Bytes Message × Broker}
    (hr : b.publishDelayed c topicName payload delay st now = some r) :
    (∃ msg', r.1 = .ok msg') ∧ r.2.Keeps c (msgs ++ [st.message topicName payload]) :=
  h.publishWith hshort (Message.portable_newMessage htopic st.inRange _ _ _)
    (putDelayed_accepts _ delay now) hr

theorem Keeps.publishBatch (h : b.Keeps c msgs) {topicName : Bytes}
    {payloads : List (Option Bytes × Stamp)} (htopic : Utf8 topicName)
    (hshort : ∀ msg ∈ batchMessages topicName payloads, (Entry.publish msg).Short c)
    {r : ℕ × Broker} (hr : b.publishBatch c topicName payloads = some r) :
    r.1 = payloads.length ∧ r.2.Keeps c (msgs ++ batchMessages topicName payloads) := by
  rw [Broker.publishBatch] at hr
  split at hr
  · rename_i hnil
    rw [← Option.some_inj.mp hr, hnil]
    exact ⟨rfl, (List.append_nil msgs).symm ▸ h⟩
  · rw [Option.map_eq_some_iff] at hr
    obtain ⟨⟨count, b'⟩, hloop, rfl⟩ := hr
    have hportable : ∀ msg ∈ batchMessages topicName payloads, msg.Portable := by
      intro msg hmsg
      obtain ⟨p, -, rfl⟩ := List.mem_map.mp hmsg
      exact Message.portable_newMessage htopic p.2.inRange _ _ _
    obtain ⟨hcount, hkeeps⟩ := (h.getOrCreateTopic topicName).2.publishBatchLoop
      (fun msg hmsg ↦ ⟨hshort msg hmsg, hportable msg hmsg⟩) hloop
    rw [Nat.zero_add, batchMessages, List.length_map] at hcount
    exact ⟨hcount, hkeeps.of_wal_eq rfl rfl hkeeps.accepts⟩

theorem Keeps.consume (h : b.Keeps c msgs) {topicName : Bytes} {timeout : ℤ}
    {r : Option Message × Broker} (hr : b.consume topicName timeout = some r) :
    r.2.Keeps c msgs := by
  rw [Broker.consume] at hr
  split at hr
  · rw [← Option.some_inj.mp hr]
    exact h
  · rename_i t hlookup
    rw [Option.map_eq_some_iff] at hr
    obtain ⟨⟨m, t'⟩, hrun, rfl⟩ := hr
    have ht' : t'.Accepts := (Topic.flags_runConsumeWait hrun).trans (h.accepts _ _ hlookup)
    cases m with
    | none => exact h
    | some m =>
      have hset := h.setTopic ht' topicName
      exact hset.of_wal_eq rfl rfl hset.accepts

theorem Keeps.consumeGroup (h : b.Keeps c msgs) {topicName groupName consumerID : Bytes}
    {timeout now : ℤ} {r : Option Message × Broker}
    (hr : b.consumeGroup topicName groupName consumerID timeout now = some r) :
    r.2.Keeps c msgs := by
  obtain ⟨ht, hfound⟩ := h.getOrCreateTopic topicName
  unfold Broker.consumeGroup at hr
  simp only [Option.map_eq_some_iff] at hr
  obtain ⟨⟨m, t'⟩, hrun, rfl⟩ := hr
  have hset := hfound.setTopic ((Topic.flags_runConsumeGroup hrun).trans ht) topicName
  cases m with
  | none => exact hset
  | some m => exact hset.of_wal_eq rfl rfl hset.accepts

theorem Keeps.ack (h : b.Keeps c msgs) {topicName groupName msgID : Bytes}
    (hshort : (Entry.ack topicName groupName msgID).Short c) {r : Bool × Broker}
    (hr : b.ack topicName groupName msgID = some r) : r.2.Keeps c msgs := by
  rw [Broker.ack] at hr
  split at hr
  · rw [← Option.some_inj.mp hr]
    exact h
  · rename_i t hlookup
    split at hr
    · rw [Option.map_eq_some_iff] at hr
      obtain ⟨b', hlog, rfl⟩ := hr
      have hset := h.setTopic
        ((t.flags_runAck groupName msgID).trans (h.accepts _ _ hlookup)) topicName
      refine Keeps.logAck ?_ hshort hlog
      exact hset.of_wal_eq rfl rfl hset.accepts
    · rw [← Option.some_inj.mp hr]
      exact h

theorem Keeps.nack (h : b.Keeps c msgs) {topicName groupName msgID reason : Bytes} {now : ℤ}
    {r : Bool × Broker} (hr : b.nack topicName groupName msgID reason now = some r) :
    r.2.Keeps c msgs := by
  rw [Broker.nack] at hr
  split at hr
  · rw [← Option.some_inj.mp hr]
    exact h
  · rename_i t hlookup
    rw [Option.map_eq_some_iff] at hr
    obtain ⟨⟨ok, t'⟩, hrun, rfl⟩ := hr
    have hset := h.setTopic ((Topic.flags_runNack hrun).trans (h.accepts _ _ hlookup)) topicName
    cases ok with
    | false => exact h
    | true => exact hset.of_wal_eq rfl rfl hset.accepts

theorem Keeps.replayDLQ (h : b.Keeps c msgs) (topicName msgID : Bytes) (now : ℤ) :
    (b.replayDLQ topicName msgID now).2.Keeps c msgs := by
  rw [Broker.replayDLQ]
  split
  · exact h
  · rename_i t hlookup
    have hflags := t.flags_runReplayDeadLetter msgID now
    rcases hrun : t.runReplayDeadLetter msgID now with ⟨- | m, t'⟩
    · exact h
    · rw [hrun] at hflags
      exact h.setTopic (hflags.trans (h.accepts _ _ hlookup)) topicName

theorem Keeps.sweepTopics : ∀ {plan : List TopicSweep} {b b' : Broker}, b.Keeps c msgs →
    sweepTopics plan b = some b' → b'.Keeps c msgs := by
  intro plan
  induction plan with
  | nil => intro b b' h hb'; exact Option.some_inj.mp hb' ▸ h
  | cons s plan ih =>
    intro b b' h hb'
    rw [Broker.sweepTopics, Option.bind_eq_some_iff] at hb'
    obtain ⟨t, hlookup, hb'⟩ := hb'
    rw [Option.bind_eq_some_iff] at hb'
    obtain ⟨t', hrun, hb'⟩ := hb'
    exact ih (h.setTopic ((Topic.flags_runSweep hrun).trans (h.accepts _ _ hlookup)) _) hb'

theorem Keeps.sweepAllTimeouts (h : b.Keeps c msgs) {plan : List TopicSweep}
    (hb' : b.sweepAllTimeouts plan = some b') : b'.Keeps c msgs := by
  rw [Broker.sweepAllTimeouts, Option.ite_none_right_eq_some] at hb'
  exact h.sweepTopics hb'.2

theorem Keeps.tick (h : b.Keeps c msgs) {topicName : Bytes} (hb' : b.tick topicName = some b') :
    b'.Keeps c msgs := by
  rw [Broker.tick, Option.map_eq_some_iff] at hb'
  obtain ⟨t, hlookup, rfl⟩ := hb'
  exact h.setTopic (t.flags_runAdvance.trans (h.accepts _ _ hlookup)) topicName

theorem Keeps.syncLog (h : b.Keeps c msgs) : b.syncLog.Keeps c msgs := by
  obtain ⟨w, hw, hholds⟩ := h.log
  refine ⟨h.isOpen, h.accepts, w.sync, ?_, hholds.sync⟩
  rw [Broker.syncLog, hw]
  rfl

/-! ## Recovery -/

/-- The active messages under a topic name. -/
def ringItems (b : Broker) (name : Bytes) : List Message :=
  match b.topics.lookup name with
  | some t => t.ring.items
  | none => []

theorem ringItems_setTopic (b : Broker) (name : Bytes) (t : Topic) (name' : Bytes) :
    (b.setTopic name t).ringItems name'
      = if name' = name then t.ring.items else b.ringItems name' := by
  rw [ringItems, setTopic]
  by_cases h : name' = name
  · subst h
    rw [AList.lookup_insert, if_pos rfl]
  · rw [AList.lookup_insert_ne h, if_neg h, ringItems]

theorem ringItems_getOrCreateTopic (b : Broker) (name name' : Bytes) :
    (b.getOrCreateTopic name).1.ring.items = b.ringItems name ∧
      (b.getOrCreateTopic name).2.ringItems name' = b.ringItems name' := by
  rw [getOrCreateTopic]
  split
  · rename_i t hlookup
    refine ⟨?_, rfl⟩
    rw [ringItems, hlookup]
  · rename_i hlookup
    have hdefault : (Topic.default name).ring.items = [] := (Topic.ring_default name).2
    have hname : b.ringItems name = [] := by rw [ringItems, hlookup]
    refine ⟨hdefault.trans hname.symm, ?_⟩
    rw [ringItems_setTopic]
    split
    · rename_i h
      rw [h, hdefault, hname]
    · rfl

theorem Accepts.recover (h : b.Accepts) (msg : Message)
    (hroom : (b.ringItems msg.topic).length < saturationCapacity.toNat) :
    (b.recover msg).Accepts ∧ ∀ name,
      (b.recover msg).ringItems name
        = b.ringItems name ++ if msg.topic = name then [msg] else [] := by
  obtain ⟨ht, hfound⟩ := h.getOrCreateTopic msg.topic
  obtain ⟨hitems, -⟩ := b.ringItems_getOrCreateTopic msg.topic msg.topic
  refine ⟨hfound.setTopic (ht.runPublish msg false).2 _, fun name ↦ ?_⟩
  obtain ⟨-, hothers⟩ := b.ringItems_getOrCreateTopic msg.topic name
  rw [Broker.recover, ringItems_setTopic, hothers]
  by_cases hname : msg.topic = name
  · subst hname
    rw [if_pos rfl, if_pos rfl, ht.items_runPublish (hitems ▸ hroom), hitems]
  · rw [if_neg (Ne.symm hname), if_neg hname, List.append_nil]

theorem Accepts.foldl_recover : ∀ (msgs : List Message) {b : Broker}, b.Accepts →
    (∀ name, (b.ringItems name).length + (msgs.filter fun m ↦ m.topic = name).length
      ≤ saturationCapacity.toNat) →
    ∀ name, (msgs.foldl Broker.recover b).ringItems name
      = b.ringItems name ++ msgs.filter fun m ↦ m.topic = name := by
  intro msgs
  induction msgs with
  | nil => intro b _ _ name; exact (List.append_nil _).symm
  | cons msg msgs ih =>
    intro b h hroom name
    have hself : ((msg :: msgs).filter fun m ↦ m.topic = msg.topic)
        = msg :: msgs.filter fun m ↦ m.topic = msg.topic := List.filter_cons_of_pos (by simp)
    obtain ⟨haccepts, hitems⟩ := h.recover msg (by
      have hle := hroom msg.topic
      rw [hself, List.length_cons] at hle
      omega)
    have hsplit : ∀ name, (b.recover msg).ringItems name ++ (msgs.filter fun m ↦ m.topic = name)
        = b.ringItems name ++ ((msg :: msgs).filter fun m ↦ m.topic = name) := by
      intro name
      rw [hitems, List.append_assoc]
      by_cases hname : msg.topic = name
      · rw [if_pos hname, List.filter_cons_of_pos (by simpa using hname)]
        rfl
      · rw [if_neg hname, List.filter_cons_of_neg (by simpa using hname)]
        rfl
    rw [List.foldl_cons, ih haccepts (fun name ↦ ?_), hsplit]
    rw [← List.length_append, hsplit, List.length_append]
    exact hroom name

theorem accepts_foldl_recover : ∀ {msgs : List Message} {b : Broker}, b.Accepts →
    (msgs.foldl Broker.recover b).Accepts := by
  intro msgs
  induction msgs with
  | nil => intro b h; exact h
  | cons msg msgs ih =>
    intro b h
    obtain ⟨ht, hfound⟩ := h.getOrCreateTopic msg.topic
    exact ih (hfound.setTopic (ht.runPublish msg false).2 _)

theorem wal_foldl_recover : ∀ {msgs : List Message} {b : Broker},
    (msgs.foldl Broker.recover b).wal = b.wal ∧
      (msgs.foldl Broker.recover b).closed = b.closed := by
  intro msgs
  induction msgs with
  | nil => intro b; exact ⟨rfl, rfl⟩
  | cons msg msgs ih =>
    intro b
    obtain ⟨hwal, hclosed⟩ := ih (b := b.recover msg)
    exact ⟨hwal.trans (b.wal_getOrCreateTopic msg.topic),
      hclosed.trans (b.closed_getOrCreateTopic msg.topic)⟩

theorem accepts_newBroker (wal : Option Wal) (now : ℤ) : (newBroker wal now).Accepts := by
  intro name t h
  exact absurd h (by simp [newBroker])

/-- **The start of the broker.** It keeps the log, and each ring has the messages of its topic. -/
theorem keeps_boot {dir : Directory} (h : dir.Holds c msgs) (policy : FsyncPolicy) (now : ℤ) :
    (boot c dir policy now).Keeps c msgs :=
  ⟨wal_foldl_recover.2, accepts_foldl_recover (accepts_newBroker _ now), _, wal_foldl_recover.1,
    Wal.holds_openWAL h policy⟩

theorem ringItems_boot_perm {dir : Directory} (h : dir.Holds c msgs) (policy : FsyncPolicy)
    (now : ℤ)
    (hroom : ∀ name, (msgs.filter fun m ↦ m.topic = name).length ≤ saturationCapacity.toNat)
    (name : Bytes) :
    ((boot c dir policy now).ringItems name).Perm (msgs.filter fun m ↦ m.topic = name) := by
  have hperm := (Wal.holds_dir_openWAL h policy).replay_perm
  have hitems := Accepts.foldl_recover (replay c (Wal.openWAL dir policy).dir).2
    (accepts_newBroker (some (Wal.openWAL dir policy)) now) (fun name ↦ by
      rw [(hperm.filter _).length_eq]
      exact (Nat.zero_add _).le.trans (hroom name)) name
  rw [boot, hitems]
  exact hperm.filter _

theorem Keeps.restart (h : b.Keeps c msgs) (policy : FsyncPolicy) (now : ℤ) :
    ∃ dir : Directory, dir.Holds c msgs ∧
      b.restart c policy now = boot c dir policy now := by
  obtain ⟨w, hw, hholds⟩ := h.log
  refine ⟨w.close.dir, hholds.close, ?_⟩
  have hclose : b.close.wal = some w.close := by
    rw [Broker.close, h.isOpen, if_neg Bool.false_ne_true, hw]
    rfl
  rw [Broker.restart, hclose]

end Broker

end VortexMQ
