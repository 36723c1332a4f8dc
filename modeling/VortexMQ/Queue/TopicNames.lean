import VortexMQ.Queue.Broker
import VortexMQ.Wal.Contents

/-!
# Topic names in the log

A topic name is any byte string, but the log stores it as a JSON string, and a byte that is not part
of a UTF-8 character is written as the replacement character. So a message comes back from the log
under the text of its topic's name, with its payload and its identifier intact, and topics whose
names differ in such bytes only become one.
-/

namespace VortexMQ

open MessageJson (codec)

/-- The message that its record is read back as. -/
def Message.recovered (m : Message) : Message := { m with topic := toValidUtf8 m.topic }

/-- What is to be preserved. -/
def Message.label (m : Message) : Bytes × Bytes × Option Bytes := (m.id, m.topic, m.payload)

theorem MessageJson.unmarshal_marshal_message (st : Stamp) (topic : Bytes)
    (payload : Option Bytes) :
    unmarshal (marshal (st.message topic payload))
      = some (st.message topic payload).recovered := by
  have hportable : (st.message topic payload).recovered.Portable :=
    Message.portable_newMessage (utf8_toValidUtf8 topic) st.inRange payload st.seq st.rand
  exact unmarshal_marshal_topic hportable

namespace WalState

/-- The messages that a run publishes. -/
def published (labels : List WalLabel) : List Message := (entries labels).filterMap Entry.message

private theorem published_cons (e : Entry) (labels : List WalLabel) :
    published (.write e :: labels) = e.message.toList ++ published labels := by
  cases e <;> rfl

/-- Records fit the format, and messages are made by `NewMessage`. -/
def Publishable (e : Entry) : Prop :=
  e.Short codec ∧ ∀ msg, e = .publish msg →
    ∃ (st : Stamp) (topic : Bytes) (payload : Option Bytes), msg = st.message topic payload

private theorem delivered_of_publishable {e : Entry} (h : Publishable e) :
    delivered codec (e.op, e.payload codec) = e.message.map Message.recovered := by
  cases e with
  | publish msg =>
    obtain ⟨st, topic, payload, rfl⟩ := h.2 msg rfl
    have hread := MessageJson.unmarshal_marshal_message st topic payload
    generalize st.message topic payload = msg at hread ⊢
    exact (if_pos rfl).trans hread
  | ack topic group msgID => exact if_neg (show ¬opAck = opPublish by decide)

/-- **A session adds to the log what its records read as.** -/
theorem holds_of_run {s s' : WalState} {labels : List WalLabel}
    (hrun : Run (step codec) (fun _ ↦ True) s labels s') : ∀ {msgs : List Message},
    s.wal.Holds codec msgs → (∀ e, .write e ∈ labels → Publishable e) →
    s'.wal.Holds codec (msgs ++ (published labels).map Message.recovered) := by
  induction hrun with
  | nil _ =>
    intro msgs h _
    rw [show (published []).map Message.recovered = [] from rfl, List.append_nil]
    exact h
  | @cons s u t l labels _ hstep _ ih =>
    intro msgs h hlabels
    have hrest : ∀ e, .write e ∈ labels → Publishable e := fun e he ↦
      hlabels e (List.mem_cons_of_mem _ he)
    cases l with
    | sync =>
      obtain rfl := Option.some_inj.mp hstep
      exact ih h.sync hrest
    | write e =>
      have he := hlabels e List.mem_cons_self
      rw [step, Wal.write_eq h.1 he.1, Option.map_some, Option.some_inj] at hstep
      obtain rfl := hstep
      have hwritten := h.written (e.record codec he.1)
      rw [show delivered codec ((e.record codec he.1).op, (e.record codec he.1).payload)
        = e.message.map Message.recovered from delivered_of_publishable he] at hwritten
      have hend := ih hwritten hrest
      rw [List.append_assoc] at hend
      rw [published_cons, List.map_append, ← Option.toList_map]
      exact hend

/-- **Messages are recovered under their own topics** exactly if the names of the topics are
UTF-8. Payloads and identifiers are never in danger. -/
theorem recovered_iff_utf8 {s s' : WalState} {msgs : List Message} (h : s.wal.Holds codec msgs)
    {labels : List WalLabel} (hlabels : ∀ e, .write e ∈ labels → Publishable e)
    (hrun : Run (step codec) (fun _ ↦ True) s labels s') :
    ((replay codec s'.wal.close.dir).2.map Message.label).Perm
        ((msgs ++ published labels).map Message.label) ↔
      ∀ msg ∈ published labels, Utf8 msg.topic := by
  have hperm := ((holds_of_run hrun h hlabels).close.replay_perm).map Message.label
  rw [List.map_append, List.map_map] at hperm
  rw [List.map_append]
  constructor
  · intro hsame msg hmsg
    have hcancel := (List.perm_append_left_iff _).mp (hperm.symm.trans hsame)
    have hlabel := hcancel.mem_iff.mpr (List.mem_map_of_mem hmsg)
    obtain ⟨msg', -, heq⟩ := List.mem_map.mp hlabel
    have htopic : toValidUtf8 msg'.topic = msg.topic := congrArg (fun l ↦ l.2.1) heq
    exact htopic ▸ utf8_toValidUtf8 msg'.topic
  · intro hutf8
    have hlabels : (published labels).map (Message.label ∘ Message.recovered)
        = (published labels).map Message.label := by
      refine List.map_congr_left fun msg hmsg ↦ ?_
      rw [Function.comp_apply, Message.recovered, toValidUtf8_of_utf8 (hutf8 msg hmsg)]
    rwa [hlabels] at hperm

/-! ### Runs on an empty directory -/

def firstStamp : Stamp := ⟨0, 1, [171, 205], int64Range_zero⟩

/-- A value in each of two topics. -/
def twoTopics (topic topic' : Bytes) : List WalLabel :=
  [.write (.publish (firstStamp.message topic (some (bytesOf "a")))),
    .write (.publish (firstStamp.message topic' (some (bytesOf "b"))))]

theorem holds_start (policy : FsyncPolicy) :
    (start policy (64 * 1024 * 1024)).wal.Holds codec [] :=
  Wal.holds_openWAL (Directory.holds_empty codec) policy

theorem publishable_twoTopics (topic topic' : Bytes)
    (h : (Entry.publish (firstStamp.message topic (some (bytesOf "a")))).Short codec)
    (h' : (Entry.publish (firstStamp.message topic' (some (bytesOf "b")))).Short codec) (e : Entry)
    (he : .write e ∈ twoTopics topic topic') : Publishable e := by
  rcases List.mem_pair.mp he with heq | heq
  · obtain rfl := WalLabel.write.inj heq
    exact ⟨h, fun msg hmsg ↦ ⟨_, _, _, (Entry.publish.inj hmsg).symm⟩⟩
  · obtain rfl := WalLabel.write.inj heq
    exact ⟨h', fun msg hmsg ↦ ⟨_, _, _, (Entry.publish.inj hmsg).symm⟩⟩

/-- Two topics with ordinary names. -/
theorem recovered_iff_utf8_ordinary :
    ∃ s', Run (step codec) (fun _ ↦ True) (start .always (64 * 1024 * 1024))
        (twoTopics (bytesOf "q") (bytesOf "r")) s' ∧
      ((replay codec s'.wal.close.dir).2.map Message.label).Perm
        (([] ++ published (twoTopics (bytesOf "q") (bytesOf "r"))).map Message.label) := by
  have hpublishable := publishable_twoTopics (bytesOf "q") (bytesOf "r")
    (Entry.short_publish (by decide +kernel)) (Entry.short_publish (by decide +kernel))
  obtain ⟨s', -, hrun, -⟩ := exists_tracks (fun e he ↦ (hpublishable e he).1)
    (tracks_start .always (64 * 1024 * 1024))
  refine ⟨s', hrun, (recovered_iff_utf8 (holds_start .always) hpublishable hrun).mpr ?_⟩
  intro msg hmsg
  rcases List.mem_pair.mp hmsg with rfl | rfl
  · exact utf8_bytesOf "q"
  · exact utf8_bytesOf "r"

/-- Two topics whose names are single bytes that are not UTF-8. -/
theorem topics_merged :
    ∃ s', Run (step codec) (fun _ ↦ True) (start .always (64 * 1024 * 1024))
        (twoTopics [255] [254]) s' ∧
      ((replay codec s'.wal.close.dir).2.map Message.topic).Perm
        [[0xEF, 0xBF, 0xBD], [0xEF, 0xBF, 0xBD]] ∧
      ¬((replay codec s'.wal.close.dir).2.map Message.label).Perm
        (([] ++ published (twoTopics [255] [254])).map Message.label) := by
  have hpublishable := publishable_twoTopics [255] [254]
    (Entry.short_publish (by decide +kernel)) (Entry.short_publish (by decide +kernel))
  obtain ⟨s', -, hrun, -⟩ := exists_tracks (fun e he ↦ (hpublishable e he).1)
    (tracks_start .always (64 * 1024 * 1024))
  have hreplay := (holds_of_run hrun (holds_start .always) hpublishable).close.replay_perm
  have htopics : ((replay codec s'.wal.close.dir).2.map Message.topic).Perm
      [[0xEF, 0xBF, 0xBD], [0xEF, 0xBF, 0xBD]] :=
    (hreplay.map Message.topic).trans (List.Perm.of_eq (by decide +kernel))
  refine ⟨s', hrun, htopics, fun hsame ↦ ?_⟩
  have hsame' := hsame.map fun l ↦ l.2.1
  rw [List.map_map] at hsame'
  exact absurd (htopics.symm.trans hsame') (by decide +kernel)

end WalState

end VortexMQ
