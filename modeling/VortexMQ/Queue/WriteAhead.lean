import VortexMQ.Queue.Provenance

/-!
# The log comes first

`Publish` and its variants write a message to the log before they hand it to its topic. So whatever
the operations of the broker are in the middle of, every message that a topic holds or that is on
its way into a topic or between two places of one has a record in the log
(`BrokerState.Recorded`). If the process ends there, the next start delivers the message again:
always, if the log is closed or flushed before, and under `FsyncAlways` even if the process is
killed between two writes.

## What is left out

`PublishBatch` ignores the error of the log. Once the log is closed it would hand on messages
without a record, so its steps on a closed log are excluded (`BrokerState.Heeds`). And a record has
to be readable: its length has to fit the format, and the strings of the message have to be UTF-8.
A section of an operation writes its record as a whole and the disk does not fail; what a kill in
the middle of a write or a failing disk leaves behind is the subject of `LogHistory` and
`FaultHistory`.
-/

namespace VortexMQ

/-- There is a record of the publication. -/
def Message.LoggedIn (logged : List Message) (m : Message) : Prop :=
  m.publication ∈ logged.map Message.publication

theorem Message.loggedIn_of_mem {logged : List Message} {m : Message} (h : m ∈ logged) :
    m.LoggedIn logged := List.mem_map_of_mem h

/-- The record of the entry fits the format and reads as the entry. -/
def Entry.Loggable (c : Codec) (e : Entry) : Prop := e.Short c ∧ e.Portable

/-! ## The log -/

/-- The log holds the given messages, on disk if the policy is `FsyncAlways`. -/
structure Wal.Stores (w : Wal) (c : Codec) (policy : FsyncPolicy) (logged : List Message) :
    Prop where
  policy_eq : w.policy = policy
  archives : w.Archives c logged
  flushed : policy = .always → w.bufWriter.buf = []

namespace Wal.Stores

variable {w : Wal} {c : Codec} {policy : FsyncPolicy} {logged : List Message}

theorem openWAL {dir : Directory} (h : dir.Holds c logged) :
    (Wal.openWAL dir policy).Stores c policy logged :=
  ⟨rfl, (if_neg Bool.false_ne_true).mpr (Wal.holds_openWAL h policy), fun _ ↦ rfl⟩

theorem write (h : w.Stores c policy logged) {e : Entry} (he : e.Loggable c)
    {r : Except Bytes Unit × Wal} (hr : w.write c e = some r) :
    w.closed = true ∧ (∃ err, r.1 = .error err) ∧ r.2 = w ∨
      w.closed = false ∧ r.1 = .ok () ∧ r.2.Stores c policy (logged ++ e.message.toList) := by
  cases hclosed : w.closed with
  | true =>
    have hrefused : w.write c e = some (.error Wal.errClosed, w) := by
      cases e <;> exact if_pos hclosed
    obtain rfl := Option.some_inj.mp (hrefused.symm.trans hr)
    exact Or.inl ⟨rfl, ⟨_, rfl⟩, rfl⟩
  | false =>
    obtain rfl := Option.some_inj.mp ((Wal.write_eq hclosed he.1).symm.trans hr)
    have hopen : ¬w.closed = true := by rw [hclosed]; exact Bool.false_ne_true
    have hholds : w.Holds c logged := (if_neg hopen).mp h.archives
    refine Or.inr ⟨rfl, rfl, (w.policy_written _).trans h.policy_eq, ?_, fun halways ↦ ?_⟩
    · rw [Archives, Wal.closed_written, if_neg hopen]
      exact hholds.write he.1 he.2
    · exact Wal.buf_written (h.policy_eq.trans halways) _

private theorem sync (h : w.Stores c policy logged) : w.sync.Stores c policy logged := by
  rw [Wal.sync]
  split
  · exact h
  · rename_i hopen
    have hholds : w.Holds c logged := (if_neg hopen).mp h.archives
    have hsync := hholds.sync
    rw [Wal.sync, if_neg hopen] at hsync
    exact ⟨h.policy_eq, (if_neg hopen).mpr hsync, fun _ ↦ rfl⟩

private theorem close (h : w.Stores c policy logged) : w.close.Stores c policy logged := by
  refine ⟨?_, h.archives.close, fun halways ↦ ?_⟩
  · rw [Wal.close]
    split <;> exact h.policy_eq
  · rw [Wal.close]
    split
    · exact h.flushed halways
    · rfl

private theorem holds_dir_close (h : w.Stores c policy logged) : w.close.dir.Holds c logged := by
  have hclose := h.archives.close
  rw [Archives, if_pos w.closed_close] at hclose
  exact hclose

theorem holds_dir (h : w.Stores c policy logged) (halways : policy = .always) :
    w.dir.Holds c logged := by
  have harchives := h.archives
  rw [Archives] at harchives
  split at harchives
  · exact harchives
  · obtain ⟨-, L, hrep, hrest⟩ := harchives
    exact ⟨L, hrep.dir_of_buf_eq_nil (h.flushed halways), hrest⟩

end Wal.Stores

/-! ## The log of a broker -/

/-- The broker has a log, and it holds the given messages. -/
def Broker.Stores (b : Broker) (c : Codec) (policy : FsyncPolicy) (logged : List Message) : Prop :=
  ∃ w, b.wal = some w ∧ w.Stores c policy logged

namespace Broker.Stores

variable {b b' : Broker} {c : Codec} {policy : FsyncPolicy} {logged : List Message}

theorem of_wal (h : b.Stores c policy logged) (hwal : b'.wal = b.wal) :
    b'.Stores c policy logged := by
  rw [Broker.Stores, hwal]
  exact h

/-- **The log of a publication.** A closed log refuses it and stays as it is, an open one has it
afterwards. -/
theorem logPublish (h : b.Stores c policy logged) {msg : Message}
    (hmsg : (Entry.publish msg).Loggable c) {r : Except Bytes Unit × Broker}
    (hr : b.logPublish c msg = some r) :
    (∃ w, b.wal = some w ∧ w.closed = true) ∧ r.1 ≠ .ok () ∧ r.2.Stores c policy logged ∨
      r.2.Stores c policy (logged ++ [msg]) := by
  obtain ⟨w, hw, hstores⟩ := h
  rw [Broker.logPublish, hw] at hr
  obtain ⟨r', hwrite, rfl⟩ := Option.map_eq_some_iff.mp hr
  rcases hstores.write hmsg hwrite with ⟨hclosed, ⟨err, herr⟩, hsame⟩ | ⟨-, -, hnew⟩
  · exact Or.inl ⟨⟨w, hw, hclosed⟩, by simp [herr], r'.2, rfl, hsame ▸ hstores⟩
  · exact Or.inr ⟨r'.2, rfl, hnew⟩

private theorem logAck (h : b.Stores c policy logged) {topicName groupName msgID : Bytes}
    (hack : (Entry.ack topicName groupName msgID).Loggable c)
    (hb' : b.logAck topicName groupName msgID = some b') : b'.Stores c policy logged := by
  obtain ⟨w, hw, hstores⟩ := h
  rw [Broker.logAck, hw] at hb'
  obtain ⟨r', hwrite, rfl⟩ := Option.map_eq_some_iff.mp hb'
  rcases hstores.write hack hwrite with ⟨-, -, hsame⟩ | ⟨-, -, hnew⟩
  · exact ⟨r'.2, rfl, hsame ▸ hstores⟩
  · rw [show (Entry.ack topicName groupName msgID).message.toList = [] from rfl,
      List.append_nil] at hnew
    exact ⟨r'.2, rfl, hnew⟩

private theorem syncLog (h : b.Stores c policy logged) : b.syncLog.Stores c policy logged := by
  obtain ⟨w, hw, hstores⟩ := h
  refine ⟨w.sync, ?_, hstores.sync⟩
  rw [Broker.syncLog, hw]
  rfl

private theorem foldl_recover : ∀ {msgs : List Message} {b : Broker}, b.Stores c policy logged →
    (msgs.foldl Broker.recover b).Stores c policy logged := by
  intro msgs
  induction msgs with
  | nil => exact id
  | cons msg msgs ih => exact fun h ↦ ih (h.of_wal (wal_getOrCreateTopic _ msg.topic))

end Broker.Stores

/-! ## Operations in progress -/

namespace Job

/-- The entry that the next step of the operation writes. -/
def writes : Job → Option Entry
  | .log msg _ | .batch _ (msg :: _) _ => some (.publish msg)
  | .logAck topicName groupName msgID => some (.ack topicName groupName msgID)
  | _ => none

/-- `PublishBatch`, which goes on if the log refuses a message. -/
def isBatch : Job → Bool
  | .batch _ _ _ => true
  | _ => false

/-- **One step of an operation.** What it lets past the log is in the log. -/
theorem stores_step {c : Codec} {policy : FsyncPolicy} {logged : List Message} {job : Job}
    {b : Broker} {now : ℤ} {order : List Message} (hb : b.Stores c policy logged)
    (hwrites : ∀ e, job.writes = some e → e.Loggable c)
    (hbatch : job.isBatch = true → ∀ w, b.wal = some w → w.closed = false)
    {r : Broker × Option Job} (hr : job.step c b now order = some r) :
    ∃ logged', logged ⊆ logged' ∧ r.1.Stores c policy logged' ∧
      ∀ name m, job.Admits c b name m → m ∈ logged' := by
  -- a step that does not write
  have same {b' : Broker} (hwal : b'.wal = b.wal) (hadmits : ∀ name m, ¬job.Admits c b name m) :
      ∃ logged', logged ⊆ logged' ∧ b'.Stores c policy logged' ∧
        ∀ name m, job.Admits c b name m → m ∈ logged' :=
    ⟨logged, List.Subset.refl _, hb.of_wal hwal, fun name m hm ↦ (hadmits name m hm).elim⟩
  cases job with
  | log msg call =>
    rw [Job.step, Option.map_eq_some_iff] at hr
    obtain ⟨⟨res, b'⟩, hlog, hr⟩ := hr
    have hfst : r.1 = b' := by cases res <;> exact congrArg Prod.fst hr.symm
    rw [hfst]
    rcases hb.logPublish (hwrites _ rfl) hlog with ⟨-, hne, hsame⟩ | hnew
    · refine ⟨logged, List.Subset.refl _, hsame, ?_⟩
      rintro name m ⟨-, -, b'', hok⟩
      exact absurd (congrArg Prod.fst (Option.some_inj.mp (hlog.symm.trans hok))) hne
    · refine ⟨_, List.subset_append_left _ [msg], hnew, ?_⟩
      rintro name m ⟨-, rfl, -⟩
      exact List.mem_append_right _ (List.mem_singleton_self m)
  | batch topicName msgs count =>
    cases msgs with
    | nil =>
      obtain rfl := Option.some_inj.mp hr
      exact same rfl fun _ _ ↦ id
    | cons msg msgs =>
      rw [Job.step, Option.map_eq_some_iff] at hr
      obtain ⟨⟨res, b'⟩, hlog, rfl⟩ := hr
      rcases hb.logPublish (hwrites _ rfl) hlog with ⟨⟨w, hw, hclosed⟩, -⟩ | hnew
      · exact absurd (hbatch rfl w hw) (by simp [hclosed])
      · refine ⟨_, List.subset_append_left _ [msg], hnew, ?_⟩
        rintro name m ⟨-, rfl⟩
        exact List.mem_append_right _ (List.mem_singleton_self m)
  | enter topicName call | inTopic topicName task =>
    rw [Job.step, Option.bind_eq_some_iff] at hr
    obtain ⟨t, -, hr⟩ := hr
    rw [Option.map_eq_some_iff] at hr
    obtain ⟨x, -, rfl⟩ := hr
    exact same rfl fun _ _ ↦ id
  | batchCheck topicName msg msgs count =>
    rw [Job.step, Option.bind_eq_some_iff] at hr
    obtain ⟨t, -, hr⟩ := hr
    rw [Option.ite_none_left_eq_some] at hr
    obtain ⟨-, hr⟩ := hr
    split at hr <;> obtain rfl := Option.some_inj.mp hr <;> exact same rfl fun _ _ ↦ id
  | batchPush topicName msg msgs count =>
    rw [Job.step, Option.map_eq_some_iff] at hr
    obtain ⟨t, -, rfl⟩ := hr
    exact same rfl fun _ _ ↦ id
  | add k n record =>
    obtain rfl := Option.some_inj.mp hr
    exact same (by cases k <;> rfl) fun _ _ ↦ id
  | logAck topicName groupName msgID =>
    rw [Job.step, Option.map_eq_some_iff] at hr
    obtain ⟨b', hlog, rfl⟩ := hr
    exact ⟨logged, List.Subset.refl _, hb.logAck (hwrites _ rfl) hlog, fun _ _ ↦ False.elim⟩
  | createGroup topicName groupName timeout =>
    rw [Job.step, Option.bind_eq_some_iff] at hr
    obtain ⟨t, -, hr⟩ := hr
    rw [Option.ite_none_left_eq_some, Option.some_inj] at hr
    obtain ⟨-, rfl⟩ := hr
    exact same rfl fun _ _ ↦ id
  | close names =>
    cases names with
    | nil =>
      obtain rfl := Option.some_inj.mp hr
      obtain ⟨w, hw, hstores⟩ := hb
      have hclosed : b.wal.map Wal.close = some w.close := by rw [hw]; rfl
      exact ⟨logged, List.Subset.refl _, ⟨w.close, hclosed, hstores.close⟩, fun _ _ ↦ False.elim⟩
    | cons topicName names =>
      rw [Job.step, Option.map_eq_some_iff] at hr
      obtain ⟨t, -, rfl⟩ := hr
      cases PublishSystem.closeTopic t with
      | none => exact same rfl fun _ _ ↦ id
      | some t' => exact same rfl fun _ _ ↦ id

end Job

/-! ## The system -/

namespace BrokerState

/-- Everything has a record. -/
structure Recorded (c : Codec) (policy : FsyncPolicy) (logged : List Message) (s : BrokerState) :
    Prop where
  log : s.broker.Stores c policy logged
  within : s.Within (fun _ _ ↦ True) fun _ x ↦ x ∈ logged.map Message.publication

/-- A record that the step writes can be read back, and if the step is one of `PublishBatch`, the
log is open. -/
def Heeds (c : Codec) (s : BrokerState) : Label → Prop
  | .resume i _ _ => ∀ job, s.jobs[i]? = some job →
      (∀ e, job.writes = some e → e.Loggable c) ∧
        (job.isBatch = true → ∀ w, s.broker.wal = some w → w.closed = false)
  | _ => True

variable {c : Codec} {policy : FsyncPolicy} {logged : List Message} {s s' : BrokerState}

namespace Recorded

private theorem wal_find {topicName : Bytes} {call : Call} (hs' : s.find topicName call = some s') :
    s'.broker.wal = s.broker.wal := by
  rw [BrokerState.find, Option.ite_none_left_eq_some] at hs'
  obtain ⟨-, hs'⟩ := hs'
  split at hs' <;> obtain rfl := Option.some_inj.mp hs' <;> rfl

private theorem wal_findOrCreate {topicName : Bytes} {job : Job}
    (hs' : s.findOrCreate topicName job = some s') : s'.broker.wal = s.broker.wal := by
  rw [BrokerState.findOrCreate, Option.ite_none_left_eq_some, Option.some_inj] at hs'
  obtain ⟨-, rfl⟩ := hs'
  exact Broker.wal_getOrCreateTopic _ _

/-- **A step of the broker, and its log.** -/
theorem stores_step (h : s.broker.Stores c policy logged) {l : Label} (hheeds : s.Heeds c l)
    (hs' : s.step c l = some s') :
    ∃ logged', logged ⊆ logged' ∧ s'.broker.Stores c policy logged' ∧
      ∀ name m, s.Admits c l name m → m ∈ logged' := by
  -- a step that does not write
  have same {b : Broker} (hb : b.Stores c policy logged) (hl : ∀ name m, ¬s.Admits c l name m) :
      ∃ logged', logged ⊆ logged' ∧ b.Stores c policy logged' ∧
        ∀ name m, s.Admits c l name m → m ∈ logged' :=
    ⟨logged, List.Subset.refl _, hb, fun name m hm ↦ (hl name m hm).elim⟩
  cases l with
  | publish | publishDelayed | consumeGroup | createGroup =>
    exact same (h.of_wal (wal_findOrCreate hs')) fun _ _ ↦ id
  | publishBatch topicName payloads =>
    rw [BrokerState.step] at hs'
    split at hs'
    · obtain rfl := Option.some_inj.mp hs'
      exact same h fun _ _ ↦ id
    · exact same (h.of_wal (wal_findOrCreate hs')) fun _ _ ↦ id
  | consume | ack | nack | replayDLQ | purgeDLQ | sweep =>
    exact same (h.of_wal (wal_find hs')) fun _ _ ↦ id
  | tick topicName =>
    rw [BrokerState.step, Option.map_eq_some_iff] at hs'
    obtain ⟨t, -, rfl⟩ := hs'
    exact same h fun _ _ ↦ id
  | syncLog =>
    obtain rfl := Option.some_inj.mp hs'
    exact same h.syncLog fun _ _ ↦ id
  | close order =>
    rw [BrokerState.step, Option.ite_none_left_eq_some] at hs'
    obtain ⟨-, hs'⟩ := hs'
    split at hs'
    · obtain rfl := Option.some_inj.mp hs'
      exact same h fun _ _ ↦ id
    · rw [Option.ite_none_right_eq_some, Option.some_inj] at hs'
      obtain ⟨-, rfl⟩ := hs'
      exact same (h.of_wal rfl) fun _ _ ↦ id
  | resume i now order =>
    rw [BrokerState.step, Option.bind_eq_some_iff] at hs'
    obtain ⟨job, hjob, hs'⟩ := hs'
    rw [Option.map_eq_some_iff] at hs'
    obtain ⟨r, hr, rfl⟩ := hs'
    obtain ⟨hwrites, hbatch⟩ := hheeds job hjob
    obtain ⟨logged', hsub, hstores, hadmits⟩ := Job.stores_step h hwrites hbatch hr
    refine ⟨logged', hsub, hstores, ?_⟩
    rintro name m ⟨job', hjob', hm⟩
    obtain rfl := Option.some_inj.mp (hjob.symm.trans hjob')
    exact hadmits name m hm
  | giveUp i =>
    rw [BrokerState.step] at hs'
    split at hs'
    · obtain ⟨t, -, hs'⟩ := Option.bind_eq_some_iff.mp hs'
      rw [Option.ite_none_right_eq_some, Option.some_inj] at hs'
      obtain ⟨-, rfl⟩ := hs'
      exact same h fun _ _ ↦ id
    · exact absurd hs' (by simp)

/-- **A step of the broker.** -/
theorem step (h : Recorded c policy logged s) {l : Label} (hheeds : s.Heeds c l)
    (hs' : s.step c l = some s') : ∃ logged', logged ⊆ logged' ∧ Recorded c policy logged' s' := by
  obtain ⟨logged', hsub, hstores, hadmits⟩ := stores_step h.log hheeds hs'
  refine ⟨logged', hsub, hstores, h.within.step (fun _ _ ↦ id) (fun _ x hx ↦ ?_)
    (fun _ _ ↦ trivial) (fun name m hm _ ↦ ?_) hs'⟩
  · exact List.map_subset _ hsub hx
  · exact List.mem_map_of_mem (hadmits name m hm)

/-- **A whole run.** -/
theorem run (h : Recorded c policy logged s) {labels : List Label}
    (hrun : Run (BrokerState.step c) (fun _ ↦ True) s labels s')
    (hheeds : Run.Guarded (BrokerState.step c) (Heeds c) s labels) :
    ∃ logged', logged ⊆ logged' ∧ Recorded c policy logged' s' := by
  refine hrun.invariant_of_guarded (I := fun u ↦ ∃ logged', logged ⊆ logged' ∧
    Recorded c policy logged' u) (fun u l v hl hv ↦ ?_) hheeds ⟨logged, List.Subset.refl _, h⟩
  rintro ⟨logged₁, hsub₁, hu⟩
  obtain ⟨logged₂, hsub₂, hv⟩ := hu.step hl hv
  exact ⟨logged₂, List.Subset.trans hsub₁ hsub₂, hv⟩

private theorem boot {dir : Directory} (h : dir.Holds c logged) (now : ℤ) :
    Recorded c policy logged (idle (Broker.boot c dir policy now)) := by
  have hlog : (Broker.newBroker (some (Wal.openWAL dir policy)) now).Stores c policy logged :=
    ⟨_, rfl, Wal.Stores.openWAL h⟩
  have hempty : (Broker.newBroker (some (Wal.openWAL dir policy)) now).Within
      fun _ x ↦ x ∈ logged.map Message.publication :=
    fun name t ht ↦ absurd ht (by simp [Broker.newBroker])
  refine ⟨hlog.foldl_recover, hempty.foldl_recover fun m hm ↦ ?_,
    fun job hjob ↦ absurd hjob List.not_mem_nil⟩
  exact List.mem_map_of_mem ((Wal.holds_dir_openWAL h policy).replay_perm.mem_iff.mp hm)

end Recorded

/-- **No message is ahead of the log.** Start on a directory with messages `msgs`, let the
operations of the broker interleave in any way, with every record readable and no `PublishBatch` on
a closed log, and look at any moment at the messages that the broker holds, in the topics or in
operations past the log. Let it go on in any way, on a disk without errors, and let it close the log
or, under `FsyncAlways`, be killed between two writes. Then the directory is again a log without
partial records, the next start delivers exactly what is in it, and that includes every one of those
messages and every one of `msgs`, by identifier, topic and payload. -/
theorem recovers_every_message {dir d : Directory} {now : ℤ} {msgs : List Message}
    {s u : BrokerState} {before after : List Label} {w : Wal} (hdir : dir.Holds c msgs)
    (hbefore : Run (BrokerState.step c) (fun _ ↦ True) (idle (Broker.boot c dir policy now))
      before s)
    (hheeds : Run.Guarded (BrokerState.step c) (Heeds c) (idle (Broker.boot c dir policy now))
      before)
    (hafter : Run (BrokerState.step c) (fun _ ↦ True) s after u)
    (hheeds' : Run.Guarded (BrokerState.step c) (Heeds c) s after)
    (hw : u.broker.wal = some w) (hd : d = w.close.dir ∨ policy = .always ∧ d = w.dir) :
    ∃ logged, d.Holds c logged ∧
      (∀ policy', ((Start.withLog d policy').messages c).Perm logged) ∧
      ∀ m ∈ msgs ++ s.messages, m.LoggedIn logged := by
  obtain ⟨logged₁, hsub₁, hs⟩ := (Recorded.boot hdir now).run hbefore hheeds
  obtain ⟨logged₂, hsub₂, hu⟩ := hs.run hafter hheeds'
  obtain ⟨w', hw', hstores⟩ := hu.log
  obtain rfl := Option.some_inj.mp (hw'.symm.trans hw)
  have hholds : d.Holds c logged₂ := by
    rcases hd with rfl | ⟨halways, rfl⟩
    · exact hstores.holds_dir_close
    · exact hstores.holds_dir halways
  refine ⟨logged₂, hholds, fun policy' ↦ ?_, fun m hm ↦ ?_⟩
  · exact (Wal.holds_dir_openWAL hholds policy').replay_perm
  · rcases List.mem_append.mp hm with hm | hm
    · exact Message.loggedIn_of_mem (hsub₂ (hsub₁ hm))
    · obtain ⟨-, hlogged⟩ := hs.within.exists_of_mem hm
      exact List.map_subset _ hsub₂ hlogged

/-- A job is published, and a consumer takes it from the ring. -/
def jobTaken : List Label :=
  [.publish (bytesOf "orders") (some (bytesOf "job")) BrokerHistory.jobStamp false, .resume 0 0 [],
    .resume 0 0 [], .resume 0 0 [], .consumeGroup (bytesOf "orders") (bytesOf "g") (bytesOf "c"),
    .resume 1 0 [], .resume 1 0 []]

def writesJobOnly (s : BrokerState) : Label → Bool
  | .resume i _ _ => (s.jobs[i]?).all fun job ↦
      !job.isBatch && match job.writes with
        | none => true
        | some (.publish msg) => msg = BrokerHistory.job
        | some (.ack _ _ _) => false
  | _ => true

private theorem heeds_of_writesJobOnly {l : Label} (h : s.writesJobOnly l = true) :
    s.Heeds MessageJson.codec l := by
  cases l with
  | resume i now order =>
    intro job hjob
    rw [writesJobOnly, hjob, Option.all_some, Bool.and_eq_true, Bool.not_eq_true'] at h
    refine ⟨fun e he ↦ ?_, fun hbatch ↦ absurd (hbatch.symm.trans h.1) (by decide)⟩
    rw [he] at h
    cases e with
    | publish msg =>
      rw [of_decide_eq_true h.2]
      exact ⟨Entry.short_publish (by decide +kernel),
        Message.portable_newMessage (utf8_bytesOf _) BrokerHistory.jobStamp.inRange _ _ _⟩
    | ack => exact absurd h.2 Bool.false_ne_true
  | _ => trivial

/-- The process is killed while `ConsumeGroup` has the job in its hands: it is in no ring and in no
pending list, but the next start delivers it. -/
theorem recovers_every_message_killed :
    ∃ s w, Run (BrokerState.step MessageJson.codec) (fun _ ↦ True)
        (idle (Broker.boot MessageJson.codec ∅ .always 0)) jobTaken s ∧
      s.broker.wal = some w ∧ s.messages = [BrokerHistory.job] ∧
      s.broker.topics.entries.flatMap (fun e ↦ e.2.messages) = [] ∧
      ∃ m ∈ (Start.withLog w.dir .always).messages MessageJson.codec,
        m.publication = BrokerHistory.job.publication := by
  have hsome : (Run.exec (BrokerState.step MessageJson.codec) (fun _ ↦ True)
      (idle (Broker.boot MessageJson.codec ∅ .always 0)) jobTaken).isSome := by decide +kernel
  have hrun := Run.of_exec (Option.some_get hsome).symm
  have hmessages := hrun.of_exec_map (f := BrokerState.messages) (a := [BrokerHistory.job])
    (by decide +kernel)
  have htopics := hrun.of_exec_map
    (f := fun s ↦ s.broker.topics.entries.flatMap fun e ↦ e.2.messages) (a := [])
    (by decide +kernel)
  have hwal := hrun.of_exec_map (f := fun s ↦ s.broker.wal.isSome) (a := true) (by decide +kernel)
  obtain ⟨w, hw⟩ := Option.isSome_iff_exists.mp hwal
  have hcheck : Run.checkGuard (BrokerState.step MessageJson.codec) writesJobOnly
      (idle (Broker.boot MessageJson.codec ∅ .always 0)) jobTaken = true := by decide +kernel
  have hheeds := (Run.guarded_of_checkGuard hcheck).mono fun _ _ ↦ heeds_of_writesJobOnly
  obtain ⟨logged, -, hperm, hlogged⟩ := recovers_every_message (Directory.holds_empty _) hrun
    hheeds (Run.nil trivial) trivial hw (Or.inr ⟨rfl, rfl⟩)
  have hjob := hlogged BrokerHistory.job (by rw [hmessages]; exact List.mem_singleton_self _)
  obtain ⟨m, hm, heq⟩ := List.mem_map.mp hjob
  exact ⟨_, w, hrun, hw, hmessages, htopics, m, (hperm .always).mem_iff.mpr hm, heq⟩

end BrokerState

end VortexMQ
