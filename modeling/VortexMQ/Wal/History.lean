import VortexMQ.Wal.Contents

/-!
# Histories of sessions

One directory, any number of sessions one after the other, each ending in `Close` or in a crash.
`OpenWAL` goes back to the first segment and appends to it as it finds it, and rotation moves into
segments that may exist already. Two things can go wrong, and this file shows that nothing else
can.

* A crash leaves a partial record at the end of a segment. Whatever is appended behind it is
  unreadable. If no record is ever written behind a partial one, replay delivers every message
  whose write was acknowledged, in whichever session.
* A session that reopens the first segment writes before the records of segments that earlier
  sessions have filled. If every record is written while the later segments are empty, replay
  delivers the messages of all sessions in the order in which they were written.
-/

namespace VortexMQ

/-- Between two sessions, or in one. -/
inductive LogPhase where
  | idle (dir : Directory)
  | active (w : Wal)

/-- The directory's life so far. -/
structure LogHistory where
  phase : LogPhase
  /-- The messages whose `WritePublish` returned without an error, in order. -/
  written : List Message

inductive SessionLabel where
  | openWAL (policy : FsyncPolicy)
  | write (e : Entry)
  /-- The periodic flush. -/
  | sync
  | close
  /-- The process dies, perhaps in the middle of a write, when `k` of the bytes on their way to the
  file have arrived there. -/
  | crash (inFlight : Option Entry) (k : ℕ)

namespace LogHistory

variable (c : Codec)

def init : LogHistory := ⟨.idle ∅, []⟩

/-- The frame of a write in progress. -/
def inFlightBytes : Option Entry → Bytes
  | none => []
  | some e => (frame e.op (e.payload c)).getD []

def step (s : LogHistory) (l : SessionLabel) : Option LogHistory :=
  match s.phase, l with
  | .idle dir, .openWAL policy => some { s with phase := .active (Wal.openWAL dir policy) }
  | .active w, .write e => (w.write c e).map fun r ↦
      match r.1 with
      | .ok _ => ⟨.active r.2, s.written ++ e.message.toList⟩
      | .error _ => { s with phase := .active r.2 }
  | .active w, .sync => some { s with phase := .active w.sync }
  | .active w, .close => some { s with phase := .idle w.close.dir }
  | .active w, .crash inFlight k =>
      some { s with
        phase := .idle (w.dir.append w.activeFile
          ((w.bufWriter.buf ++ inFlightBytes c inFlight).take k)) }
  | _, _ => none

theorem step_openWAL (dir : Directory) (written : List Message) (policy : FsyncPolicy) :
    step c ⟨.idle dir, written⟩ (.openWAL policy)
      = some ⟨.active (Wal.openWAL dir policy), written⟩ := rfl

theorem step_close (w : Wal) (written : List Message) :
    step c ⟨.active w, written⟩ .close = some ⟨.idle w.close.dir, written⟩ := rfl

theorem step_crash (w : Wal) (written : List Message) (inFlight : Option Entry) (k : ℕ) :
    step c ⟨.active w, written⟩ (.crash inFlight k)
      = some ⟨.idle (w.dir.append w.activeFile
          ((w.bufWriter.buf ++ inFlightBytes c inFlight).take k)), written⟩ := rfl

variable {c} in
theorem step_write {w : Wal} {e : Entry} (hopen : w.closed = false) (h : e.Short c)
    (written : List Message) :
    step c ⟨.active w, written⟩ (.write e)
      = some ⟨.active (w.written (e.record c h)), written ++ e.message.toList⟩ := by
  have hwrite := Wal.write_eq hopen h
  change (w.write c e).map _ = _
  rw [hwrite]
  rfl

end LogHistory

/-! ## Growing logs -/

/-- No segment loses a record. -/
structure SegmentLog.Grows (L L' : SegmentLog) : Prop where
  count_le : L.count ≤ L'.count
  records : ∀ n, L.records n <+: L'.records n

namespace SegmentLog

variable {L L' : SegmentLog}

theorem grows_append (L : SegmentLog) (id : ℕ) (r : Record) : L.Grows (L.append id r) := by
  refine ⟨le_rfl, fun n ↦ ?_⟩
  by_cases hn : n = id
  · subst hn
    rw [records_append_self]
    exact List.prefix_append _ _
  · rw [records_append_of_ne hn]

private theorem grows_extend (L : SegmentLog) (id : ℕ) : L.Grows (L.extend id) :=
  ⟨Nat.le_max_left _ _, fun _ ↦ List.prefix_rfl⟩

theorem Grows.trans {L'' : SegmentLog} (h : L.Grows L') (h' : L'.Grows L'') : L.Grows L'' :=
  ⟨h.count_le.trans h'.count_le, fun n ↦ (h.records n).trans (h'.records n)⟩

def Has (L : SegmentLog) (c : Codec) (m : Message) : Prop :=
  ∃ n, m ∈ L.messagesIn c n ∧ 1 ≤ n ∧ n ≤ L.count

theorem Has.of_grows {c : Codec} {m : Message} (h : L.Has c m) (hgrows : L.Grows L') :
    L'.Has c m := by
  obtain ⟨n, hm, hpos, hle⟩ := h
  refine ⟨n, ?_, hpos, hle.trans hgrows.count_le⟩
  obtain ⟨r, hr, hdel⟩ := List.mem_filterMap.mp hm
  exact List.mem_filterMap.mpr ⟨r, (hgrows.records n).subset hr, hdel⟩

private theorem has_append {c : Codec} {m : Message} {id : ℕ} {r : Record} (hpos : 1 ≤ id)
    (hle : id ≤ L.count) (h : delivered c (r.op, r.payload) = some m) :
    (L.append id r).Has c m := by
  refine ⟨id, ?_, hpos, hle⟩
  rw [messagesIn_append_self, h]
  exact List.mem_append_right _ (List.mem_singleton.mpr rfl)

end SegmentLog

namespace LogHistory

variable {c : Codec} {s s' : LogHistory} {L : SegmentLog}

/-! ## Partial records -/

/-- Reading the active segment stops at its end, not before. -/
def Intact (w : Wal) : Prop :=
  (recordCode.decodeAll (w.dir.content w.activeFile).length (w.dir.content w.activeFile)).2 = []

/-- The write in progress, if any, does not go behind a partial record. -/
def AppendsToRecords (c : Codec) (s : LogHistory) (l : SessionLabel) : Prop :=
  match s.phase, l with
  | _, .openWAL policy => policy = .always
  | .active w, .write e => Intact w ∧ e.Short c ∧ e.Portable
  | .active w, .crash (some e) _ => Intact w ∧ e.Short c
  | _, _ => True

/-- The directory represents a log; a session under `FsyncAlways` has nothing in its buffer. -/
def Shows (L : SegmentLog) : LogPhase → Prop
  | .idle dir => dir.Represents L
  | .active w => w.Represents L ∧ w.closed = false ∧ w.policy = .always ∧ w.bufWriter.buf = []

def Durable (c : Codec) (s : LogHistory) : Prop :=
  ∃ L, Shows L s.phase ∧ ∀ m ∈ s.written, L.Has c m

theorem intact_iff {w : Wal} (h : w.Represents L) (hbuf : w.bufWriter.buf = []) :
    Intact w ↔ L.torn w.segmentID = [] := by
  have hdir := h.dir_of_buf_eq_nil hbuf
  have hlen : (L.records w.segmentID).length
      ≤ (recordCode.encodeAll (L.records w.segmentID) ++ L.torn w.segmentID).length := by
    rw [List.length_append]
    exact (recordCode.length_le_length_encodeAll _).trans (Nat.le_add_right _ _)
  rw [Intact, h.activeFile, hdir.content,
    recordCode.decodeAll_encodeAll_append (L.readRecord_torn _) hlen]

/-- What a crash in the middle of a write leaves: the whole record, or a part that does not read. -/
theorem exists_represents_crash {d : Directory} {id : ℕ} (h : d.Represents L)
    (hmem : segName id ∈ d) (htorn : L.torn id = []) (r : Record) (k : ℕ) :
    ∃ L', (d.append (segName id) (r.bytes.take k)).Represents L' ∧ L.Grows L' := by
  by_cases hk : r.bytes.length ≤ k
  · rw [List.take_of_length_le hk]
    exact ⟨L.append id r, h.append hmem htorn r, L.grows_append id r⟩
  · have hne : r.bytes.take k ≠ r.bytes := fun heq ↦ by
      have hlen := congrArg List.length heq
      rw [List.length_take] at hlen
      omega
    have hnone : readRecord (r.bytes.take k) = none :=
      recordCode.decode_torn r _ (List.take_prefix _ _) hne
    exact ⟨L.tear id _ hnone, h.tear hmem htorn hnone, le_rfl, fun _ ↦ List.prefix_rfl⟩

theorem Durable.step {l : SessionLabel} (hguard : AppendsToRecords c s l)
    (hstep : s.step c l = some s') (h : Durable c s) : Durable c s' := by
  obtain ⟨L, hphase, hwritten⟩ := h
  unfold LogHistory.step at hstep
  unfold AppendsToRecords at hguard
  split at hstep
  · rename_i dir policy hs
    rw [hs] at hphase
    rw [Option.some_inj] at hstep
    subst hstep
    have hpolicy : policy = .always := by simpa [hs] using hguard
    have hopen := Wal.represents_openWAL hphase policy
    exact ⟨L.extend 1, ⟨hopen, rfl, hpolicy, rfl⟩,
      fun m hm ↦ (hwritten m hm).of_grows (L.grows_extend 1)⟩
  · rename_i w e hs
    rw [hs] at hphase hguard
    obtain ⟨hrep, hopen, halways, hbuf⟩ := hphase
    obtain ⟨hintact, hshort, hportable⟩ := hguard
    rw [Wal.write_eq hopen hshort, Option.map_some, Option.some_inj] at hstep
    subst hstep
    let r := e.record c hshort
    have hgrows := (L.grows_append w.segmentID r).trans
      ((L.append w.segmentID r).grows_extend (w.written r).segmentID)
    refine ⟨_, ⟨hrep.written ((intact_iff hrep hbuf).mp hintact) r,
      (w.closed_written r).trans hopen, (w.policy_written r).trans halways,
      Wal.buf_written halways r⟩, fun m hm ↦ ?_⟩
    rcases List.mem_append.mp hm with hm | hm
    · exact (hwritten m hm).of_grows hgrows
    · have hdel : delivered c (r.op, r.payload) = some m :=
        (e.delivered_eq c hportable).trans (Option.mem_toList.mp hm)
      exact (SegmentLog.has_append hrep.pos hrep.le hdel).of_grows
        ((L.append w.segmentID r).grows_extend _)
  · rename_i w hs
    rw [hs] at hphase
    obtain ⟨hrep, hopen, halways, hbuf⟩ := hphase
    rw [Option.some_inj] at hstep
    subst hstep
    have hsync : w.sync = w.flush := by rw [Wal.sync, hopen, if_neg Bool.false_ne_true]
    refine ⟨L, ?_, hwritten⟩
    rw [hsync]
    exact ⟨hrep.flush, hopen, halways, rfl⟩
  · rename_i w hs
    rw [hs] at hphase
    obtain ⟨hrep, hopen, -, -⟩ := hphase
    rw [Option.some_inj] at hstep
    subst hstep
    exact ⟨L, hrep.close hopen, hwritten⟩
  · rename_i w inFlight k hs
    rw [hs] at hphase hguard
    obtain ⟨hrep, -, -, hbuf⟩ := hphase
    rw [Option.some_inj] at hstep
    subst hstep
    have hdir := hrep.dir_of_buf_eq_nil hbuf
    have hmem : segName w.segmentID ∈ w.dir := hrep.activeFile ▸ hrep.mem_dir
    rw [hbuf, List.nil_append, hrep.activeFile]
    cases inFlight with
    | none =>
      refine ⟨L, ?_, hwritten⟩
      have hnone : (inFlightBytes c none).take k = [] := List.take_nil
      change (w.dir.append _ _).Represents L
      rw [hnone]
      refine hdir.congr (Directory.keys_append_perm hmem _) fun n ↦ ?_
      rw [Directory.content_append, ite_self, List.append_nil]
    | some e =>
      obtain ⟨hintact, hshort⟩ := hguard
      have hframe : inFlightBytes c (some e) = (e.record c hshort).bytes := by
        have h : frame e.op (e.payload c) = some (e.record c hshort).bytes :=
          (e.record c hshort).frame_eq
        rw [inFlightBytes, h, Option.getD_some]
      rw [hframe]
      obtain ⟨L', hL', hgrows⟩ := exists_represents_crash hdir hmem
        ((intact_iff hrep hbuf).mp hintact) (e.record c hshort) k
      exact ⟨L', hL', fun m hm ↦ (hwritten m hm).of_grows hgrows⟩
  · exact absurd hstep (by simp)

/-- **Durability.** In every history of sessions under `FsyncAlways` in which no record is written
behind a partial one, replay after the last session delivers every message whose write was
acknowledged in any of them. -/
theorem mem_replay_of_appendsToRecords {labels : List SessionLabel} {dir : Directory}
    (hrun : Run (step c) (fun _ ↦ True) init labels s)
    (hguard : Run.Guarded (step c) (AppendsToRecords c) init labels)
    (hidle : s.phase = .idle dir) : ∀ m ∈ s.written, m ∈ (replay c dir).2 := by
  have hinit : Durable c init :=
    ⟨SegmentLog.empty, Directory.Represents.empty, fun m hm ↦ absurd hm List.not_mem_nil⟩
  obtain ⟨L, hphase, hwritten⟩ := hrun.invariant_of_guarded
    (fun _ _ _ hg hs h ↦ Durable.step hg hs h) hguard hinit
  rw [hidle] at hphase
  exact fun m hm ↦ (Directory.Represents.mem_replay_iff hphase c m).mpr (hwritten m hm)

/-- A message as `NewMessage` builds it. -/
def sample (seq : UInt64) : Message :=
  Message.newMessage (bytesOf "orders") (some [seq.toUInt8]) 0 seq [171, 205]

theorem portable_sample (seq : UInt64) : (sample seq).Portable :=
  Message.portable_newMessage (utf8_bytesOf _) (by decide) _ _ _

theorem short_sample_one : (Entry.publish (sample 1)).Short MessageJson.codec :=
  Entry.short_publish (by decide +kernel)

theorem short_sample_two : (Entry.publish (sample 2)).Short MessageJson.codec :=
  Entry.short_publish (by decide +kernel)

/-- A session that writes one entry and dies in the middle of another. -/
theorem run_write_crash {e : Entry} (h : e.Short c) (e' : Entry) (k : ℕ) :
    Run (step c) (fun _ ↦ True) init
      [.openWAL .always, .write e, .crash (some e') k]
      ⟨.idle (((Wal.openWAL ∅ .always).written (e.record c h)).dir.append
          ((Wal.openWAL ∅ .always).written (e.record c h)).activeFile
          ((((Wal.openWAL ∅ .always).written (e.record c h)).bufWriter.buf
            ++ inFlightBytes c (some e')).take k)), e.message.toList⟩ :=
  Run.cons trivial (step_openWAL c _ _ _) (Run.cons trivial (step_write rfl h [])
    (Run.cons trivial (step_crash c _ _ _ _) (Run.nil trivial)))

/-- A crash in the middle of the second record leaves the first one. -/
theorem mem_replay_of_appendsToRecords_crash :
    ∃ s dir, Run (step MessageJson.codec) (fun _ ↦ True) init
        [.openWAL .always, .write (.publish (sample 1)), .crash (some (.publish (sample 2))) 5] s ∧
      s.phase = .idle dir ∧ sample 1 ∈ s.written ∧ sample 1 ∈ (replay MessageJson.codec dir).2 := by
  have hopened := Wal.represents_openWAL Directory.Represents.empty .always
  have hwritten := hopened.written rfl (Entry.record MessageJson.codec _ short_sample_one)
  have hbuf := Wal.buf_written (w := Wal.openWAL ∅ .always) rfl
    (Entry.record MessageJson.codec _ short_sample_one)
  have hrun := run_write_crash short_sample_one (.publish (sample 2)) 5
  have hmem : sample 1 ∈ (Entry.publish (sample 1)).message.toList := List.mem_singleton.mpr rfl
  refine ⟨_, _, hrun, rfl, hmem, mem_replay_of_appendsToRecords hrun ?_ rfl _ hmem⟩
  refine Run.guarded_cons rfl (step_openWAL _ _ _ _) ?_
  refine Run.guarded_cons ⟨(intact_iff hopened rfl).mpr rfl, short_sample_one, portable_sample 1⟩
    (step_write rfl short_sample_one []) ?_
  exact Run.guarded_cons ⟨(intact_iff hwritten hbuf).mpr rfl, short_sample_two⟩
    (step_crash _ _ _ _ _) trivial

/-- A session that dies in the middle of its first entry, and one that writes another. -/
theorem run_crash_write (e' : Entry) (k : ℕ) {e : Entry} (h : e.Short c) :
    Run (step c) (fun _ ↦ True) init
      [.openWAL .always, .crash (some e') k, .openWAL .always, .write e, .close]
      ⟨.idle ((Wal.openWAL ((Wal.openWAL ∅ .always).dir.append
          (Wal.openWAL ∅ .always).activeFile ((inFlightBytes c (some e')).take k)) .always).written
            (e.record c h)).close.dir, e.message.toList⟩ :=
  Run.cons trivial (step_openWAL c _ _ _) (Run.cons trivial (step_crash c _ _ _ _)
    (Run.cons trivial (step_openWAL c _ _ _) (Run.cons trivial (step_write rfl h [])
      (Run.cons trivial (step_close c _ _) (Run.nil trivial)))))

/-- What the second of these sessions leaves: its record, behind the partial one. -/
theorem content_crash_write (p : Bytes) (r : Record) (name : Bytes) :
    ((Wal.openWAL ((Wal.openWAL ∅ .always).dir.append (Wal.openWAL ∅ .always).activeFile p)
        .always).written r).close.dir.content name
      = if name = bytesOf "vortexmq_000001.wal" then p ++ r.bytes else [] := by
  rw [Wal.dir_close (Wal.closed_written _ r), Wal.content_flush_written, Directory.content_append,
    Wal.content_flush_openWAL, Directory.content_append, Wal.content_openWAL]
  change ([] ++ if name = bytesOf "vortexmq_000001.wal" then p else [])
    ++ (if name = bytesOf "vortexmq_000001.wal" then r.bytes else []) = _
  split <;> rfl

/-- **A record behind a partial one is lost.** The first session dies when one byte of its record
has arrived; the message that the second session writes is acknowledged, and replay finds
nothing. -/
theorem lost_behind_partial_record :
    ∃ s dir, Run (step MessageJson.codec) (fun _ ↦ True) init
        [.openWAL .always, .crash (some (.publish (sample 1))) 1, .openWAL .always,
          .write (.publish (sample 2)), .close] s ∧
      s.phase = .idle dir ∧ sample 2 ∈ s.written ∧ replay MessageJson.codec dir = (0, []) := by
  refine ⟨_, _, run_crash_write (.publish (sample 1)) 1 short_sample_two, rfl,
    List.mem_singleton.mpr rfl, ?_⟩
  have hlost : deliveredFrom MessageJson.codec
      ((inFlightBytes MessageJson.codec (some (.publish (sample 1)))).take 1
        ++ (Entry.record MessageJson.codec _ short_sample_two).bytes) = [] := by
    decide +kernel
  rw [replay_eq, List.flatMap_eq_nil_iff.mpr fun name _ ↦ ?_]
  · rfl
  · rw [content_crash_write]
    split
    · exact hlost
    · rfl

/-! ## Order -/

/-- Records are written only while the segments after the active one are empty, and no session
crashes. -/
def AppendsAtEnd (c : Codec) (s : LogHistory) (l : SessionLabel) : Prop :=
  match s.phase, l with
  | .active w, .write e =>
      (∀ n, w.segmentID < n → w.dir.content (segName n) = []) ∧ e.Short c ∧ e.Portable
  | _, .crash _ _ => False
  | _, _ => True

/-- The directory, or the session once flushed, represents a log without partial records. -/
def ShowsWhole (L : SegmentLog) : LogPhase → Prop
  | .idle dir => dir.Represents L
  | .active w => w.Represents L ∧ w.closed = false

def Ordered (c : Codec) (s : LogHistory) : Prop :=
  ∃ L, ShowsWhole L s.phase ∧ (∀ n, L.torn n = []) ∧ (∀ n, L.count < n → L.records n = []) ∧
    L.messages c = s.written

theorem Ordered.step {l : SessionLabel} (hguard : AppendsAtEnd c s l)
    (hstep : s.step c l = some s') (h : Ordered c s) : Ordered c s' := by
  obtain ⟨L, hphase, htorn, habove, hwritten⟩ := h
  unfold LogHistory.step at hstep
  unfold AppendsAtEnd at hguard
  split at hstep
  · rename_i dir policy hs
    rw [hs] at hphase
    rw [Option.some_inj] at hstep
    subst hstep
    refine ⟨L.extend 1, ⟨Wal.represents_openWAL hphase policy, rfl⟩, htorn, fun n hn ↦ ?_, ?_⟩
    · exact habove n ((Nat.le_max_left _ _).trans_lt hn)
    · exact (SegmentLog.messages_extend habove 1).trans hwritten
  · rename_i w e hs
    rw [hs] at hphase hguard
    obtain ⟨hrep, hopen⟩ := hphase
    obtain ⟨hempty, hshort, hportable⟩ := hguard
    rw [Wal.write_eq hopen hshort, Option.map_some, Option.some_inj] at hstep
    subst hstep
    let r := e.record c hshort
    have hlater : ∀ n, w.segmentID < n → L.records n = [] := by
      intro n hn
      have hcontent := hrep.flushed.content n
      rw [htorn, List.append_nil, Wal.content_flush, hrep.activeFile, hempty n hn,
        if_neg (segName_injective.ne hn.ne')] at hcontent
      exact recordCode.encodeAll_eq_nil.mp hcontent.symm
    have habove' : ∀ n, (L.append w.segmentID r).count < n →
        (L.append w.segmentID r).records n = [] := fun n hn ↦
      (L.records_append_of_ne (hrep.le.trans_lt hn).ne' r).trans (habove n hn)
    refine ⟨_, ⟨hrep.written (htorn _) r, (w.closed_written r).trans hopen⟩, htorn, fun n hn ↦ ?_,
      ?_⟩
    · exact habove' n ((Nat.le_max_left _ _).trans_lt hn)
    · have hdel : delivered c (r.op, r.payload) = e.message := e.delivered_eq c hportable
      have hconcat := SegmentLog.flatMap_numbers_concat (L := L) hrep.pos hrep.le
        (fun n hn ↦ L.messagesIn_append_of_ne c hn r) (L.messagesIn_append_self c w.segmentID r)
        (fun n hn ↦ SegmentLog.messagesIn_eq_nil (hlater n hn))
      rw [hdel] at hconcat
      refine (SegmentLog.messages_extend habove' _).trans (hconcat.trans ?_)
      exact congrArg (· ++ _) hwritten
  · rename_i w hs
    rw [hs] at hphase
    rw [Option.some_inj] at hstep
    subst hstep
    refine ⟨L, ⟨hphase.1.sync, ?_⟩, htorn, habove, hwritten⟩
    rw [Wal.sync]
    split <;> exact hphase.2
  · rename_i w hs
    rw [hs] at hphase
    rw [Option.some_inj] at hstep
    subst hstep
    exact ⟨L, hphase.1.close hphase.2, htorn, habove, hwritten⟩
  · rename_i w inFlight k hs
    rw [hs] at hguard
    exact hguard.elim
  · exact absurd hstep (by simp)

/-- **Order.** In every history without crashes in which each record is written while all segments
after the active one are empty, and which leaves fewer than a million segments, replay delivers the
messages of all sessions exactly once and in the order in which they were written. -/
theorem replay_eq_of_appendsAtEnd {labels : List SessionLabel} {dir : Directory}
    (hrun : Run (step c) (fun _ ↦ True) init labels s)
    (hguard : Run.Guarded (step c) (AppendsAtEnd c) init labels)
    (hidle : s.phase = .idle dir) (hcount : dir.keys.length < 10 ^ 6) :
    replay c dir = (s.written.length, s.written) := by
  have hinit : Ordered c init :=
    ⟨SegmentLog.empty, Directory.Represents.empty, fun _ ↦ rfl, fun _ _ ↦ rfl, rfl⟩
  obtain ⟨L, hphase, -, -, hwritten⟩ := hrun.invariant_of_guarded
    (fun _ _ _ hg hs h ↦ Ordered.step hg hs h) hguard hinit
  rw [hidle] at hphase
  have hlen : dir.keys.length = L.count := by
    rw [hphase.keys.length_eq, List.length_map, SegmentLog.numbers, List.length_range']
  rw [← hwritten]
  exact Directory.Represents.replay_eq hphase (hlen ▸ hcount) c

def twoSessions (a b : Entry) : List SessionLabel :=
  [.openWAL .everySec, .write a, .close, .openWAL .everySec, .write b, .close]

/-- The directory between two sessions of one entry each. -/
def afterOne (c : Codec) {a : Entry} (ha : a.Short c) : Directory :=
  ((Wal.openWAL ∅ .everySec).written (a.record c ha)).close.dir

def afterTwo (c : Codec) {a b : Entry} (ha : a.Short c) (hb : b.Short c) : Directory :=
  ((Wal.openWAL (afterOne c ha) .everySec).written (b.record c hb)).close.dir

private theorem run_twoSessions {a b : Entry} (ha : a.Short c) (hb : b.Short c) :
    Run (step c) (fun _ ↦ True) init (twoSessions a b)
      ⟨.idle (afterTwo c ha hb), a.message.toList ++ b.message.toList⟩ :=
  Run.cons trivial (step_openWAL c _ _ _) (Run.cons trivial (step_write rfl ha [])
    (Run.cons trivial (step_close c _ _) (Run.cons trivial (step_openWAL c _ _ _)
      (Run.cons trivial (step_write rfl hb _)
        (Run.cons trivial (step_close c _ _) (Run.nil trivial))))))

private theorem content_afterOne {a : Entry} (ha : a.Short c) {n : ℕ} (hn : 1 < n) :
    (afterOne c ha).content (segName n) = [] := by
  have hne : segName n ≠ (Wal.openWAL ∅ .everySec).activeFile := fun h ↦
    hn.ne' (segName_injective (h.trans segName_one.symm))
  rw [afterOne, Wal.dir_close (Wal.closed_written _ _), Wal.content_flush_written,
    Directory.content_append_of_ne hne, Wal.content_flush_openWAL]
  rfl

private theorem guarded_twoSessions {a b : Entry} (ha : a.Short c) (hb : b.Short c)
    (ha' : a.Portable)
    (hb' : b.Portable) : Run.Guarded (step c) (AppendsAtEnd c) init (twoSessions a b) := by
  refine Run.guarded_cons trivial (step_openWAL c _ _ _) ?_
  refine Run.guarded_cons ⟨fun n _ ↦ Wal.content_openWAL _ _ _, ha, ha'⟩ (step_write rfl ha _) ?_
  refine Run.guarded_cons trivial (step_close c _ _) ?_
  refine Run.guarded_cons trivial (step_openWAL c _ _ _) ?_
  refine Run.guarded_cons ⟨fun n hn ↦ ?_, hb, hb'⟩ (step_write rfl hb _) ?_
  · exact (Wal.content_openWAL _ _ _).trans (content_afterOne ha hn)
  · exact Run.guarded_cons trivial (step_close c _ _) trivial

private theorem length_keys_afterTwo {a b : Entry} (ha : a.Short c) (hb : b.Short c) :
    (afterTwo c ha hb).keys.length ≤ 2 := by
  let w₁ := Wal.openWAL ∅ .everySec
  let w₂ := Wal.openWAL (afterOne c ha) .everySec
  have h₁ := (Wal.represents_openWAL Directory.Represents.empty .everySec).written rfl
    (a.record c ha)
  have hone : (afterOne c ha).Represents _ := h₁.close (w₁.closed_written (a.record c ha))
  have h₂ := (Wal.represents_openWAL hone .everySec).written rfl (b.record c hb)
  have hid₁ : (w₁.written (a.record c ha)).segmentID = 1
      ∨ (w₁.written (a.record c ha)).segmentID = 1 + 1 := w₁.segmentID_written _
  have hid₂ : (w₂.written (b.record c hb)).segmentID = 1
      ∨ (w₂.written (b.record c hb)).segmentID = 1 + 1 := w₂.segmentID_written _
  rw [afterTwo, Wal.dir_close (Wal.closed_written _ _), h₂.flushed.keys.length_eq, List.length_map,
    SegmentLog.numbers, List.length_range']
  change max (max (max (max 0 1) (w₁.written (a.record c ha)).segmentID) 1)
    (w₂.written (b.record c hb)).segmentID ≤ 2
  omega

/-- Two sessions of one message each, both in the first segment. -/
theorem replay_eq_of_appendsAtEnd_twoSessions :
    ∃ s dir, Run (step MessageJson.codec) (fun _ ↦ True) init
        (twoSessions (.publish (sample 1)) (.publish (sample 2))) s ∧
      s.phase = .idle dir ∧ s.written = [sample 1, sample 2] ∧
      replay MessageJson.codec dir = (s.written.length, s.written) :=
  ⟨_, _, run_twoSessions short_sample_one short_sample_two, rfl, rfl,
    replay_eq_of_appendsAtEnd (run_twoSessions short_sample_one short_sample_two)
      (guarded_twoSessions short_sample_one short_sample_two (portable_sample 1)
        (portable_sample 2))
      rfl ((length_keys_afterTwo short_sample_one short_sample_two).trans_lt (by decide))⟩

/-! ### Reopening behind a full segment -/

/-- The first record fills a segment, the second starts the next one, the third goes back. -/
def reopenedLog (a b d : Record) (k l : ℕ) : SegmentLog :=
  (((((((SegmentLog.empty.extend 1).append 1 a).extend 2).append 2 b).extend k).extend 1).append 1
    d).extend l

private theorem messages_reopenedLog (a b d : Record) (k l : ℕ) :
    (reopenedLog a b d k l).messages c = (delivered c (a.op, a.payload)).toList
      ++ (delivered c (d.op, d.payload)).toList ++ (delivered c (b.op, b.payload)).toList := by
  have hcount : 2 ≤ (reopenedLog a b d k l).count :=
    ((Nat.le_max_right _ _).trans (Nat.le_max_left _ k)).trans
      ((Nat.le_max_left _ _).trans (Nat.le_max_left _ l))
  have hone : (reopenedLog a b d k l).records 1 = [a, d] := rfl
  have htwo : (reopenedLog a b d k l).records 2 = [b] := rfl
  have habove : ∀ n, 2 < n → (reopenedLog a b d k l).messagesIn c n = [] := by
    intro n hn
    refine SegmentLog.messagesIn_eq_nil ?_
    refine (SegmentLog.records_append_of_ne (by omega) d).trans ?_
    refine (SegmentLog.records_append_of_ne (by omega) b).trans ?_
    exact SegmentLog.records_append_of_ne (by omega) a
  rw [SegmentLog.messages, SegmentLog.flatMap_numbers hcount habove]
  change (reopenedLog a b d k l).messagesIn c 1
    ++ ((reopenedLog a b d k l).messagesIn c 2 ++ []) = _
  rw [SegmentLog.messagesIn, SegmentLog.messagesIn, hone, htwo, List.filterMap_eq_flatMap_toList,
    List.filterMap_eq_flatMap_toList]
  simp only [List.flatMap_cons, List.flatMap_nil, List.append_nil]

/-- A session that fills the first segment, and one that reopens it. -/
def reopenedHistory (a b d : Entry) : List SessionLabel :=
  [.openWAL .everySec, .write a, .write b, .close, .openWAL .everySec, .write d, .close]

/-- The log these sessions leave has the last record before the one that was written earlier. -/
theorem replay_reopened {a b d : Entry} (ha : a.Short c) (hb : b.Short c) (hd : d.Short c)
    (ha' : a.Portable) (hb' : b.Portable) (hd' : d.Portable)
    (hfull : 64 * 1024 * 1024 ≤ (a.payload c).length) :
    ∃ dir, Run (step c) (fun _ ↦ True) init (reopenedHistory a b d)
        ⟨.idle dir, a.message.toList ++ b.message.toList ++ d.message.toList⟩ ∧
      dir.keys.length < 10 ^ 6 ∧
      (replay c dir).2 = a.message.toList ++ d.message.toList ++ b.message.toList := by
  let w₁ := Wal.openWAL ∅ .everySec
  let w₂ := w₁.written (a.record c ha)
  let w₃ := w₂.written (b.record c hb)
  let w₄ := Wal.openWAL w₃.close.dir .everySec
  let w₅ := w₄.written (d.record c hd)
  have hopen₂ : w₂.closed = false := w₁.closed_written _
  have hopen₃ : w₃.closed = false := (w₂.closed_written _).trans hopen₂
  have hopen₅ : w₅.closed = false := w₄.closed_written _
  have hid₂ : w₂.segmentID = 2 := by
    refine Wal.segmentID_written_of_full ?_
    have hlen : ((a.record c ha).bytes.length : ℤ) = 9 + (a.payload c).length := by
      rw [Record.length_bytes]
      rfl
    change 64 * 1024 * 1024 ≤ 0 + ((a.record c ha).bytes.length : ℤ)
    omega
  have hid₃ : w₃.segmentID = w₂.segmentID ∨ w₃.segmentID = w₂.segmentID + 1 :=
    w₂.segmentID_written _
  have hid₅ : w₅.segmentID = 1 ∨ w₅.segmentID = 1 + 1 := w₄.segmentID_written _
  have h₁ : w₁.Represents _ := Wal.represents_openWAL Directory.Represents.empty .everySec
  have h₂ : w₂.Represents _ := h₁.written rfl (a.record c ha)
  have h₃ : w₃.Represents _ := h₂.written rfl (b.record c hb)
  have h₄ : w₄.Represents _ := Wal.represents_openWAL (h₃.close hopen₃) .everySec
  have h₅ : w₅.Represents _ := h₄.written rfl (d.record c hd)
  have hdir : w₅.close.dir.Represents (reopenedLog (a.record c ha) (b.record c hb) (d.record c hd)
      w₃.segmentID w₅.segmentID) := by
    have h := h₅.close hopen₅
    rw [hid₂] at h
    exact h
  have hcount : (reopenedLog (a.record c ha) (b.record c hb) (d.record c hd)
      w₃.segmentID w₅.segmentID).count ≤ 3 := by
    change max (max (max (max (max 0 1) 2) w₃.segmentID) 1) w₅.segmentID ≤ 3
    omega
  refine ⟨w₅.close.dir, ?_, ?_, ?_⟩
  · exact Run.cons trivial (step_openWAL c _ _ _) (Run.cons trivial (step_write rfl ha [])
      (Run.cons trivial (step_write hopen₂ hb _) (Run.cons trivial (step_close c _ _)
        (Run.cons trivial (step_openWAL c _ _ _) (Run.cons trivial (step_write rfl hd _)
          (Run.cons trivial (step_close c _ _) (Run.nil trivial)))))))
  · rw [hdir.keys.length_eq, List.length_map, SegmentLog.numbers, List.length_range']
    exact hcount.trans_lt (by decide)
  · rw [Directory.Represents.replay_eq hdir (hcount.trans_lt (by decide)), messages_reopenedLog,
      ← Entry.delivered_eq c ha', ← Entry.delivered_eq c hb', ← Entry.delivered_eq c hd']
    rfl

def carrying (p : Bytes) : Message :=
  Message.newMessage (bytesOf "orders") (some p) 0 0 [171, 205]

theorem length_marshal_carrying (p : Bytes) :
    ((Entry.publish (carrying p)).payload MessageJson.codec).length
      = 106 + 4 * ((p.length + 2) / 3) := by
  have hbase : (MessageJson.marshal { carrying [] with payload := some [] }).length = 106 := by
    decide +kernel
  have hlen := MessageJson.length_marshal_payload (carrying []) p
  rw [hbase] at hlen
  exact hlen

private theorem short_carrying {p : Bytes} (hp : p.length = 48 * 1024 * 1024) :
    (Entry.publish (carrying p)).Short MessageJson.codec := by
  rw [Entry.Short, length_marshal_carrying, hp]
  norm_num

/-- Three messages, the first of them large enough to fill a segment. -/
theorem replay_reopened_carrying {p : Bytes} (hp : p.length = 48 * 1024 * 1024) :
    ∃ s dir, Run (step MessageJson.codec) (fun _ ↦ True) init
        (reopenedHistory (.publish (carrying p)) (.publish (sample 1)) (.publish (sample 2))) s ∧
      s.phase = .idle dir ∧ dir.keys.length < 10 ^ 6 ∧
      s.written = [carrying p, sample 1, sample 2] ∧
      (replay MessageJson.codec dir).2 = [carrying p, sample 2, sample 1] := by
  have hfull : 64 * 1024 * 1024
      ≤ ((Entry.publish (carrying p)).payload MessageJson.codec).length := by
    rw [length_marshal_carrying, hp]
    norm_num
  have hportable : (carrying p).Portable :=
    Message.portable_newMessage (utf8_bytesOf _) (by decide) _ _ _
  obtain ⟨dir, hrun, hcount, hreplay⟩ := replay_reopened (short_carrying hp) short_sample_one
    short_sample_two hportable (portable_sample 1) (portable_sample 2) hfull
  exact ⟨_, dir, hrun, rfl, hcount, rfl, hreplay⟩

/-- **A message written later is delivered earlier.** A message of 48 MiB fills the first segment,
so that the next one starts the second; the session after that goes back to the first segment. -/
theorem out_of_order_after_reopening :
    sample 1 ≠ sample 2 ∧
    ∃ s dir, Run (step MessageJson.codec) (fun _ ↦ True) init
        (reopenedHistory (.publish (carrying (List.replicate (48 * 1024 * 1024) 0)))
          (.publish (sample 1)) (.publish (sample 2))) s ∧
      s.phase = .idle dir ∧ dir.keys.length < 10 ^ 6 ∧
      s.written = [carrying (List.replicate (48 * 1024 * 1024) 0), sample 1, sample 2] ∧
      (replay MessageJson.codec dir).2
        = [carrying (List.replicate (48 * 1024 * 1024) 0), sample 2, sample 1] :=
  ⟨by decide +kernel, replay_reopened_carrying List.length_replicate⟩

end LogHistory

end VortexMQ
