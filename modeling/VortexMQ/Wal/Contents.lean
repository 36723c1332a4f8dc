import VortexMQ.Wal.RoundTrip

/-!
# The messages in a log

For what a restart finds, the order of the records does not matter, nor how they are spread over
segments. `Directory.Holds` and `Wal.Holds` say that a log without partial records holds a given bag
of messages. A session adds to the bag what it writes, and replay returns the bag.

Where the order matters, a session has to write behind everything else in the log. It starts at the
first segment, so there must be nothing in the later ones: `Directory.HoldsInOrder` and
`Wal.HoldsInOrder`. The number of segments is limited by their names, whose order is that of the
numbers only up to six digits.
-/

namespace VortexMQ

/-- The directory is a log without partial records, and its messages are the given ones. -/
def Directory.Holds (d : Directory) (c : Codec) (msgs : List Message) : Prop :=
  ∃ L, d.Represents L ∧ (∀ n, L.torn n = []) ∧ (∀ n, L.count < n → L.records n = []) ∧
    (L.messages c).Perm msgs

/-- So is the directory of an open session, once its buffer has been flushed. -/
def Wal.Holds (w : Wal) (c : Codec) (msgs : List Message) : Prop :=
  w.closed = false ∧ ∃ L, w.Represents L ∧ (∀ n, L.torn n = []) ∧
    (∀ n, L.count < n → L.records n = []) ∧ (L.messages c).Perm msgs

variable {c : Codec} {msgs : List Message} {L : SegmentLog}

namespace SegmentLog

theorem messagesIn_eq_nil {n : ℕ} (h : L.records n = []) : L.messagesIn c n = [] := by
  rw [messagesIn, h]
  rfl

theorem messages_extend (h : ∀ n, L.count < n → L.records n = []) (id : ℕ) :
    (L.extend id).messages c = L.messages c :=
  flatMap_numbers_extend id fun n hn ↦ messagesIn_eq_nil (h n hn)

private theorem messages_append_perm {id : ℕ} (hpos : 1 ≤ id) (hle : id ≤ L.count) (r : Record) :
    ((L.append id r).messages c).Perm
      (L.messages c ++ (delivered c (r.op, r.payload)).toList) :=
  flatMap_concat_perm (fun _ hn ↦ messagesIn_append_of_ne c hn r) (messagesIn_append_self c id r)
    List.nodup_range' (mem_numbers.mpr ⟨hpos, hle⟩)

end SegmentLog

namespace Directory

theorem holds_empty (c : Codec) : Directory.Holds ∅ c [] :=
  ⟨SegmentLog.empty, Represents.empty, fun _ ↦ rfl, fun _ _ ↦ rfl, List.Perm.refl _⟩

theorem Represents.replay_perm {d : Directory} (h : d.Represents L) (c : Codec) :
    (replay c d).2.Perm (L.messages c) := by
  rw [VortexMQ.replay_eq]
  refine (h.glob_perm.flatMap_right _).trans ?_
  rw [List.flatMap_map, SegmentLog.messages]
  exact List.Perm.of_eq (List.flatMap_congr fun n _ ↦ h.deliveredFrom_eq c n)

/-- **Replay returns the messages of the log.** -/
theorem Holds.replay_perm {d : Directory} (h : d.Holds c msgs) : (replay c d).2.Perm msgs := by
  obtain ⟨L, hrep, -, -, hmsgs⟩ := h
  exact (hrep.replay_perm c).trans hmsgs

end Directory

namespace Wal

variable {w : Wal}

theorem holds_openWAL {d : Directory} (h : d.Holds c msgs) (policy : FsyncPolicy) :
    (openWAL d policy).Holds c msgs := by
  obtain ⟨L, hrep, htorn, habove, hmsgs⟩ := h
  refine ⟨rfl, L.extend 1, represents_openWAL hrep policy, htorn, fun n hn ↦ ?_, ?_⟩
  · exact habove n ((Nat.le_max_left _ _).trans_lt hn)
  · rw [SegmentLog.messages_extend habove]
    exact hmsgs

theorem holds_dir_openWAL {d : Directory} (h : d.Holds c msgs) (policy : FsyncPolicy) :
    (openWAL d policy).dir.Holds c msgs := by
  obtain ⟨-, L, hrep, hrest⟩ := holds_openWAL h policy
  exact ⟨L, hrep.dir_of_buf_eq_nil rfl, hrest⟩

theorem Holds.written (h : w.Holds c msgs) (r : Record) :
    (w.written r).Holds c (msgs ++ (delivered c (r.op, r.payload)).toList) := by
  obtain ⟨hopen, L, hrep, htorn, habove, hmsgs⟩ := h
  have habove' : ∀ n, (L.append w.segmentID r).count < n →
      (L.append w.segmentID r).records n = [] := fun n hn ↦
    (L.records_append_of_ne (hrep.le.trans_lt hn).ne' r).trans (habove n hn)
  refine ⟨(w.closed_written r).trans hopen, _, hrep.written (htorn _) r, htorn, fun n hn ↦ ?_, ?_⟩
  · exact habove' n ((Nat.le_max_left _ _).trans_lt hn)
  · rw [SegmentLog.messages_extend habove']
    exact (SegmentLog.messages_append_perm hrep.pos hrep.le r).trans (hmsgs.append_right _)

theorem Holds.write (h : w.Holds c msgs) {e : Entry} (hshort : e.Short c)
    (hportable : e.Portable) :
    (w.written (e.record c hshort)).Holds c (msgs ++ e.message.toList) :=
  e.delivered_eq c hportable ▸ h.written (e.record c hshort)

theorem Holds.sync (h : w.Holds c msgs) : w.sync.Holds c msgs := by
  obtain ⟨hopen, L, hrep, hrest⟩ := h
  refine ⟨?_, L, hrep.sync, hrest⟩
  rw [Wal.sync]
  split <;> exact hopen

theorem Holds.close (h : w.Holds c msgs) : w.close.dir.Holds c msgs := by
  obtain ⟨hopen, L, hrep, hrest⟩ := h
  exact ⟨L, hrep.close hopen, hrest⟩

end Wal

/-! ## A write that fails -/

def SegmentLog.cut (L : SegmentLog) (id : ℕ) (rs : List Record) (p : Bytes)
    (hp : readRecord p = none) : SegmentLog :=
  { L.tear id p hp with records := Function.update L.records id rs }

namespace SegmentLog

variable {id : ℕ} {rs : List Record} {p : Bytes}

theorem cut_self (L : SegmentLog) (id : ℕ) (rs : List Record) (hp : readRecord p = none) :
    (L.cut id rs p hp).records id = rs ∧ (L.cut id rs p hp).torn id = p :=
  ⟨Function.update_self .., Function.update_self ..⟩

theorem cut_of_ne (L : SegmentLog) {n : ℕ} (h : n ≠ id) (rs : List Record)
    (hp : readRecord p = none) :
    (L.cut id rs p hp).records n = L.records n ∧ (L.cut id rs p hp).torn n = L.torn n :=
  ⟨Function.update_of_ne h .., Function.update_of_ne h ..⟩

private theorem messages_cut_subset (hp : readRecord p = none) (hrs : rs <+: L.records id) :
    (L.cut id rs p hp).messages c ⊆ L.messages c := by
  intro m hm
  obtain ⟨n, hn, hm⟩ := List.mem_flatMap.mp hm
  obtain ⟨r, hr, hdel⟩ := List.mem_filterMap.mp hm
  refine List.mem_flatMap.mpr ⟨n, hn, List.mem_filterMap.mpr ⟨r, ?_, hdel⟩⟩
  by_cases hid : n = id
  · subst hid
    rw [(L.cut_self n rs hp).1] at hr
    exact hrs.subset hr
  · rw [(L.cut_of_ne hid rs hp).1] at hr
    exact hr

end SegmentLog

namespace Wal

variable {w : Wal}

/-- A write of the buffered bytes and `buf` that fails after `k` bytes. The buffered writer keeps
the error and never again passes anything on, so what it still has is as good as gone. -/
def tornWrite (w : Wal) (buf : Bytes) (k : ℕ) : Wal :=
  { w with
    dir := w.dir.append w.activeFile ((w.bufWriter.buf ++ buf).take k)
    bufWriter := w.bufWriter.emptied }

/-- What a later replay delivers is among the given messages. -/
def Within (w : Wal) (c : Codec) (msgs : List Message) : Prop :=
  ∃ L, (if w.closed then w.dir.Represents L else w.Represents L) ∧ L.messages c ⊆ msgs

/-- What a later replay delivers are the given messages. -/
def Archives (w : Wal) (c : Codec) (msgs : List Message) : Prop :=
  if w.closed then w.dir.Holds c msgs else w.Holds c msgs

theorem Archives.within (h : w.Archives c msgs) : w.Within c msgs := by
  rw [Archives] at h
  rw [Within]
  split at h
  · rename_i hclosed
    obtain ⟨L, hrep, -, -, hmsgs⟩ := h
    exact ⟨L, (if_pos hclosed).mpr hrep, hmsgs.subset⟩
  · rename_i hclosed
    obtain ⟨-, L, hrep, -, -, hmsgs⟩ := h
    exact ⟨L, (if_neg hclosed).mpr hrep, hmsgs.subset⟩

theorem Archives.close (h : w.Archives c msgs) : w.close.Archives c msgs := by
  rw [Archives] at h
  split at h
  · rename_i hclosed
    rw [Wal.close, if_pos hclosed, Archives, if_pos hclosed]
    exact h
  · rename_i hclosed
    have hdir := h.close
    rw [Wal.close, if_neg hclosed] at hdir ⊢
    exact hdir

theorem Within.close (h : w.Within c msgs) : w.close.Within c msgs := by
  obtain ⟨L, hrep, hmsgs⟩ := h
  refine ⟨L, ?_, hmsgs⟩
  by_cases hclosed : w.closed = true
  · rw [if_pos hclosed] at hrep
    rw [Wal.close, if_pos hclosed, if_pos hclosed]
    exact hrep
  · rw [if_neg hclosed] at hrep
    rw [Wal.close, if_neg hclosed]
    exact hrep.flushed

theorem closed_close (w : Wal) : w.close.closed = true := by
  rw [Wal.close]
  split
  · assumption
  · rfl

theorem Within.replay_subset (h : w.Within c msgs) : (replay c w.close.dir).2 ⊆ msgs := by
  obtain ⟨L, hrep, hmsgs⟩ := h.close
  rw [if_pos w.closed_close] at hrep
  exact List.Subset.trans (hrep.replay_perm c).subset hmsgs

theorem Archives.replay_perm (h : w.Archives c msgs) : (replay c w.close.dir).2.Perm msgs := by
  have hclose := h.close
  rw [Archives, if_pos w.closed_close] at hclose
  exact hclose.replay_perm

/-- **A failed write adds no message.** It may take some of those away that were only buffered. -/
theorem Holds.tornWrite (h : w.Holds c msgs) (r : Record) {k : ℕ}
    (hk : k < (w.bufWriter.buf ++ r.bytes).length) : (w.tornWrite r.bytes k).Within c msgs := by
  obtain ⟨hopen, L, hrep, htorn, -, hmsgs⟩ := h
  have hbytes : w.dir.content w.activeFile ++ (w.bufWriter.buf ++ r.bytes)
      = recordCode.encodeAll (L.records w.segmentID ++ [r]) := by
    have hcontent := hrep.flushed.content w.segmentID
    rw [← hrep.activeFile, content_flush, if_pos rfl, htorn, List.append_nil] at hcontent
    rw [recordCode.encodeAll_append, ← hcontent, recordCode.encodeAll_singleton, List.append_assoc]
    rfl
  have hcut : w.dir.content w.activeFile ++ (w.bufWriter.buf ++ r.bytes).take k
      = (recordCode.encodeAll (L.records w.segmentID ++ [r])).take
        ((w.dir.content w.activeFile).length + k) := by
    rw [← hbytes, List.take_length_add_append]
  have hlt : (w.dir.content w.activeFile).length + k
      < (recordCode.encodeAll (L.records w.segmentID ++ [r])).length := by
    rw [← hbytes, List.length_append]
    omega
  obtain ⟨rs, rest, htake, hpre, hrest⟩ := recordCode.exists_take_encodeAll r hlt
  refine ⟨L.cut w.segmentID rs rest hrest, ?_,
    List.Subset.trans (SegmentLog.messages_cut_subset hrest hpre) hmsgs.subset⟩
  have hclosed : ¬(w.tornWrite r.bytes k).closed = true := by
    rw [show (w.tornWrite r.bytes k).closed = w.closed from rfl, hopen]
    exact Bool.false_ne_true
  rw [if_neg hclosed]
  refine Represents.of_flushed hrep.activeFile hrep.pos hrep.le rfl ⟨?_, fun n ↦ ?_⟩
  · have hkeys : (w.tornWrite r.bytes k).dir.keys.Perm w.dir.keys :=
      Directory.keys_append_perm hrep.mem_dir _
    exact (hkeys.trans (keys_flush_perm hrep.mem_dir).symm).trans hrep.flushed.keys
  · change (w.dir.append w.activeFile _).content (segName n) = _
    by_cases hn : n = w.segmentID
    · subst hn
      obtain ⟨hrecords, htorn'⟩ := L.cut_self w.segmentID rs hrest
      rw [← hrep.activeFile, Directory.content_append_self, hcut, htake, hrecords, htorn']
    · have hne : segName n ≠ w.activeFile := hrep.activeFile ▸ segName_injective.ne hn
      obtain ⟨hrecords, htorn'⟩ := L.cut_of_ne hn rs hrest
      have hcontent := hrep.flushed.content n
      rw [content_flush, if_neg hne, List.append_nil] at hcontent
      rw [Directory.content_append_of_ne hne, hcontent, hrecords, htorn']

end Wal

/-! ## In order -/

/-- The messages of the log in order, all of them in its first segment. -/
def Directory.HoldsInOrder (d : Directory) (c : Codec) (msgs : List Message) : Prop :=
  ∃ L, d.Represents L ∧ (∀ n, L.torn n = []) ∧ (∀ n, 1 < n → L.records n = []) ∧
    L.count < 10 ^ 6 ∧ L.messages c = msgs

/-- The messages of the log in order, none of them behind the active segment. -/
def Wal.HoldsInOrder (w : Wal) (c : Codec) (msgs : List Message) : Prop :=
  w.closed = false ∧ ∃ L, w.Represents L ∧ (∀ n, L.torn n = []) ∧
    (∀ n, w.segmentID < n → L.records n = []) ∧ L.count < 10 ^ 6 ∧ L.messages c = msgs

theorem Directory.holdsInOrder_empty (c : Codec) : Directory.HoldsInOrder ∅ c [] :=
  ⟨SegmentLog.empty, Directory.Represents.empty, fun _ ↦ rfl, fun _ _ ↦ rfl, by decide, rfl⟩

theorem Directory.Represents.records_eq_nil {d : Directory} (h : d.Represents L) {n : ℕ}
    (hn : L.count < n) : L.records n = [] := by
  have hnot : segName n ∉ d := by
    rw [h.mem_iff]
    omega
  have hcontent := h.content n
  rw [Directory.content_eq_nil_of_notMem hnot] at hcontent
  exact recordCode.encodeAll_eq_nil.mp (List.append_eq_nil_iff.mp hcontent.symm).1

/-- Opening a log, wherever its records are, does not change what replay delivers. -/
theorem Directory.Represents.replay_openWAL {d : Directory} (h : d.Represents L)
    (hcount : L.count < 10 ^ 6) (policy : FsyncPolicy) :
    replay c (Wal.openWAL d policy).dir = ((L.messages c).length, L.messages c) := by
  have hdir := (Wal.represents_openWAL h policy).dir_of_buf_eq_nil rfl
  have hcount' : (L.extend 1).count < 10 ^ 6 := max_lt hcount (by decide)
  rw [hdir.replay_eq hcount' c, SegmentLog.messages_extend fun n ↦ h.records_eq_nil]

namespace Wal

variable {w : Wal}

theorem holdsInOrder_openWAL {d : Directory} (h : d.HoldsInOrder c msgs) (policy : FsyncPolicy) :
    (openWAL d policy).HoldsInOrder c msgs ∧
      replay c (openWAL d policy).dir = (msgs.length, msgs) := by
  obtain ⟨L, hrep, htorn, hlater, hcount, rfl⟩ := h
  exact ⟨⟨rfl, L.extend 1, represents_openWAL hrep policy, htorn, hlater,
    max_lt hcount (by decide), SegmentLog.messages_extend (fun n ↦ hrep.records_eq_nil) 1⟩,
    hrep.replay_openWAL hcount policy⟩

theorem HoldsInOrder.write (h : w.HoldsInOrder c msgs) (hsegments : w.segmentID + 1 < 10 ^ 6)
    {e : Entry} (hshort : e.Short c) (hportable : e.Portable) :
    (w.written (e.record c hshort)).HoldsInOrder c (msgs ++ e.message.toList) := by
  obtain ⟨hopen, L, hrep, htorn, hlater, hcount, rfl⟩ := h
  obtain ⟨r, hr⟩ : ∃ r, r = e.record c hshort := ⟨_, rfl⟩
  rw [← hr]
  have hsegment := w.segmentID_written r
  refine ⟨(w.closed_written r).trans hopen, _, hrep.written (htorn _) r, htorn, fun n hn ↦ ?_,
    max_lt hcount (by omega), ?_⟩
  · have hlt : w.segmentID < n := by omega
    exact (L.records_append_of_ne hlt.ne' r).trans (hlater n hlt)
  · have hdel : delivered c (r.op, r.payload) = e.message := hr ▸ e.delivered_eq c hportable
    have hconcat := SegmentLog.flatMap_numbers_concat (L := L) hrep.pos hrep.le
      (fun n hn ↦ L.messagesIn_append_of_ne c hn r) (L.messagesIn_append_self c w.segmentID r)
      (fun n hn ↦ SegmentLog.messagesIn_eq_nil (hlater n hn))
    rw [hdel] at hconcat
    refine (SegmentLog.messages_extend (fun n hn ↦ ?_) _).trans hconcat
    have hlt : w.segmentID < n := hrep.le.trans_lt hn
    exact (L.records_append_of_ne hlt.ne' r).trans (hlater n hlt)

theorem HoldsInOrder.replay_close (h : w.HoldsInOrder c msgs) (policy : FsyncPolicy) :
    replay c (openWAL w.close.dir policy).dir = (msgs.length, msgs) := by
  obtain ⟨hopen, L, hrep, -, -, hcount, rfl⟩ := h
  exact (hrep.close hopen).replay_openWAL hcount policy

end Wal

end VortexMQ
