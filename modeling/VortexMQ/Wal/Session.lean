import VortexMQ.Wal.Segments

/-!
# Sessions of the log

Each operation of a session, read on the abstract log: a record goes to the end of the active
segment, rotation moves on to the next segment, opening goes back to the first. Flushing is
invisible.
-/

namespace VortexMQ

namespace Wal

/-- With its buffer flushed, the session's directory would be the log. -/
structure Represents (w : Wal) (L : SegmentLog) : Prop where
  activeFile : w.activeFile = segName w.segmentID
  mem_dir : w.activeFile ∈ w.dir
  pos : 1 ≤ w.segmentID
  le : w.segmentID ≤ L.count
  flushed : w.flush.dir.Represents L

variable {w : Wal} {L : SegmentLog}

/-! ## Contents behind the buffer -/

theorem content_flush (w : Wal) (name : Bytes) :
    w.flush.dir.content name
      = w.dir.content name ++ if name = w.activeFile then w.bufWriter.buf else [] :=
  Directory.content_append _ _ _ _

theorem content_flush_put (w : Wal) (p name : Bytes) :
    (w.put p).flush.dir.content name = (w.flush.dir.append w.activeFile p).content name := by
  have hput : (w.put p).flush.dir.content name
      = (w.dir.content name ++ if name = w.activeFile then (w.bufWriter.write p).1 else [])
        ++ if name = w.activeFile then (w.bufWriter.write p).2.buf else [] :=
    (content_flush _ _).trans (congrArg (· ++ _) (Directory.content_append _ _ _ _))
  rw [hput, Directory.content_append, content_flush]
  split
  · rw [List.append_assoc, List.append_assoc]
    exact congrArg _ (w.bufWriter.appends_write p).bytes
  · rfl

theorem keys_flush_perm (h : w.activeFile ∈ w.dir) : w.flush.dir.keys.Perm w.dir.keys :=
  Directory.keys_append_perm h _

namespace Represents

private theorem mem_flush (h : w.Represents L) : w.activeFile ∈ w.flush.dir :=
  AList.mem_keys.mpr ((keys_flush_perm h.mem_dir).mem_iff.mpr (AList.mem_keys.mp h.mem_dir))

theorem of_flushed {v : Wal} (hactive : v.activeFile = segName v.segmentID)
    (hpos : 1 ≤ v.segmentID) (hle : v.segmentID ≤ L.count) (hbuf : v.bufWriter.buf = [])
    (hdir : v.dir.Represents L) : v.Represents L := by
  have hmem : v.activeFile ∈ v.dir := hactive ▸ hdir.mem_iff.mpr ⟨hpos, hle⟩
  refine ⟨hactive, hmem, hpos, hle, hdir.congr (keys_flush_perm hmem) fun n ↦ ?_⟩
  rw [content_flush, hbuf, ite_self, List.append_nil]

theorem dir_of_buf_eq_nil (h : w.Represents L) (hbuf : w.bufWriter.buf = []) :
    w.dir.Represents L := by
  refine h.flushed.congr (keys_flush_perm h.mem_dir).symm fun n ↦ ?_
  rw [content_flush, hbuf, ite_self, List.append_nil]

theorem flush (h : w.Represents L) : w.flush.Represents L :=
  of_flushed h.activeFile h.pos h.le rfl h.flushed

theorem sync (h : w.Represents L) : w.sync.Represents L := by
  rw [Wal.sync]
  split
  · exact h
  · exact h.flush

private theorem settle (h : w.Represents L) : w.settle.Represents L := by
  rw [Wal.settle]
  split
  · exact h.flush
  · split
    · exact h.flush
    · exact h

private theorem put (h : w.Represents L) (htorn : L.torn w.segmentID = []) (r : Record) :
    (w.put r.bytes).Represents (L.append w.segmentID r) := by
  have hmem : (w.put r.bytes).activeFile ∈ (w.put r.bytes).dir :=
    AList.mem_keys.mpr ((Directory.keys_append_perm h.mem_dir _).mem_iff.mpr
      (AList.mem_keys.mp h.mem_dir))
  have happend := h.flushed.append (h.activeFile ▸ h.mem_flush) htorn r
  refine ⟨h.activeFile, hmem, h.pos, h.le, happend.congr ?_ fun n ↦ ?_⟩
  · calc (w.put r.bytes).flush.dir.keys.Perm (w.put r.bytes).dir.keys := keys_flush_perm hmem
      List.Perm _ w.dir.keys := Directory.keys_append_perm h.mem_dir _
      List.Perm _ w.flush.dir.keys := (keys_flush_perm h.mem_dir).symm
      List.Perm _ (w.flush.dir.append (segName w.segmentID) r.bytes).keys :=
        (Directory.keys_append_perm (h.activeFile ▸ h.mem_flush) _).symm
  · rw [content_flush_put, h.activeFile]

private theorem rotateSegment (h : w.Represents L) :
    w.rotateSegment.Represents (L.extend (w.segmentID + 1)) :=
  of_flushed rfl (Nat.succ_pos _) (Nat.le_max_right _ _) rfl
    (h.flushed.create (Nat.succ_pos _) (Nat.succ_le_succ h.le))

private theorem rotateIfFull (h : w.Represents L) :
    w.rotateIfFull.Represents (L.extend w.rotateIfFull.segmentID) := by
  rw [Wal.rotateIfFull]
  split
  · exact h.rotateSegment
  · rw [SegmentLog.extend_of_le h.le]
    exact h

end Represents

/-! ## The operations -/

theorem represents_openWAL {d : Directory} (h : d.Represents L) (policy : FsyncPolicy) :
    (openWAL d policy).Represents (L.extend 1) := by
  refine Represents.of_flushed segName_one.symm le_rfl (Nat.le_max_right _ _) rfl ?_
  have hcreate : (d.create (segName 1)).Represents (L.extend 1) :=
    h.create le_rfl (Nat.succ_pos _)
  rwa [segName_one] at hcreate

theorem content_openWAL (d : Directory) (policy : FsyncPolicy) (name : Bytes) :
    (openWAL d policy).dir.content name = d.content name :=
  Directory.content_create _ _ _

theorem content_flush_openWAL (d : Directory) (policy : FsyncPolicy) (name : Bytes) :
    (openWAL d policy).flush.dir.content name = d.content name := by
  rw [content_flush, content_openWAL]
  exact (congrArg _ (ite_self _)).trans (List.append_nil _)

/-- The session after a record has been written. -/
def written (w : Wal) (r : Record) : Wal := (w.put r.bytes).settle.rotateIfFull

theorem writeRecord_eq (hopen : w.closed = false) (r : Record) :
    w.writeRecord r.op r.payload = some (.ok (), w.written r) := by
  rw [writeRecord, hopen, if_neg Bool.false_ne_true, r.frame_eq]
  rfl

@[simp] theorem segmentID_settle (w : Wal) : w.settle.segmentID = w.segmentID := by
  rw [settle]
  split
  · rfl
  · split <;> rfl

@[simp] theorem closed_settle (w : Wal) : w.settle.closed = w.closed := by
  rw [settle]
  split
  · rfl
  · split <;> rfl

@[simp] theorem policy_settle (w : Wal) : w.settle.policy = w.policy := by
  rw [settle]
  split
  · rfl
  · split <;> rfl

theorem closed_writeRecord {op : UInt8} {payload : Bytes} {r : Except Bytes Unit × Wal}
    (h : w.writeRecord op payload = some r) : r.2.closed = w.closed := by
  rw [writeRecord] at h
  split at h
  · rw [← Option.some_inj.mp h]
  · rw [Option.map_eq_some_iff] at h
    obtain ⟨buf, -, rfl⟩ := h
    rw [rotateIfFull]
    split
    · exact closed_settle _
    · exact closed_settle _

theorem closed_written (w : Wal) (r : Record) : (w.written r).closed = w.closed := by
  rw [written, rotateIfFull]
  split
  · exact closed_settle _
  · exact closed_settle _

theorem policy_written (w : Wal) (r : Record) : (w.written r).policy = w.policy := by
  rw [written, rotateIfFull]
  split
  · exact policy_settle _
  · exact policy_settle _

theorem segmentID_written (w : Wal) (r : Record) :
    (w.written r).segmentID = w.segmentID ∨ (w.written r).segmentID = w.segmentID + 1 := by
  rw [written, rotateIfFull]
  split
  · exact Or.inr (congrArg (· + 1) (segmentID_settle _))
  · exact Or.inl (segmentID_settle _)

theorem size_settle (w : Wal) :
    w.settle.maxSegSize = w.maxSegSize ∧ w.settle.currentSize = w.currentSize := by
  rw [settle]
  split
  · exact ⟨rfl, rfl⟩
  · split <;> exact ⟨rfl, rfl⟩

theorem segmentID_written_of_full {r : Record}
    (h : w.maxSegSize ≤ w.currentSize + r.bytes.length) :
    (w.written r).segmentID = w.segmentID + 1 := by
  obtain ⟨hmax, hcurrent⟩ := (w.put r.bytes).size_settle
  have hfull : (w.put r.bytes).settle.maxSegSize ≤ (w.put r.bytes).settle.currentSize := by
    rw [hmax, hcurrent]
    exact h
  rw [written, rotateIfFull, if_pos hfull]
  exact congrArg (· + 1) (segmentID_settle _)

/-- **A record goes to the end of the active segment.** -/
theorem Represents.written (h : w.Represents L) (htorn : L.torn w.segmentID = []) (r : Record) :
    (w.written r).Represents ((L.append w.segmentID r).extend (w.written r).segmentID) :=
  (h.put htorn r).settle.rotateIfFull

private theorem content_flush_settle (w : Wal) (name : Bytes) :
    w.settle.flush.dir.content name = w.flush.dir.content name := by
  have hflush : w.flush.flush.dir.content name = w.flush.dir.content name := by
    rw [content_flush w.flush]
    exact (congrArg _ (ite_self _)).trans (List.append_nil _)
  rw [settle]
  split
  · exact hflush
  · split
    · exact hflush
    · rfl

private theorem content_flush_rotateIfFull (w : Wal) (name : Bytes) :
    w.rotateIfFull.flush.dir.content name = w.flush.dir.content name := by
  rw [rotateIfFull]
  split
  · rw [content_flush]
    refine (congrArg _ (ite_self _)).trans ((List.append_nil _).trans ?_)
    exact Directory.content_create _ _ _
  · rfl

/-- A record goes to the end of the active file, whatever that file is like. -/
theorem content_flush_written (w : Wal) (r : Record) (name : Bytes) :
    (w.written r).flush.dir.content name
      = (w.flush.dir.append w.activeFile r.bytes).content name := by
  rw [written, content_flush_rotateIfFull, content_flush_settle, content_flush_put]

theorem buf_written (halways : w.policy = .always) (r : Record) :
    (w.written r).bufWriter.buf = [] := by
  have hsettle : ((w.put r.bytes).settle).bufWriter.buf = [] := by
    rw [settle, if_pos (show (w.put r.bytes).policy = .always from halways)]
    rfl
  rw [Wal.written, rotateIfFull]
  split
  · rfl
  · exact hsettle

theorem dir_close (hopen : w.closed = false) : w.close.dir = w.flush.dir := by
  rw [close, hopen, if_neg Bool.false_ne_true]

theorem Represents.close (h : w.Represents L) (hopen : w.closed = false) :
    w.close.dir.Represents L := by
  rw [dir_close hopen]
  exact h.flushed

end Wal

end VortexMQ
