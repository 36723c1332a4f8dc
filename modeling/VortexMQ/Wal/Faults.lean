import VortexMQ.Basic.Run
import VortexMQ.Bufio.FaultyWriter
import VortexMQ.Wal.MessageJson
import VortexMQ.Wal.Segments

/-!
# The log on a failing disk

`writeRecord` and `rotateSegment` over a file system whose calls may fail. A failed `Write` leaves a
part of its bytes in the file; a failed `OpenFile` leaves the log with its old file, which has been
closed, so that every further write to it fails. What `Sync` and `Close` of a file return is
discarded by the source, and neither changes the contents of a file, so their failures do not show.

Of all these failures the source reports one: an error of `bufWriter.Write`, which for a record that
fits the buffer can only be the error of an earlier call. The error of the `Flush` that takes the
record to the file is dropped.
-/

namespace VortexMQ

/-- How the system calls made by one call of the log end. -/
structure Faults where
  /-- The writes, counted from the start of the call. -/
  write : ℕ → Outcome
  /-- Whether opening the next segment fails. -/
  openFails : Bool

def Faults.none : Faults := ⟨fun _ ↦ .none, false⟩

structure FaultyWal where
  /-- The directory as it is on disk. -/
  dir : Directory
  policy : FsyncPolicy
  activeFile : Bytes
  /-- The active file has not been closed. -/
  fileOpen : Bool
  bufWriter : FaultyWriter
  segmentID : ℕ
  maxSegSize : ℤ
  currentSize : ℤ
  closed : Bool

namespace FaultyWal

/-- `OpenWAL`, when it succeeds. -/
def openWAL (dir : Directory) (policy : FsyncPolicy) : FaultyWal where
  dir := dir.create (bytesOf "vortexmq_000001.wal")
  policy := policy
  activeFile := bytesOf "vortexmq_000001.wal"
  fileOpen := true
  bufWriter := FaultyWriter.new (256 * 1024)
  segmentID := 1
  maxSegSize := 64 * 1024 * 1024
  currentSize := ((dir.create (bytesOf "vortexmq_000001.wal")).content
    (bytesOf "vortexmq_000001.wal")).length
  closed := false

def errFileClosed : Bytes := bytesOf "file already closed"

variable (w : FaultyWal) (F : Faults)

def outcome (n : ℕ) : Outcome := if w.fileOpen then F.write n else some (0, errFileClosed)

def absorb (r : FaultyWriter.Result) : FaultyWal :=
  { w with
    dir := w.dir.append w.activeFile r.passed
    bufWriter := r.writer }

/-- `bufWriter.Flush()`, its error ignored. -/
def flush (calls : ℕ) : FaultyWal × ℕ :=
  let r := w.bufWriter.flush (w.outcome F calls)
  (w.absorb r, calls + r.calls)

def settle (calls : ℕ) : FaultyWal × ℕ :=
  if w.policy = .always then w.flush F calls
  else if 128 * 1024 ≤ w.bufWriter.buffer.buffered then w.flush F calls
  else (w, calls)

def rotateSegment (calls : ℕ) : FaultyWal :=
  let w' := (w.flush F calls).1
  if F.openFails then { w' with fileOpen := false, segmentID := w.segmentID + 1 }
  else
    { w' with
      fileOpen := true
      segmentID := w.segmentID + 1
      activeFile := segName (w.segmentID + 1)
      dir := w'.dir.create (segName (w.segmentID + 1))
      bufWriter := FaultyWriter.new (256 * 1024)
      currentSize := 0 }

/-- `bufWriter.Write(buf)`, the count of its bytes, and the flush that the policy asks for. -/
def put (buf : Bytes) : Except Bytes Unit × FaultyWal × ℕ :=
  let r := w.bufWriter.write (w.outcome F) buf
  match r.writer.err with
  | some err => (.error err, w.absorb r, r.calls)
  | none =>
      (.ok (), settle { w.absorb r with currentSize := w.currentSize + buf.length } F r.calls)

def rotateIfFull (calls : ℕ) : FaultyWal :=
  if w.maxSegSize ≤ w.currentSize then w.rotateSegment F calls else w

/-- `writeRecord`; `none` is a panic. -/
def writeRecord (op : UInt8) (payload : Bytes) : Option (Except Bytes Unit × FaultyWal) :=
  if w.closed then some (.error Wal.errClosed, w)
  else (frame op payload).map fun buf ↦
    match w.put F buf with
    | (.error err, w', _) => (.error err, w')
    | (.ok _, w', calls) => (.ok (), w'.rotateIfFull F calls)

def writePublish (c : Codec) (msg : Message) : Option (Except Bytes Unit × FaultyWal) :=
  w.writeRecord F opPublish (c.marshal msg)

end FaultyWal

/-! ## What a directory has on record -/

namespace Directory

/-- The file consists of complete records. -/
def Whole (data : Bytes) : Prop := ∃ rs, data = recordCode.encodeAll rs

/-- A segment file begins with complete records, and the given one is among them. -/
def Records (d : Directory) (r : Record) : Prop :=
  ∃ n rs, segName n ∈ d ∧ recordCode.encodeAll (rs ++ [r]) <+: d.content (segName n)

def Extends (d d' : Directory) : Prop :=
  (∀ name ∈ d, name ∈ d') ∧ ∀ name, d.content name <+: d'.content name

variable {d d' d'' : Directory} {r : Record}

theorem Extends.trans (h : d.Extends d') (h' : d'.Extends d'') : d.Extends d'' :=
  ⟨fun name hname ↦ h'.1 name (h.1 name hname), fun name ↦ (h.2 name).trans (h'.2 name)⟩

private theorem extends_append (d : Directory) (name p : Bytes) : d.Extends (d.append name p) := by
  refine ⟨fun name' h ↦ (AList.mem_insert d).mpr (Or.inr h), fun name' ↦ ?_⟩
  rw [content_append]
  exact List.prefix_append _ _

private theorem extends_create (d : Directory) (name : Bytes) : d.Extends (d.create name) := by
  refine ⟨fun name' h ↦ ?_, fun name' ↦ ?_⟩
  · rw [create]
    split
    · exact h
    · exact (AList.mem_insert d).mpr (Or.inr h)
  · rw [content_create]

theorem Records.of_extends (h : d.Records r) (hext : d.Extends d') : d'.Records r := by
  obtain ⟨n, rs, hmem, hprefix⟩ := h
  exact ⟨n, rs, hext.1 _ hmem, hprefix.trans (hext.2 _)⟩

/-- **What is on record is read.** Whatever comes after it in its file, the reading loop gets to
the record. -/
theorem Records.read (h : d.Records r) : ∃ file ∈ d.glob,
    (r.op, r.payload) ∈ (recordCode.decodeAll (d.content file).length (d.content file)).1 := by
  obtain ⟨n, rs, hmem, hprefix⟩ := h
  refine ⟨segName n, ?_, recordCode.value_mem_decodeAll hprefix⟩
  rw [glob, List.mem_insertionSort, List.mem_filter, decide_eq_true_iff]
  exact ⟨AList.mem_keys.mp hmem, isSegment_segName n⟩

theorem Records.mem_replay {c : Codec} {m : Message} (h : d.Records r)
    (hm : delivered c (r.op, r.payload) = some m) : m ∈ (replay c d).2 := by
  obtain ⟨file, hfile, hread⟩ := h.read
  rw [VortexMQ.replay_eq]
  exact List.mem_flatMap.mpr ⟨file, hfile, List.mem_filterMap.mpr ⟨_, hread, hm⟩⟩

end Directory

/-! ## The state between two calls -/

namespace FaultyWal

/-- What no failure changes: the names of the files, and that those to come have complete records
only. -/
structure Framed (w : FaultyWal) : Prop where
  policy : w.policy = .always
  isOpen : w.closed = false
  size : w.bufWriter.buffer.size = 256 * 1024
  mem_dir : w.activeFile ∈ w.dir
  named : ∃ n ≤ w.segmentID, w.activeFile = segName n
  active : w.fileOpen = true → w.activeFile = segName w.segmentID
  later : ∀ n, w.segmentID < n → Directory.Whole (w.dir.content (segName n))

/-- A writer without an error has nothing in its buffer, and behind it a file of complete records if
it has a file at all. -/
def Idle (w : FaultyWal) : Prop :=
  w.bufWriter.err = none → w.bufWriter.buffer.buf = [] ∧
    (w.fileOpen = true → Directory.Whole (w.dir.content w.activeFile))

variable {w : FaultyWal} {F : Faults} {r : FaultyWriter.Result}

private theorem framed_openWAL {dir : Directory}
    (hdir : ∀ n, 0 < n → Directory.Whole (dir.content (segName n))) :
    (openWAL dir .always).Framed ∧ (openWAL dir .always).Idle := by
  have hname : bytesOf "vortexmq_000001.wal" = segName 1 := segName_one.symm
  have hmem : bytesOf "vortexmq_000001.wal" ∈ dir.create (bytesOf "vortexmq_000001.wal") := by
    rw [Directory.create]
    split
    · assumption
    · exact (AList.mem_insert dir).mpr (Or.inl rfl)
  have hcontent : ∀ n, (openWAL dir .always).dir.content (segName n) = dir.content (segName n) :=
    fun n ↦ Directory.content_create _ _ _
  refine ⟨⟨rfl, rfl, rfl, hmem, ⟨1, le_rfl, hname⟩, fun _ ↦ hname, fun n hn ↦ ?_⟩,
    fun _ ↦ ⟨rfl, fun _ ↦ ?_⟩⟩
  · rw [hcontent]
    exact hdir n (Nat.zero_lt_of_lt hn)
  · change Directory.Whole ((openWAL dir .always).dir.content (bytesOf "vortexmq_000001.wal"))
    rw [hname, hcontent]
    exact hdir 1 Nat.one_pos

theorem content_absorb (w : FaultyWal) (r : FaultyWriter.Result) :
    (w.absorb r).dir.content w.activeFile = w.dir.content w.activeFile ++ r.passed :=
  Directory.content_append_self _ _ _

theorem Framed.absorb (h : w.Framed) (hsize : r.writer.buffer.size = 256 * 1024) :
    (w.absorb r).Framed := by
  refine ⟨h.policy, h.isOpen, hsize, (AList.mem_insert w.dir).mpr (Or.inl rfl), h.named, h.active,
    fun n hn ↦ ?_⟩
  obtain ⟨k, hk, hactive⟩ := h.named
  have hne : segName n ≠ w.activeFile := by
    rw [hactive]
    exact segName_injective.ne (hk.trans_lt hn).ne'
  have hcontent : (w.absorb r).dir.content (segName n) = w.dir.content (segName n) :=
    Directory.content_append_of_ne hne
  rw [hcontent]
  exact h.later n hn

theorem Framed.counted (h : w.Framed) (n : ℤ) : Framed { w with currentSize := n } :=
  ⟨h.policy, h.isOpen, h.size, h.mem_dir, h.named, h.active, h.later⟩

theorem extends_absorb (w : FaultyWal) (r : FaultyWriter.Result) :
    w.dir.Extends (w.absorb r).dir := Directory.extends_append _ _ _

theorem Idle.absorb (h : w.Idle) (calls : ℕ) : (w.absorb ⟨[], w.bufWriter, calls⟩).Idle := by
  intro herr
  obtain ⟨hbuf, hwhole⟩ := h herr
  refine ⟨hbuf, fun hopen ↦ ?_⟩
  have hcontent := w.content_absorb ⟨[], w.bufWriter, calls⟩
  rw [List.append_nil] at hcontent
  exact hcontent ▸ hwhole hopen

theorem idle_of_err {err : Bytes} (h : w.bufWriter.err = some err) : w.Idle :=
  fun hnone ↦ absurd (h.symm.trans hnone) (by simp)

theorem Idle.flush_eq (h : w.Idle) (calls : ℕ) :
    w.flush F calls = (w.absorb ⟨[], w.bufWriter, 0⟩, calls) := by
  have hflush : w.bufWriter.flush (w.outcome F calls) = ⟨[], w.bufWriter, 0⟩ := by
    cases herr : w.bufWriter.err with
    | none => exact FaultyWriter.flush_of_empty (h herr).1 _
    | some err => exact FaultyWriter.flush_of_err herr _
  rw [flush, hflush]
  rfl

/-- **Rotation** moves on to a file of complete records, or leaves the log without an open file. -/
theorem Framed.rotateSegment (h : w.Framed) (hidle : w.Idle) (calls : ℕ) :
    (w.rotateSegment F calls).Framed ∧ (w.rotateSegment F calls).Idle ∧
      w.dir.Extends (w.rotateSegment F calls).dir := by
  have hframed : (w.absorb ⟨[], w.bufWriter, 0⟩).Framed := h.absorb h.size
  have hidle' := hidle.absorb 0
  have hext := w.extends_absorb ⟨[], w.bufWriter, 0⟩
  unfold FaultyWal.rotateSegment
  simp only [hidle.flush_eq]
  split
  · obtain ⟨k, hk, hactive⟩ := hframed.named
    refine ⟨⟨h.policy, h.isOpen, h.size, hframed.mem_dir, ⟨k, Nat.le_succ_of_le hk, hactive⟩,
      fun hfalse ↦ absurd hfalse Bool.false_ne_true, fun n hn ↦ ?_⟩, fun herr ↦ ?_, hext⟩
    · exact hframed.later n (Nat.lt_of_succ_lt hn)
    · exact ⟨(hidle' herr).1, fun hfalse ↦ absurd hfalse Bool.false_ne_true⟩
  · have hmem : segName (w.segmentID + 1)
        ∈ (w.absorb ⟨[], w.bufWriter, 0⟩).dir.create (segName (w.segmentID + 1)) := by
      rw [Directory.create]
      split
      · assumption
      · exact (AList.mem_insert _).mpr (Or.inl rfl)
    refine ⟨⟨h.policy, h.isOpen, rfl, hmem, ⟨_, le_rfl, rfl⟩, fun _ ↦ rfl, fun n hn ↦ ?_⟩,
      fun _ ↦ ⟨rfl, fun _ ↦ ?_⟩, hext.trans (Directory.extends_create _ _)⟩
    · exact (Directory.content_create _ _ _).symm ▸ hframed.later n (Nat.lt_of_succ_lt hn)
    · exact (Directory.content_create _ _ _).symm ▸ hframed.later _ (Nat.lt_succ_self _)

/-! ## One call -/

/-- What becomes of the record is noticed: the writer has an error already and reports it, or the
record goes past the buffer, so that its own error is reported, or its write succeeds. -/
def Noticed (w : FaultyWal) (F : Faults) (size : ℕ) : Prop :=
  w.bufWriter.err.isSome = true ∨ 256 * 1024 < size ∨ (w.fileOpen = true ∧ F.write 0 = none)

theorem outcome_eq_none {n : ℕ} (h : w.outcome F n = none) :
    w.fileOpen = true ∧ F.write n = none := by
  rw [outcome] at h
  split at h
  · rename_i hopen
    exact ⟨hopen, h⟩
  · exact absurd h (by simp)

variable {record : Record}

theorem Framed.absorb_bytes (h : w.Framed) (record : Record)
    (hwhole : Directory.Whole (w.dir.content w.activeFile)) {f : FaultyWriter}
    (hbuf : f.buffer.buf = []) (calls : ℕ) :
    (w.absorb ⟨record.bytes, f, calls⟩).Idle ∧
      (w.absorb ⟨record.bytes, f, calls⟩).dir.Records record := by
  obtain ⟨rs, hrs⟩ := hwhole
  have hcontent : (w.absorb ⟨record.bytes, f, calls⟩).dir.content w.activeFile
      = recordCode.encodeAll (rs ++ [record]) := by
    rw [content_absorb, hrs, recordCode.encodeAll_append, recordCode.encodeAll_singleton]
    rfl
  obtain ⟨n, -, hactive⟩ := h.named
  refine ⟨fun _ ↦ ⟨hbuf, fun _ ↦ ⟨_, hcontent⟩⟩, n, rs, ?_, ?_⟩
  · rw [← hactive]
    exact (AList.mem_insert w.dir).mpr (Or.inl rfl)
  · rw [← hactive, hcontent]

/-- A call has kept the log in shape, and what it reports about a record whose fate is noticed is
true. -/
structure Puts (w : FaultyWal) (F : Faults) (record : Record) (result : Except Bytes Unit)
    (w' : FaultyWal) : Prop where
  framed : w'.Framed
  idle : w'.Idle
  grows : w.dir.Extends w'.dir
  recorded : w.Noticed F record.bytes.length → result = .ok () → w'.dir.Records record

theorem Framed.put_of_err (h : w.Framed) (hidle : w.Idle) {err : Bytes}
    (herr : w.bufWriter.err = some err) :
    w.Puts F record (w.put F record.bytes).1 (w.put F record.bytes).2.1 := by
  have hput : w.put F record.bytes = (.error err, w.absorb ⟨[], w.bufWriter, 0⟩, 0) := by
    rw [FaultyWal.put, FaultyWriter.write_of_err herr]
    simp only [herr]
  rw [hput]
  exact ⟨h.absorb h.size, hidle.absorb 0, w.extends_absorb _, fun _ hok ↦ absurd hok (by simp)⟩

def holding (w : FaultyWal) (record : Record) : FaultyWal :=
  { w.absorb ⟨[], ⟨w.bufWriter.buffer.fill record.bytes, none⟩, 0⟩ with
    currentSize := w.currentSize + record.bytes.length }

theorem Framed.holding (h : w.Framed) (record : Record) : (w.holding record).Framed :=
  (h.absorb (r := ⟨[], ⟨w.bufWriter.buffer.fill record.bytes, none⟩, 0⟩) h.size).counted _

private theorem buf_holding (hbuf : w.bufWriter.buffer.buf = [])
    (hfits : record.bytes.length ≤ w.bufWriter.buffer.size) :
    (w.holding record).bufWriter.buffer.buf = record.bytes := by
  have havailable : record.bytes.length ≤ w.bufWriter.buffer.available := by
    rw [BufWriter.available, hbuf]
    exact hfits
  exact (BufWriter.buf_fill havailable).trans (by rw [hbuf, List.nil_append])

/-- A record that fits the buffer goes to the file with the flush, whose error is ignored. -/
theorem Framed.put_of_fits (h : w.Framed) (hidle : w.Idle) (herr : w.bufWriter.err = none)
    (hfits : record.bytes.length ≤ w.bufWriter.buffer.size) :
    w.Puts F record (w.put F record.bytes).1 (w.put F record.bytes).2.1 := by
  obtain ⟨hbuf, hwhole⟩ := hidle herr
  have hput : w.put F record.bytes = (.ok (), (w.holding record).flush F 0) := by
    have hsettle : (w.holding record).settle F 0 = (w.holding record).flush F 0 := if_pos h.policy
    rw [FaultyWal.put, FaultyWriter.write_of_fits herr hbuf hfits]
    simp only [herr]
    exact congrArg _ hsettle
  have hframed := h.holding record
  have hbytes := buf_holding hbuf hfits
  have hne : (w.holding record).bufWriter.buffer.buf ≠ [] :=
    hbytes ▸ recordCode.encode_ne_nil record
  have hgrows : w.dir.Extends (w.holding record).dir := w.extends_absorb _
  rw [hput, flush, show (w.holding record).outcome F 0 = w.outcome F 0 from rfl]
  cases ho : w.outcome F 0 with
  | none =>
    have hcontent : (w.holding record).dir.content w.activeFile = w.dir.content w.activeFile :=
      (w.content_absorb _).trans (List.append_nil _)
    obtain ⟨hidle', hrecords⟩ := hframed.absorb_bytes record
      (hcontent.symm ▸ hwhole (outcome_eq_none ho).1)
      (f := ⟨(w.holding record).bufWriter.buffer.emptied, none⟩) rfl 1
    rw [FaultyWriter.flush_of_none rfl hne, hbytes]
    exact ⟨hframed.absorb h.size, hidle', hgrows.trans (extends_absorb _ _), fun _ _ ↦ hrecords⟩
  | some failure =>
    rw [FaultyWriter.flush_of_some rfl hne]
    refine ⟨hframed.absorb h.size, idle_of_err rfl, hgrows.trans (extends_absorb _ _),
      fun hnoticed _ ↦ ?_⟩
    -- none of the three ways in which the failure would have been noticed
    rcases hnoticed with hsome | hlong | ⟨hopen, hwrite⟩
    · exact absurd hsome (by simp [herr])
    · rw [h.size] at hfits
      exact absurd hfits (Nat.not_le.mpr hlong)
    · rw [outcome, if_pos hopen, hwrite] at ho
      exact absurd ho (by simp)

/-- A record that does not fit goes past the buffer, and its error is returned. -/
theorem Framed.put_of_not_fits (h : w.Framed) (hidle : w.Idle) (herr : w.bufWriter.err = none)
    (hfits : w.bufWriter.buffer.size < record.bytes.length) :
    w.Puts F record (w.put F record.bytes).1 (w.put F record.bytes).2.1 := by
  obtain ⟨hbuf, hwhole⟩ := hidle herr
  rw [FaultyWal.put, FaultyWriter.write_of_not_fits herr hbuf hfits]
  cases ho : w.outcome F 0 with
  | none =>
    obtain ⟨hidle', hrecords⟩ := h.absorb_bytes record (hwhole (outcome_eq_none ho).1) hbuf 1
    let v : FaultyWal :=
      { w.absorb ⟨record.bytes, w.bufWriter, 1⟩ with
        currentSize := w.currentSize + record.bytes.length }
    have hsettle : v.settle F 1 = (v.absorb ⟨[], v.bufWriter, 0⟩, 1) :=
      (if_pos h.policy).trans (Idle.flush_eq (w := v) hidle' 1)
    simp only [herr]
    rw [hsettle]
    exact ⟨((h.absorb h.size).counted _).absorb h.size, Idle.absorb (w := v) hidle' 0,
      (w.extends_absorb _).trans (v.extends_absorb _),
      fun _ _ ↦ hrecords.of_extends (v.extends_absorb _)⟩
  | some failure =>
    exact ⟨h.absorb h.size, idle_of_err rfl, w.extends_absorb _, fun _ hok ↦ absurd hok (by simp)⟩

/-- **One call of the log.** -/
theorem Framed.writeRecord (h : w.Framed) (record : Record) (hidle : w.Idle)
    {result : Except Bytes Unit} {w' : FaultyWal}
    (hw' : w.writeRecord F record.op record.payload = some (result, w')) :
    w.Puts F record result w' := by
  have hputs : w.Puts F record (w.put F record.bytes).1 (w.put F record.bytes).2.1 := by
    cases herr : w.bufWriter.err with
    | some err => exact h.put_of_err hidle herr
    | none =>
      rcases Nat.lt_or_ge w.bufWriter.buffer.size record.bytes.length with hlong | hfits
      · exact h.put_of_not_fits hidle herr hlong
      · exact h.put_of_fits hidle herr hfits
  rw [FaultyWal.writeRecord, h.isOpen, if_neg Bool.false_ne_true, record.frame_eq, Option.map_some,
    Option.some_inj] at hw'
  rcases hput : w.put F record.bytes with ⟨err | _, v, calls⟩
  · rw [hput] at hw' hputs
    cases hw'
    exact hputs
  · rw [hput] at hw' hputs
    cases hw'
    obtain ⟨hframed, hidle', hgrows, hrecorded⟩ := hputs
    rw [rotateIfFull]
    split
    · obtain ⟨hframed', hidle'', hext⟩ := hframed.rotateSegment hidle' calls
      exact ⟨hframed', hidle'', hgrows.trans hext,
        fun hnoticed _ ↦ (hrecorded hnoticed rfl).of_extends hext⟩
    · exact ⟨hframed, hidle', hgrows, hrecorded⟩

end FaultyWal

/-! ## Any number of calls -/

/-- A log and the messages whose `WritePublish` has returned nil. -/
structure FaultHistory where
  wal : FaultyWal
  acknowledged : List Message

namespace FaultHistory

variable (c : Codec)

def start (dir : Directory) : FaultHistory := ⟨FaultyWal.openWAL dir .always, []⟩

/-- A call of `WritePublish`, with the failures that strike during it. -/
def step (s : FaultHistory) (call : Message × Faults) : Option FaultHistory :=
  (s.wal.writePublish call.2 c call.1).map fun r ↦
    ⟨r.2, match r.1 with
      | .ok _ => s.acknowledged ++ [call.1]
      | .error _ => s.acknowledged⟩

/-- The record fits the format, and what becomes of it is noticed. -/
def Noticed (s : FaultHistory) (call : Message × Faults) : Prop :=
  (c.marshal call.1).length < 2 ^ 32 - 9 ∧
    s.wal.Noticed call.2 (9 + (c.marshal call.1).length)

/-- The complete record of the message is in a segment file, where the reading loop of `Replay` gets
to it, and `Replay` delivers what it decodes to. -/
structure Durable (dir : Directory) (m : Message) : Prop where
  read : ∃ file ∈ dir.glob, (opPublish, c.marshal m)
    ∈ (recordCode.decodeAll (dir.content file).length (dir.content file)).1
  delivered : ∀ m', c.unmarshal (c.marshal m) = some m' → m' ∈ (replay c dir).2

/-- The log is in shape, and has every acknowledged message on record. -/
structure Kept (s : FaultHistory) : Prop where
  framed : s.wal.Framed
  idle : s.wal.Idle
  recorded : ∀ m ∈ s.acknowledged, ∃ record : Record, record.op = opPublish ∧
    record.payload = c.marshal m ∧ s.wal.dir.Records record

variable {c} {s s' : FaultHistory}

theorem Kept.step (h : Kept c s) {call : Message × Faults} (hnoticed : Noticed c s call)
    (hstep : s.step c call = some s') : Kept c s' := by
  obtain ⟨msg, F⟩ := call
  obtain ⟨hshort, hfate⟩ := hnoticed
  let record : Record := ⟨opPublish, c.marshal msg, hshort⟩
  rw [FaultHistory.step, Option.map_eq_some_iff] at hstep
  obtain ⟨⟨result, w'⟩, hwrite, rfl⟩ := hstep
  obtain ⟨hframed, hidle, hgrows, hrecorded⟩ :=
    h.framed.writeRecord record h.idle hwrite
  have hold : ∀ m ∈ s.acknowledged, ∃ record : Record, record.op = opPublish ∧
      record.payload = c.marshal m ∧ w'.dir.Records record := by
    intro m hm
    obtain ⟨record, hop, hpayload, hrec⟩ := h.recorded m hm
    exact ⟨record, hop, hpayload, hrec.of_extends hgrows⟩
  refine ⟨hframed, hidle, fun m hm ↦ ?_⟩
  cases result with
  | error err => exact hold m hm
  | ok _ =>
    rcases List.mem_append.mp hm with hm | hm
    · exact hold m hm
    · obtain rfl := List.mem_singleton.mp hm
      exact ⟨record, rfl, rfl, hrecorded (record.length_bytes.symm ▸ hfate) rfl⟩

/-- **Acknowledged means durable, as long as failures are noticed.** Start on a directory whose
segments consist of complete records, for instance on an empty one, and call `WritePublish` any
number of times while writes, syncs, closes and opens fail in any pattern. If at each call the
writer has an error already, or the record is larger than the buffer, or the file is open and the
write of the record succeeds, then every message whose call returned nil is on disk and delivered
by `Replay`, and stays so. -/
theorem durable_of_noticed {dir : Directory} {calls : List (Message × Faults)}
    (hdir : ∀ n, 0 < n → Directory.Whole (dir.content (segName n)))
    (hrun : Run (step c) (fun _ ↦ True) (start dir) calls s)
    (hguard : Run.Guarded (step c) (Noticed c) (start dir) calls) :
    ∀ m ∈ s.acknowledged, Durable c s.wal.dir m := by
  have hstart : Kept c (start dir) :=
    ⟨(FaultyWal.framed_openWAL hdir).1, (FaultyWal.framed_openWAL hdir).2,
      fun m hm ↦ absurd hm List.not_mem_nil⟩
  have hkept : Kept c s :=
    hrun.invariant_of_guarded (fun _ _ _ hg hs h ↦ h.step hg hs) hguard hstart
  intro m hm
  obtain ⟨record, hop, hpayload, hrec⟩ := hkept.recorded m hm
  obtain ⟨file, hfile, hread⟩ := hrec.read
  rw [hop, hpayload] at hread
  refine ⟨⟨file, hfile, hread⟩, fun m' hm' ↦ hrec.mem_replay ?_⟩
  rw [hop, hpayload]
  exact (if_pos rfl).trans hm'

/-! ### A disk that is full -/

def note : Message := Message.newMessage (bytesOf "q") (some (bytesOf "a")) 0 1 [171, 205]

def diskFull : Faults := ⟨fun _ ↦ some (0, bytesOf "no space left on device"), false⟩

/-- Nothing fails. -/
theorem durable_of_noticed_note :
    ∃ s, Run (step MessageJson.codec) (fun _ ↦ True) (start ∅) [(note, Faults.none)] s ∧
      s.acknowledged = [note] ∧ note ∈ (replay MessageJson.codec s.wal.dir).2 := by
  have hsome : (Run.exec (step MessageJson.codec) (fun _ ↦ True) (start ∅)
      [(note, Faults.none)]).isSome := by decide +kernel
  have hrun := Run.of_exec (Option.some_get hsome).symm
  have hacknowledged := hrun.of_exec_map (f := FaultHistory.acknowledged) (a := [note])
    (by decide +kernel)
  have hguard : Run.Guarded (step MessageJson.codec) (Noticed MessageJson.codec) (start ∅)
      [(note, Faults.none)] := by
    refine ⟨⟨?_, Or.inr (Or.inr ⟨rfl, rfl⟩)⟩, fun _ _ ↦ trivial⟩
    change (MessageJson.marshal note).length < _
    decide +kernel
  have hdurable := durable_of_noticed (fun n _ ↦ ⟨[], rfl⟩) hrun hguard note
    (hacknowledged ▸ List.mem_singleton.mpr rfl)
  have hportable : note.Portable :=
    Message.portable_newMessage (utf8_bytesOf _) (by decide) _ _ _
  exact ⟨_, hrun, hacknowledged,
    hdurable.delivered note (MessageJson.codec.unmarshal_marshal note hportable)⟩

/-- **Acknowledged and lost.** With no space left on the device, `WritePublish` returns nil and
nothing is written. -/
theorem acknowledged_on_full_disk :
    ∃ s, Run (step MessageJson.codec) (fun _ ↦ True) (start ∅) [(note, diskFull)] s ∧
      s.acknowledged = [note] ∧ replay MessageJson.codec s.wal.dir = (0, []) := by
  have hsome : (Run.exec (step MessageJson.codec) (fun _ ↦ True) (start ∅)
      [(note, diskFull)]).isSome := by decide +kernel
  have hrun := Run.of_exec (Option.some_get hsome).symm
  have hacknowledged := hrun.of_exec_map (f := FaultHistory.acknowledged) (a := [note])
    (by decide +kernel)
  have hreplay := hrun.of_exec_map (f := fun s ↦ replay MessageJson.codec s.wal.dir) (a := (0, []))
    (by decide +kernel)
  exact ⟨_, hrun, hacknowledged, hreplay⟩

end FaultHistory

end VortexMQ
