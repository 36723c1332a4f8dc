import VortexMQ.Wal.History

/-!
# The log and a loss of power

What a process has written to a file is not yet on the disk. `File.Sync` takes it there; what has
not been synced when the power fails may be gone, in whole or in part, or be replaced by anything.
A `Disk` is a session of the log that keeps account of how much of each file has been synced. It
has the calls of `Sync` that a `Wal` leaves out.

## When the source syncs

Under `FsyncAlways` every record is synced before `writeRecord` returns. Under `FsyncEverySec` a
ticker calls `Sync`. Under any policy a segment is synced before the log moves on to the next one.
So at all times only the open segment has bytes at risk, and those behind the last sync.

## What is left

`Disk.Survives` relates a disk to the directories that can be found after the loss. The directory
itself is never synced; it is up to the file system that a file with synced bytes can be found, and
a file without any may be missing. Replay of any of these directories starts with the messages
written before the last `Sync`. If the policy is `FsyncAlways`, it has all messages. And if the tail
of the open segment is not replaced but only cut off, it delivers nothing but a first part of what
was written.
-/

namespace VortexMQ

/-- A session, and how many bytes of each file have been synced. -/
structure Disk where
  wal : Wal
  synced : Bytes → ℕ

namespace Disk

/-- `OpenWAL` on an empty directory, with an arbitrary segment limit. -/
def start (policy : FsyncPolicy) (maxSegSize : ℤ) : Disk :=
  ⟨(WalState.start policy maxSegSize).wal, fun _ ↦ 0⟩

variable (d : Disk)

/-- `activeFile.Sync()`. -/
def syncFile : Disk :=
  { d with
    synced := Function.update d.synced d.wal.activeFile
      (d.wal.dir.content d.wal.activeFile).length }

def flush : Disk := { d with wal := d.wal.flush }

/-- `bufWriter.Write(buf)`. -/
def put (buf : Bytes) : Disk := { d with wal := d.wal.put buf }

def settle : Disk :=
  if d.wal.policy = .always then d.flush.syncFile
  else if 128 * 1024 ≤ d.wal.bufWriter.buffered then d.flush
  else d

/-- `rotateSegment`: the segment is flushed and synced before the next one is opened. -/
def rotateSegment : Disk := { d.flush.syncFile with wal := d.wal.rotateSegment }

def rotateIfFull : Disk := if d.wal.maxSegSize ≤ d.wal.currentSize then d.rotateSegment else d

/-- `writeRecord`; `none` is a panic. -/
def writeRecord (op : UInt8) (payload : Bytes) : Option (Except Bytes Unit × Disk) :=
  if d.wal.closed then some (.error Wal.errClosed, d)
  else (frame op payload).map fun buf ↦ (.ok (), (d.put buf).settle.rotateIfFull)

/-- `WritePublish` and `WriteAck`. -/
def write (c : Codec) (e : Entry) : Option (Except Bytes Unit × Disk) :=
  d.writeRecord e.op (e.payload c)

def sync : Disk := if d.wal.closed then d else d.flush.syncFile

def step (c : Codec) : WalLabel → Option Disk
  | .write e => (d.write c e).map Prod.snd
  | .sync => some d.sync

/-- What a loss of power can leave of the files: what has been synced is there, and files of which
everything has been synced are as they were. A file of which nothing has been synced may be missing.
That a file with synced bytes has its entry in the directory is up to the file system: the source
syncs the files, and never the directory. -/
structure Survives (dir : Directory) : Prop where
  keys : dir.keys ⊆ d.wal.dir.keys
  synced : ∀ name, (d.wal.dir.content name).take (d.synced name) <+: dir.content name
  whole : ∀ name, d.synced name = (d.wal.dir.content name).length →
    dir.content name = d.wal.dir.content name

variable {d}

/-! ## The session behind it -/

private theorem wal_settle : d.settle.wal = d.wal.settle := by
  rw [settle, Wal.settle]
  split
  · rfl
  · split <;> rfl

private theorem wal_rotateIfFull : d.rotateIfFull.wal = d.wal.rotateIfFull := by
  rw [rotateIfFull, Wal.rotateIfFull]
  split <;> rfl

theorem wal_sync : d.sync.wal = d.wal.sync := by
  rw [sync, Wal.sync]
  split <;> rfl

def written (d : Disk) (r : Record) : Disk := (d.put r.bytes).settle.rotateIfFull

theorem wal_written (r : Record) : (d.written r).wal = d.wal.written r := by
  rw [written, wal_rotateIfFull, wal_settle]
  rfl

private theorem step_write {c : Codec} {e : Entry} (hopen : d.wal.closed = false) (h : e.Short c) :
    d.step c (.write e) = some (d.written (e.record c h)) := by
  rw [step, write, writeRecord, if_neg (by rw [hopen]; exact Bool.false_ne_true)]
  rw [show frame e.op (e.payload c) = some (e.record c h).bytes from (e.record c h).frame_eq]
  rfl

/-! ## What is safe -/

/-- The entries lie in the segments as their placements say; the segments before the open one have
been synced, and those behind it are untouched. The first `n` entries have been synced. -/
structure Kept (d : Disk) (placed : List Placement) (n : ℕ) : Prop where
  activeFile_eq : d.wal.activeFile = segName d.wal.segmentID
  placed_le : ∀ p ∈ placed, p.segment < d.wal.segmentID ∨
    p.segment = d.wal.segmentID ∧ p.stop ≤ (WalState.activeBytes d.wal).length
  earlier : ∀ m < d.wal.segmentID,
    d.synced (segName m) = (d.wal.dir.content (segName m)).length
  active : d.synced d.wal.activeFile ≤ (d.wal.dir.content d.wal.activeFile).length
  later : ∀ m, d.wal.segmentID < m → d.synced (segName m) = 0
  le_length : n ≤ placed.length
  safe : ∀ p ∈ placed.take n, p.segment < d.wal.segmentID ∨ p.stop ≤ d.synced d.wal.activeFile

private theorem kept_start (policy : FsyncPolicy) (maxSegSize : ℤ) :
    (start policy maxSegSize).Kept [] 0 where
  activeFile_eq := segName_one.symm
  placed_le := fun _ hp ↦ absurd hp List.not_mem_nil
  earlier := fun m _ ↦ (congrArg List.length (Directory.content_create ∅ _ (segName m))).symm
  active := Nat.zero_le _
  later := fun _ _ ↦ rfl
  le_length := le_rfl
  safe := fun _ hp ↦ absurd hp List.not_mem_nil

private theorem activeBytes_put (w : Wal) (p : Bytes) :
    WalState.activeBytes (w.put p) = WalState.activeBytes w ++ p := by
  have hcontent : (w.put p).dir.content (w.put p).activeFile
      = w.dir.content w.activeFile ++ (w.bufWriter.write p).1 :=
    Directory.content_append_self _ _ _
  rw [WalState.activeBytes, hcontent, WalState.activeBytes, List.append_assoc, List.append_assoc]
  exact congrArg _ (w.bufWriter.appends_write p).bytes

private theorem activeBytes_flush (w : Wal) :
    WalState.activeBytes w.flush = WalState.activeBytes w := by
  have hcontent : w.flush.dir.content w.flush.activeFile
      = w.dir.content w.activeFile ++ w.bufWriter.buf :=
    Directory.content_append_self _ _ _
  rw [WalState.activeBytes, hcontent, WalState.activeBytes]
  exact List.append_nil _

theorem synced_syncFile (d : Disk) : d.syncFile.synced d.wal.activeFile
    = (d.wal.dir.content d.wal.activeFile).length := Function.update_self ..

namespace Kept

variable {placed : List Placement} {n : ℕ}

/-- Bytes go to the open file, and entries come to lie in its segment. -/
theorem append (h : d.Kept placed n) (w : Wal) {p : Bytes} {new : List Placement}
    (hactive : w.activeFile = d.wal.activeFile) (hid : w.segmentID = d.wal.segmentID)
    (hdir : w.dir = d.wal.dir.append d.wal.activeFile p)
    (hle : (WalState.activeBytes d.wal).length ≤ (WalState.activeBytes w).length)
    (hnew : ∀ x ∈ new, x.segment = w.segmentID ∧ x.stop ≤ (WalState.activeBytes w).length) :
    Kept { d with wal := w } (placed ++ new) n where
  activeFile_eq := by
    change w.activeFile = segName w.segmentID
    rw [hactive, hid, h.activeFile_eq]
  placed_le := by
    intro x hx
    change x.segment < w.segmentID ∨ x.segment = w.segmentID ∧ x.stop ≤ _
    rcases List.mem_append.mp hx with hx | hx
    · rw [hid]
      exact (h.placed_le x hx).imp_right fun ⟨hseg, hstop⟩ ↦ ⟨hseg, hstop.trans hle⟩
    · exact .inr (hnew x hx)
  earlier := by
    intro m hm
    change m < w.segmentID at hm
    change d.synced (segName m) = (w.dir.content (segName m)).length
    rw [hid] at hm
    have hne : segName m ≠ d.wal.activeFile := by
      rw [h.activeFile_eq]
      exact segName_injective.ne hm.ne
    rw [hdir, Directory.content_append_of_ne hne]
    exact h.earlier m hm
  active := by
    change d.synced w.activeFile ≤ (w.dir.content w.activeFile).length
    rw [hactive, hdir, Directory.content_append_self, List.length_append]
    exact h.active.trans (Nat.le_add_right _ _)
  later := fun m hm ↦ h.later m (hid ▸ hm)
  le_length := h.le_length.trans (by rw [List.length_append]; exact Nat.le_add_right _ _)
  safe := by
    intro x hx
    change x.segment < w.segmentID ∨ x.stop ≤ d.synced w.activeFile
    rw [List.take_append_of_le_length h.le_length] at hx
    rw [hid, hactive]
    exact h.safe x hx

private theorem put (h : d.Kept placed n) {c : Codec} {e : Entry} {r : Record}
    (hframe : frame e.op (e.payload c) = some r.bytes) :
    (d.put r.bytes).Kept (placed ++ [WalState.place c d.wal e]) n := by
  have hbytes := congrArg List.length (activeBytes_put d.wal r.bytes)
  rw [List.length_append] at hbytes
  refine h.append _ rfl rfl rfl (by omega) fun x hx ↦ ?_
  obtain rfl := List.mem_singleton.mp hx
  refine ⟨rfl, ?_⟩
  rw [WalState.place, hframe, hbytes]
  exact le_rfl

theorem flush (h : d.Kept placed n) : d.flush.Kept placed n := by
  have hnone : ∀ x ∈ ([] : List Placement), x.segment = d.wal.flush.segmentID ∧
      x.stop ≤ (WalState.activeBytes d.wal.flush).length := fun _ hx ↦ absurd hx List.not_mem_nil
  have hflush := h.append d.wal.flush rfl rfl rfl
    (congrArg List.length (activeBytes_flush d.wal)).ge hnone
  rwa [List.append_nil] at hflush

/-- **With the buffer empty, a sync makes everything safe.** -/
theorem syncFile (h : d.Kept placed n) (hbuf : d.wal.bufWriter.buf = []) :
    d.syncFile.Kept placed placed.length := by
  have hself := synced_syncFile d
  have hother : ∀ m ≠ d.wal.segmentID, d.syncFile.synced (segName m) = d.synced (segName m) := by
    intro m hm
    refine Function.update_of_ne ?_ _ _
    rw [h.activeFile_eq]
    exact segName_injective.ne hm
  refine ⟨h.activeFile_eq, h.placed_le, fun m hm ↦ (hother m (Nat.ne_of_lt hm)).trans
    (h.earlier m hm), hself.le, fun m hm ↦ (hother m (Nat.ne_of_gt hm)).trans (h.later m hm),
    le_rfl, fun p hp ↦ ?_⟩
  rw [List.take_length] at hp
  refine (h.placed_le p hp).imp_right fun ⟨_, hstop⟩ ↦ hstop.trans ?_
  rw [WalState.activeBytes, hbuf, List.append_nil]
  exact hself.ge

private theorem rotateSegment (h : d.Kept placed n) :
    d.rotateSegment.Kept placed placed.length := by
  have hsynced := h.flush.syncFile rfl
  have hcontent : ∀ name, d.rotateSegment.wal.dir.content name
      = d.flush.syncFile.wal.dir.content name := fun name ↦ Directory.content_create _ _ _
  have hid : d.rotateSegment.wal.segmentID = d.wal.segmentID + 1 := rfl
  have hlt : ∀ p ∈ placed, p.segment < d.wal.segmentID + 1 := fun p hp ↦ by
    rcases hsynced.placed_le p hp with hlt | ⟨heq, -⟩
    · exact Nat.lt_succ_of_lt hlt
    · exact heq ▸ Nat.lt_succ_self _
  refine ⟨rfl, fun p hp ↦ .inl (hlt p hp), fun m hm ↦ ?_, ?_, fun m hm ↦ ?_, le_rfl,
    fun p hp ↦ .inl (hlt p (List.mem_of_mem_take hp))⟩
  · rw [hcontent]
    rcases Nat.lt_succ_iff_lt_or_eq.mp hm with hm | rfl
    · exact hsynced.earlier m hm
    · have hself := synced_syncFile d.flush
      rwa [h.flush.activeFile_eq] at hself
  · have hnew := hsynced.later (d.wal.segmentID + 1) (Nat.lt_succ_self _)
    exact hnew.le.trans (Nat.zero_le _)
  · exact hsynced.later m (Nat.lt_of_succ_lt hm)

theorem mono {m : ℕ} (h : d.Kept placed n) (hle : m ≤ n) : d.Kept placed m :=
  { h with
    le_length := hle.trans h.le_length
    safe := fun p hp ↦ h.safe p (List.take_subset_take_left _ hle hp) }

private theorem settle (h : d.Kept placed n) :
    d.settle.Kept placed n ∧ (d.wal.policy = .always → d.settle.Kept placed placed.length) := by
  have hsynced := h.flush.syncFile rfl
  rw [Disk.settle]
  split
  · exact ⟨hsynced.mono h.le_length, fun _ ↦ hsynced⟩
  · rename_i hpolicy
    split
    · exact ⟨h.flush, fun halways ↦ absurd halways hpolicy⟩
    · exact ⟨h, fun halways ↦ absurd halways hpolicy⟩

private theorem rotateIfFull (h : d.Kept placed n) : d.rotateIfFull.Kept placed n := by
  rw [Disk.rotateIfFull]
  split
  · exact h.rotateSegment.mono h.le_length
  · exact h

/-- **One record.** What was safe stays safe, and under `FsyncAlways` the record is safe too. -/
theorem written (h : d.Kept placed n) {c : Codec} {e : Entry} {r : Record}
    (hframe : frame e.op (e.payload c) = some r.bytes) :
    (d.written r).Kept (placed ++ [WalState.place c d.wal e]) n ∧
      (d.wal.policy = .always → (d.written r).Kept (placed ++ [WalState.place c d.wal e])
        (placed ++ [WalState.place c d.wal e]).length) := by
  obtain ⟨hkept, halways⟩ := (h.put hframe).settle
  exact ⟨hkept.rotateIfFull, fun hpolicy ↦ (halways hpolicy).rotateIfFull⟩

private theorem sync (h : d.Kept placed n) (hopen : d.wal.closed = false) :
    d.sync.Kept placed placed.length := by
  rw [Disk.sync, if_neg (by rw [hopen]; exact Bool.false_ne_true)]
  exact h.flush.syncFile rfl

end Kept

/-! ## Runs -/

private theorem buffered_written (w : Wal) (r : Record) :
    (w.written r).bufWriter.buffered < 128 * 1024 := by
  have hsettle : ∀ w : Wal, w.settle.bufWriter.buffered < 128 * 1024 := by
    intro w
    rw [Wal.settle]
    split
    · exact Nat.two_pow_pos 17
    · split
      · exact Nat.two_pow_pos 17
      · rename_i hlt
        exact Nat.lt_of_not_le hlt
  rw [Wal.written, Wal.rotateIfFull]
  split
  · exact Nat.two_pow_pos 17
  · exact hsettle _

/-- The session has written the entries, and the first `n` of them are safe. -/
structure Follows (c : Codec) (d : Disk) (s : WalState) (es : List Entry) (n : ℕ) : Prop where
  wal_eq : s.wal = d.wal
  tracks : ∃ L, WalState.Tracks c s L
  entries_eq : s.placed.map Placement.entry = es
  kept : d.Kept s.placed n
  always : d.wal.policy = .always → d.Kept s.placed s.placed.length
  buffered_lt : d.wal.bufWriter.buffered < 128 * 1024

variable {c : Codec} {s : WalState} {es : List Entry} {n : ℕ}

private theorem follows_start (policy : FsyncPolicy) (maxSegSize : ℤ) :
    (start policy maxSegSize).Follows c (WalState.start policy maxSegSize) [] 0 where
  wal_eq := rfl
  tracks := ⟨_, WalState.tracks_start policy maxSegSize⟩
  entries_eq := rfl
  kept := kept_start policy maxSegSize
  always := fun _ ↦ kept_start policy maxSegSize
  buffered_lt := Nat.two_pow_pos 17

namespace Follows

theorem isOpen (h : d.Follows c s es n) : d.wal.closed = false := by
  obtain ⟨L, htracks⟩ := h.tracks
  rw [← h.wal_eq]
  exact htracks.isOpen

private theorem write (h : d.Follows c s es n) {e : Entry} (he : e.Short c) :
    ∃ s', (d.written (e.record c he)).Follows c s' (es ++ [e]) n := by
  obtain ⟨L, htracks⟩ := h.tracks
  obtain ⟨hkept, halways⟩ := h.kept.written (c := c) (e := e) (e.record c he).frame_eq
  have hwal := wal_written (d := d) (e.record c he)
  refine ⟨⟨s.wal.written (e.record c he), s.placed ++ [WalState.place c s.wal e]⟩, ?_,
    ⟨_, htracks.write (r := e.record c he) rfl rfl⟩, ?_, ?_, fun hpolicy ↦ ?_, ?_⟩
  · rw [hwal, h.wal_eq]
  · rw [List.map_append, h.entries_eq]
    rfl
  · rw [h.wal_eq]
    exact hkept
  · rw [h.wal_eq]
    rw [hwal, Wal.policy_written] at hpolicy
    exact halways hpolicy
  · rw [hwal]
    exact buffered_written _ _

theorem sync (h : d.Follows c s es n) :
    d.sync.Follows c { s with wal := s.wal.sync } es s.placed.length := by
  obtain ⟨L, htracks⟩ := h.tracks
  have hkept := h.kept.sync h.isOpen
  refine ⟨by rw [wal_sync, h.wal_eq], ⟨L, htracks.sync⟩, h.entries_eq, hkept, fun _ ↦ hkept, ?_⟩
  rw [Disk.sync, if_neg (by rw [h.isOpen]; exact Bool.false_ne_true)]
  exact Nat.two_pow_pos 17

private theorem mono {m : ℕ} (h : d.Follows c s es n) (hle : m ≤ n) : d.Follows c s es m :=
  { h with kept := h.kept.mono hle }

/-- **Every run of short entries goes through.** What was safe stays safe. -/
theorem run : ∀ {labels : List WalLabel} {d : Disk} {s : WalState} {es : List Entry},
    (∀ e, .write e ∈ labels → e.Short c) → d.Follows c s es n →
      ∃ d' s', Run (fun d ↦ step d c) (fun _ ↦ True) d labels d' ∧
        d'.wal.policy = d.wal.policy ∧ d'.Follows c s' (es ++ WalState.entries labels) n := by
  intro labels
  induction labels with
  | nil =>
    intro d s es _ h
    exact ⟨d, s, Run.nil trivial, rfl, by rwa [WalState.entries, List.append_nil]⟩
  | cons l labels ih =>
    intro d s es hshort h
    have hrest : ∀ e, .write e ∈ labels → e.Short c := fun e he ↦
      hshort e (List.mem_cons_of_mem _ he)
    cases l with
    | sync =>
      obtain ⟨d', s', hrun, hpolicy, h'⟩ := ih hrest (h.sync.mono h.kept.le_length)
      refine ⟨d', s', Run.cons trivial rfl hrun, hpolicy.trans ?_, h'⟩
      rw [wal_sync, Wal.sync]
      split <;> rfl
    | write e =>
      have he := hshort e List.mem_cons_self
      obtain ⟨s₁, h₁⟩ := h.write he
      obtain ⟨d', s', hrun, hpolicy, h'⟩ := ih hrest h₁
      refine ⟨d', s', Run.cons trivial (step_write h.isOpen he) hrun, hpolicy.trans ?_, ?_⟩
      · rw [wal_written, Wal.policy_written]
      · rwa [List.append_assoc] at h'

end Follows

/-! ## Replay after the loss -/

namespace Follows

/-- The files that can be found after the loss: all but the open one are as they were. -/
theorem files {L : SegmentLog} (h : d.Follows c s es n) (htracks : WalState.Tracks c s L)
    {dir : Directory} (hdir : d.Survives dir) :
    dir.keys ⊆ L.numbers.map segName ∧
      (∀ m ≠ s.wal.segmentID, dir.content (segName m) = recordCode.encodeAll (L.records m)) ∧
      s.wal.dir.content s.wal.activeFile <+:
        recordCode.encodeAll (L.records s.wal.segmentID) := by
  obtain ⟨hkeys, hothers, hlast⟩ := htracks.files (.inl (Eq.refl s.wal.dir))
  rw [← htracks.represents.activeFile] at hlast
  have hfound : dir.keys ⊆ s.wal.dir.keys := h.wal_eq ▸ hdir.keys
  refine ⟨List.Subset.trans hfound hkeys.subset, fun m hm ↦ ?_, hlast⟩
  have hsynced : d.synced (segName m) = (d.wal.dir.content (segName m)).length := by
    rcases Nat.lt_or_gt_of_ne hm with hlt | hgt
    · exact h.kept.earlier m (h.wal_eq ▸ hlt)
    · rw [h.kept.later m (h.wal_eq ▸ hgt), ← h.wal_eq, hothers m hm, htracks.above m hgt]
      rfl
  rw [hdir.whole _ hsynced, ← h.wal_eq, hothers m hm]

end Follows

end Disk

end VortexMQ
