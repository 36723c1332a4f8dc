import VortexMQ.Basic.Run
import VortexMQ.Wal.MessageJson
import VortexMQ.Wal.Session

/-!
# The log read back

One session on an empty directory, with any segment limit and any flushing policy, whose last
segment is then cut at an arbitrary byte. To say which records survive, a run keeps for every entry
the segment it went to and the byte at which it ends there.
-/

namespace VortexMQ

/-- What a call of `WritePublish` or `WriteAck` writes. -/
inductive Entry where
  | publish (msg : Message)
  | ack (topic group msgID : Bytes)

namespace Entry

def op : Entry → UInt8
  | .publish _ => opPublish
  | .ack _ _ _ => opAck

def payload (c : Codec) : Entry → Bytes
  | .publish msg => c.marshal msg
  | .ack topic group msgID => Wal.ackPayload topic group msgID

/-- The message of a publication. -/
def message : Entry → Option Message
  | .publish msg => some msg
  | .ack _ _ _ => none

/-- The length of the entry fits the record format. -/
def Short (c : Codec) (e : Entry) : Prop := (e.payload c).length < 2 ^ 32 - 9

theorem short_publish {msg : Message} (h : (MessageJson.marshal msg).length ≤ 1000) :
    (Entry.publish msg).Short MessageJson.codec := h.trans_lt (by norm_num)

/-- The record of a short entry. -/
def record (c : Codec) (e : Entry) (h : e.Short c) : Record := ⟨e.op, e.payload c, h⟩

/-- Messages that are published can be marshalled. -/
def Portable : Entry → Prop
  | .publish msg => msg.Portable
  | .ack _ _ _ => True

theorem delivered_eq (c : Codec) {e : Entry} (h : e.Portable) :
    delivered c (e.op, e.payload c) = e.message := by
  cases e with
  | publish msg => exact (if_pos rfl).trans (c.unmarshal_marshal msg h)
  | ack topic group msgID => exact if_neg (show ¬opAck = opPublish by decide)

end Entry

/-- `WritePublish` or `WriteAck`. -/
def Wal.write (w : Wal) (c : Codec) : Entry → Option (Except Bytes Unit × Wal)
  | .publish msg => w.writePublish c msg
  | .ack topic group msgID => w.writeAck topic group msgID

theorem Wal.write_eq {w : Wal} (hopen : w.closed = false) {c : Codec} {e : Entry}
    (h : e.Short c) : w.write c e = some (.ok (), w.written (e.record c h)) := by
  cases e with
  | publish msg => exact Wal.writeRecord_eq hopen ⟨_, _, h⟩
  | ack topic group msgID => exact Wal.writeRecord_eq hopen ⟨_, _, h⟩

/-! ## Runs of a session -/

/-- Where an entry lies: its segment, and the position in it at which its frame ends. -/
structure Placement where
  entry : Entry
  segment : ℕ
  stop : ℕ

/-- A session, and where its entries went. -/
structure WalState where
  wal : Wal
  placed : List Placement

inductive WalLabel where
  | write (e : Entry)
  /-- The periodic flush. -/
  | sync

namespace WalState

variable (c : Codec)

/-- `OpenWAL` on an empty directory, with an arbitrary segment limit. -/
def start (policy : FsyncPolicy) (maxSegSize : ℤ) : WalState :=
  ⟨{ Wal.openWAL ∅ policy with maxSegSize := maxSegSize }, []⟩

/-- Everything written to the active segment so far, in the file or in the buffer. -/
def activeBytes (w : Wal) : Bytes := w.dir.content w.activeFile ++ w.bufWriter.buf

/-- A frame is added behind the bytes of the active segment. -/
def place (w : Wal) (e : Entry) : Placement :=
  ⟨e, w.segmentID, (activeBytes w).length + ((frame e.op (e.payload c)).getD []).length⟩

/-- `none` is a panic. -/
def step (s : WalState) : WalLabel → Option WalState
  | .write e => (s.wal.write c e).map fun r ↦
      match r.1 with
      | .ok _ => ⟨r.2, s.placed ++ [place c s.wal e]⟩
      | .error _ => { s with wal := r.2 }
  | .sync => some { s with wal := s.wal.sync }

/-- The entries of a run. -/
def entries : List WalLabel → List Entry
  | [] => []
  | .write e :: ls => e :: entries ls
  | .sync :: ls => entries ls

theorem mem_of_mem_entries : ∀ {labels : List WalLabel} {e : Entry}, e ∈ entries labels →
    .write e ∈ labels := by
  intro labels
  induction labels with
  | nil => intro e he; exact absurd he List.not_mem_nil
  | cons l labels ih =>
    intro e he
    cases l with
    | sync => exact List.mem_cons_of_mem _ (ih he)
    | write e' =>
      rcases List.mem_cons.mp he with rfl | he
      · exact List.mem_cons_self
      · exact List.mem_cons_of_mem _ (ih he)

/-! ## The invariant -/

/-- What a placement says about a record. -/
def Placement.mark (p : Placement) : (UInt8 × Bytes) × ℕ × ℕ :=
  ((p.entry.op, p.entry.payload c), p.segment, p.stop)

/-- The records of a segment with the positions at which they end. -/
def marksIn (L : SegmentLog) (n : ℕ) : List ((UInt8 × Bytes) × ℕ × ℕ) :=
  (recordCode.ends 0 (L.records n)).map fun e ↦ ((e.1.op, e.1.payload), n, e.2)

/-- The session represents a log without partial records whose last segment is the active one, and
the placements list its records. -/
structure Tracks (s : WalState) (L : SegmentLog) : Prop where
  represents : s.wal.Represents L
  isOpen : s.wal.closed = false
  torn : ∀ n, L.torn n = []
  count : L.count = s.wal.segmentID
  above : ∀ n, s.wal.segmentID < n → L.records n = []
  placed : s.placed.map (Placement.mark c) = L.numbers.flatMap (marksIn L)

variable {c} {s s' : WalState} {L : SegmentLog}

theorem tracks_start (policy : FsyncPolicy) (maxSegSize : ℤ) :
    Tracks c (start policy maxSegSize) (SegmentLog.empty.extend 1) := by
  have h := Wal.represents_openWAL Directory.Represents.empty policy
  refine ⟨⟨h.activeFile, h.mem_dir, h.pos, h.le, h.flushed⟩, rfl, fun _ ↦ rfl, rfl, fun _ _ ↦ rfl,
    rfl⟩

theorem Tracks.sync (h : Tracks c s L) : Tracks c { s with wal := s.wal.sync } L := by
  have hid : s.wal.sync.segmentID = s.wal.segmentID := by
    rw [Wal.sync]
    split <;> rfl
  have hopen : s.wal.sync.closed = false := by
    rw [Wal.sync]
    split <;> exact h.isOpen
  exact ⟨h.represents.sync, hopen, h.torn, h.count.trans hid.symm,
    fun n hn ↦ h.above n (hid ▸ hn), h.placed⟩

/-- The bytes of the active segment are the encodings of its records. -/
theorem Tracks.activeBytes_eq (h : Tracks c s L) :
    activeBytes s.wal = recordCode.encodeAll (L.records s.wal.segmentID) := by
  have hcontent := h.represents.flushed.content s.wal.segmentID
  rw [h.torn, List.append_nil, ← h.represents.activeFile, Wal.content_flush, if_pos rfl] at hcontent
  exact hcontent

private theorem marksIn_append_self (id : ℕ) (r : Record) :
    marksIn (L.append id r) id = marksIn L id
      ++ [((r.op, r.payload), id,
        (recordCode.encodeAll (L.records id)).length + r.bytes.length)] := by
  rw [marksIn, L.records_append_self, recordCode.ends_append, List.map_append, Nat.zero_add]
  rfl

private theorem marksIn_append_of_ne {id n : ℕ} (h : n ≠ id) (r : Record) :
    marksIn (L.append id r) n = marksIn L n := by
  rw [marksIn, L.records_append_of_ne h, marksIn]

private theorem marksIn_eq_nil {n : ℕ} (h : L.records n = []) : marksIn L n = [] := by
  rw [marksIn, h]
  rfl

theorem Tracks.write (h : Tracks c s L) {e : Entry} {r : Record} (hop : r.op = e.op)
    (hpayload : r.payload = e.payload c) :
    Tracks c ⟨s.wal.written r, s.placed ++ [place c s.wal e]⟩
      ((L.append s.wal.segmentID r).extend (s.wal.written r).segmentID) := by
  have hid := s.wal.segmentID_written r
  have hcount : (L.append s.wal.segmentID r).count = s.wal.segmentID := h.count
  have habove : ∀ n, s.wal.segmentID < n → (L.append s.wal.segmentID r).records n = [] :=
    fun n hn ↦ (L.records_append_of_ne hn.ne' r).trans (h.above n hn)
  refine ⟨h.represents.written (h.torn _) r, (s.wal.closed_written r).trans h.isOpen, h.torn, ?_,
    fun n hn ↦ habove n ?_, ?_⟩
  · change max (L.append s.wal.segmentID r).count _ = _
    rw [hcount]
    exact Nat.max_eq_right (by omega)
  · change (s.wal.written r).segmentID < n at hn
    omega
  · -- the new mark goes behind those of the active segment, which is the last one
    have hmark : Placement.mark c (place c s.wal e) = ((r.op, r.payload), s.wal.segmentID,
        (recordCode.encodeAll (L.records s.wal.segmentID)).length + r.bytes.length) := by
      have hframe : frame e.op (e.payload c) = some r.bytes := hop ▸ hpayload ▸ r.frame_eq
      rw [Placement.mark, place, h.activeBytes_eq, hframe, hop, hpayload]
      rfl
    have hconcat := SegmentLog.flatMap_numbers_concat (L := L) h.represents.pos h.represents.le
      (fun n hn ↦ marksIn_append_of_ne hn r) (marksIn_append_self s.wal.segmentID r)
      (fun n hn ↦ marksIn_eq_nil (h.above n hn))
    have hextend := SegmentLog.flatMap_numbers_extend (L := L.append s.wal.segmentID r)
      (s.wal.written r).segmentID (fun n hn ↦ marksIn_eq_nil (habove n (hcount ▸ hn)))
    rw [List.map_append, List.map_singleton, hmark, h.placed, ← hconcat]
    exact hextend.symm

/-- **Every run of short entries goes through**, and its state tracks a log. -/
theorem exists_tracks : ∀ {labels : List WalLabel} {s : WalState} {L : SegmentLog},
    (∀ e, .write e ∈ labels → e.Short c) → Tracks c s L →
      ∃ s' L', Run (step c) (fun _ ↦ True) s labels s' ∧ Tracks c s' L' ∧
        s'.placed.map Placement.entry = s.placed.map Placement.entry ++ entries labels := by
  intro labels
  induction labels with
  | nil => intro s L _ h; exact ⟨s, L, Run.nil trivial, h, (List.append_nil _).symm⟩
  | cons l labels ih =>
    intro s L hshort h
    have hrest : ∀ e, .write e ∈ labels → e.Short c := fun e he ↦
      hshort e (List.mem_cons_of_mem _ he)
    cases l with
    | sync =>
      obtain ⟨s', L', hrun, htracks, hplaced⟩ := ih hrest h.sync
      exact ⟨s', L', Run.cons trivial rfl hrun, htracks, hplaced⟩
    | write e =>
      have he := hshort e List.mem_cons_self
      obtain ⟨s', L', hrun, htracks, hplaced⟩ :=
        ih hrest (h.write (r := e.record c he) rfl rfl)
      refine ⟨s', L', Run.cons trivial ?_ hrun, htracks, ?_⟩
      · rw [step, Wal.write_eq h.isOpen he]
        rfl
      · rw [hplaced, List.map_append, List.append_assoc]
        rfl

/-! ## Cutting the last segment -/

/-- The messages of the entries whose frames lie wholly in an earlier segment or in the first `k`
bytes of the last one. -/
def survivors (s : WalState) (k : ℕ) : List Message :=
  (s.placed.filter fun p ↦ p.segment < s.wal.segmentID ∨ p.stop ≤ k).filterMap
    fun p ↦ p.entry.message

/-- The messages of the marks that survive in one segment. -/
def survivorsIn (c : Codec) (L : SegmentLog) (last k n : ℕ) : List Message :=
  ((marksIn L n).filter fun m ↦ m.2.1 < last ∨ m.2.2 ≤ k).filterMap fun m ↦ delivered c m.1

theorem Tracks.survivors_eq (h : Tracks c s L) (hportable : ∀ p ∈ s.placed, p.entry.Portable)
    (k : ℕ) : survivors s k = L.numbers.flatMap (survivorsIn c L s.wal.segmentID k) := by
  have hmarks : survivors s k = ((s.placed.map (Placement.mark c)).filter
      fun m ↦ m.2.1 < s.wal.segmentID ∨ m.2.2 ≤ k).filterMap fun m ↦ delivered c m.1 := by
    rw [List.filter_map, List.filterMap_map]
    refine List.filterMap_congr fun p hp ↦ ?_
    exact (p.entry.delivered_eq c (hportable p (List.mem_of_mem_filter hp))).symm
  rw [hmarks, h.placed, List.filter_flatMap, List.filterMap_flatMap]
  rfl

private theorem filterMap_ends (c : Codec) (L : SegmentLog) (n : ℕ) (p : Record × ℕ → Bool) :
    (((recordCode.ends 0 (L.records n)).filter p).map fun e ↦ recordCode.value e.1).filterMap
        (delivered c)
      = ((recordCode.ends 0 (L.records n)).filter p).filterMap
          fun e ↦ delivered c (e.1.op, e.1.payload) := by
  rw [List.filterMap_map]
  rfl

theorem survivorsIn_of_lt {last k n : ℕ} (h : n < last) :
    survivorsIn c L last k n = L.messagesIn c n := by
  have hall : ∀ m ∈ marksIn L n, decide (m.2.1 < last ∨ m.2.2 ≤ k) = true := by
    intro m hm
    obtain ⟨e, -, rfl⟩ := List.mem_map.mp hm
    exact decide_eq_true (Or.inl h)
  rw [survivorsIn, List.filter_eq_self.mpr hall, marksIn, List.filterMap_map,
    SegmentLog.messagesIn]
  have hfst := recordCode.map_fst_ends 0 (L.records n)
  conv_rhs => rw [← hfst, List.filterMap_map]
  rfl

theorem survivorsIn_self (c : Codec) (L : SegmentLog) (n k : ℕ) :
    survivorsIn c L n k n
      = deliveredFrom c ((recordCode.encodeAll (L.records n)).take k) := by
  rw [deliveredFrom, recordCode.decodeAll_take 0 k le_rfl, Nat.zero_add, filterMap_ends,
    survivorsIn, marksIn, List.filter_map, List.filterMap_map]
  refine congrArg (List.filterMap _) (List.filter_congr fun e _ ↦ ?_)
  simp

/-- The files of a session, whether or not its buffer has been flushed. -/
theorem Tracks.files (h : Tracks c s L) {dir : Directory}
    (hdir : dir = s.wal.dir ∨ dir = s.wal.close.dir) :
    dir.keys.Perm (L.numbers.map segName) ∧
      (∀ n, n ≠ s.wal.segmentID →
        dir.content (segName n) = recordCode.encodeAll (L.records n)) ∧
      dir.content (segName s.wal.segmentID)
        <+: recordCode.encodeAll (L.records s.wal.segmentID) := by
  have hflushed := h.represents.flushed
  have hcontent : ∀ n, s.wal.flush.dir.content (segName n)
      = recordCode.encodeAll (L.records n) := fun n ↦ by
    rw [hflushed.content, h.torn, List.append_nil]
  rcases hdir with rfl | rfl
  · refine ⟨(Wal.keys_flush_perm h.represents.mem_dir).symm.trans hflushed.keys, fun n hn ↦ ?_, ?_⟩
    · rw [← hcontent, Wal.content_flush, h.represents.activeFile,
        if_neg (segName_injective.ne hn), List.append_nil]
    · rw [← hcontent, Wal.content_flush]
      exact List.prefix_append _ _
  · rw [Wal.dir_close h.isOpen]
    exact ⟨hflushed.keys, fun n _ ↦ hcontent n, (hcontent _).symm ▸ List.prefix_rfl⟩

theorem Tracks.replay_truncate (h : Tracks c s L) (hportable : ∀ p ∈ s.placed, p.entry.Portable)
    (hcount : s.wal.segmentID < 10 ^ 6) {dir : Directory}
    (hdir : dir = s.wal.dir ∨ dir = s.wal.close.dir) {k : ℕ}
    (hk : k ≤ (dir.content (segName s.wal.segmentID)).length) :
    replay c (dir.truncate (segName s.wal.segmentID) k)
      = ((survivors s k).length, survivors s k) := by
  obtain ⟨hkeys, hothers, hlast⟩ := h.files hdir
  have hid : s.wal.segmentID ∈ L.numbers :=
    SegmentLog.mem_numbers.mpr ⟨h.represents.pos, h.represents.le⟩
  have hmem : segName s.wal.segmentID ∈ dir :=
    AList.mem_keys.mpr (hkeys.mem_iff.mpr (List.mem_map_of_mem hid))
  have hglob : (dir.truncate (segName s.wal.segmentID) k).glob = L.numbers.map segName :=
    Directory.glob_eq ((keys_insert_of_mem_perm hmem).trans hkeys) (h.count ▸ hcount)
  have hfile : ∀ n ∈ L.numbers,
      deliveredFrom c ((dir.truncate (segName s.wal.segmentID) k).content (segName n))
        = survivorsIn c L s.wal.segmentID k n := by
    intro n hn
    by_cases hne : n = s.wal.segmentID
    · subst hne
      obtain ⟨t, ht⟩ := hlast
      rw [Directory.truncate, Directory.content_insert_self, survivorsIn_self, ← ht,
        List.take_append_of_le_length hk]
    · have hlt : n < s.wal.segmentID := by
        have hle := (SegmentLog.mem_numbers.mp hn).2
        rw [h.count] at hle
        exact lt_of_le_of_ne hle hne
      rw [Directory.truncate, Directory.content_insert_of_ne (segName_injective.ne hne),
        hothers n hne, survivorsIn_of_lt hlt, deliveredFrom_encodeAll]
      rfl
  rw [replay_eq, hglob, List.flatMap_map, List.flatMap_congr hfile, h.survivors_eq hportable]

theorem Tracks.exists_frame (h : Tracks c s L) {p : Placement} (hp : p ∈ s.placed) :
    ∃ front back, frame p.entry.op (p.entry.payload c) = some back ∧
      front ++ back <+: s.wal.close.dir.content (segName p.segment) ∧
      p.stop = (front ++ back).length := by
  have hmark : Placement.mark c p ∈ L.numbers.flatMap (marksIn L) :=
    h.placed ▸ List.mem_map_of_mem hp
  obtain ⟨n, -, hn⟩ := List.mem_flatMap.mp hmark
  obtain ⟨⟨r, stop⟩, hends, heq⟩ := List.mem_map.mp hn
  rw [Placement.mark, Prod.mk.injEq, Prod.mk.injEq, Prod.mk.injEq] at heq
  obtain ⟨⟨hop, hpayload⟩, hseg, hstop⟩ := heq
  obtain ⟨rs, rs', hrecords, hend⟩ := recordCode.exists_append_of_mem_ends hends
  refine ⟨recordCode.encodeAll rs, r.bytes, ?_, ?_, ?_⟩
  · rw [← hop, ← hpayload]
    exact r.frame_eq
  · have hcontent := h.represents.flushed.content n
    rw [h.torn, List.append_nil, hrecords, recordCode.encodeAll_append, recordCode.encodeAll_cons,
      ← List.append_assoc] at hcontent
    rw [Wal.dir_close h.isOpen, ← hseg, hcontent]
    exact List.prefix_append _ _
  · rw [← hstop, hend, Nat.zero_add]
    rfl

/-- **The log round trip.** Write any short entries in one session, under any policy and any segment
limit, with the periodic flush wherever it may fall. The session goes through; every entry is placed
once, in order, and its frame ends where the placement says. Cut the last of fewer than a million
segments at any byte, before or after `Close`: replay delivers exactly the messages whose frames lie
wholly in an earlier segment or before the cut, in the order in which they were written, and returns
their number. -/
theorem replay_truncate_last (c : Codec) (policy : FsyncPolicy) (maxSegSize : ℤ)
    (labels : List WalLabel) (hshort : ∀ e, .write e ∈ labels → e.Short c)
    (hportable : ∀ e, .write e ∈ labels → e.Portable) :
    ∃ s, Run (step c) (fun _ ↦ True) (start policy maxSegSize) labels s ∧
      s.placed.map Placement.entry = entries labels ∧
      (∀ p ∈ s.placed, ∃ front back, frame p.entry.op (p.entry.payload c) = some back ∧
        front ++ back <+: s.wal.close.dir.content (segName p.segment) ∧
        p.stop = (front ++ back).length) ∧
      (s.wal.segmentID < 10 ^ 6 → ∀ dir, dir = s.wal.dir ∨ dir = s.wal.close.dir →
        ∀ k ≤ (dir.content (segName s.wal.segmentID)).length,
          replay c (dir.truncate (segName s.wal.segmentID) k)
            = ((survivors s k).length, survivors s k)) := by
  obtain ⟨s, L, hrun, htracks, hplaced⟩ := exists_tracks hshort (tracks_start policy maxSegSize)
  have hentries : ∀ p ∈ s.placed, .write p.entry ∈ labels := by
    intro p hp
    refine mem_of_mem_entries ?_
    have hmem : p.entry ∈ s.placed.map Placement.entry := List.mem_map_of_mem hp
    rwa [hplaced] at hmem
  refine ⟨s, hrun, hplaced, fun p hp ↦ htracks.exists_frame hp, fun hcount dir hdir k hk ↦ ?_⟩
  exact htracks.replay_truncate (fun p hp ↦ hportable _ (hentries p hp)) hcount hdir hk

/-- A publication, its acknowledgment, a flush and another publication. -/
def publishAckPublish : List WalLabel :=
  [.write (.publish
      (Message.newMessage (bytesOf "orders") (some (bytesOf "first")) 0 1 [171, 205])),
    .write (.ack (bytesOf "orders") (bytesOf "g") (bytesOf "0-1-abcd")), .sync,
    .write (.publish (Message.newMessage (bytesOf "orders") none 1000000 2 [1, 2]))]

/-- Under a limit of 145 bytes the second message starts the second segment. Cut inside that
message, the log still has the first one. -/
theorem replay_truncate_last_publishAckPublish :
    ∃ s, Run (step MessageJson.codec) (fun _ ↦ True) (start .everySec 145) publishAckPublish s ∧
      s.placed.map (fun p ↦ (p.segment, p.stop)) = [(1, 123), (1, 149), (2, 144)] ∧
      (survivors s 100).length = 1 ∧
      replay MessageJson.codec (s.wal.close.dir.truncate (segName s.wal.segmentID) 100)
        = ((survivors s 100).length, survivors s 100) := by
  have hshort : ∀ e, .write e ∈ publishAckPublish → e.Short MessageJson.codec := by
    intro e he
    simp only [publishAckPublish, List.mem_cons, WalLabel.write.injEq, reduceCtorEq,
      List.not_mem_nil, or_false, false_or] at he
    rcases he with rfl | rfl | rfl
    · exact Entry.short_publish (by decide +kernel)
    · unfold Entry.Short
      decide +kernel
    · exact Entry.short_publish (by decide +kernel)
  have hportable : ∀ e, .write e ∈ publishAckPublish → e.Portable := by
    intro e he
    simp only [publishAckPublish, List.mem_cons, WalLabel.write.injEq, reduceCtorEq,
      List.not_mem_nil, or_false, false_or] at he
    rcases he with rfl | rfl | rfl
    · exact Message.portable_newMessage (utf8_bytesOf _) (by decide) _ _ _
    · trivial
    · exact Message.portable_newMessage (utf8_bytesOf _) (by decide) _ _ _
  obtain ⟨s, hrun, -, -, hcut⟩ :=
    replay_truncate_last MessageJson.codec .everySec 145 publishAckPublish hshort hportable
  have hplaced := hrun.of_exec_map (f := fun s ↦ s.placed.map fun p ↦ (p.segment, p.stop))
    (a := [(1, 123), (1, 149), (2, 144)]) (by decide +kernel)
  have hsurvivors := hrun.of_exec_map (f := fun s ↦ (survivors s 100).length) (a := 1)
    (by decide +kernel)
  have hid := hrun.of_exec_map (f := fun s ↦ s.wal.segmentID) (a := 2) (by decide +kernel)
  have hlen := hrun.of_exec_map (a := 144)
    (f := fun s ↦ (s.wal.close.dir.content (segName s.wal.segmentID)).length) (by decide +kernel)
  refine ⟨s, hrun, hplaced, hsurvivors, hcut ?_ _ (Or.inr rfl) 100 ?_⟩
  · exact hid ▸ (by decide : 2 < 10 ^ 6)
  · exact hlen ▸ (by decide : 100 ≤ 144)

end WalState

end VortexMQ
