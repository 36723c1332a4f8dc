import VortexMQ.Bufio.Writer
import VortexMQ.Coding.Decimal
import VortexMQ.Queue.Message
import VortexMQ.Wal.Record

/-!
# The write-ahead log

`internal/wal/wal.go` over a file system that does what it is told. A `Wal` is a session: it holds
the state of the log directory together with the fields of the source's record, and what is on disk
is the contents of the directory without what still sits in the writer's buffer.

`Sync` and `Close` of a file leave its contents alone and do not appear. What depends on the
periodic `Sync` of the `FsyncEverySec` policy is its flush, which is `Wal.sync`.
-/

namespace VortexMQ

inductive FsyncPolicy where
  | everySec
  | always
  | none
  deriving DecidableEq

/-- `encoding/json` on messages. The law is the one the log relies on. -/
structure Codec where
  marshal : Message → Bytes
  unmarshal : Bytes → Option Message
  unmarshal_marshal : ∀ m, m.Portable → unmarshal (marshal m) = some m

/-! ## The directory -/

/-- The files of the log directory, by name. -/
abbrev Directory := AList fun _ : Bytes ↦ Bytes

namespace Directory

/-- The contents of a file; nothing, if there is no such file. -/
def content (d : Directory) (name : Bytes) : Bytes := (d.lookup name).getD []

/-- `os.OpenFile` with `O_CREATE|O_APPEND`. -/
def create (d : Directory) (name : Bytes) : Directory := if name ∈ d then d else d.insert name []

/-- A write to a file opened for appending. -/
def append (d : Directory) (name p : Bytes) : Directory := d.insert name (d.content name ++ p)

/-- Cut a file at byte `k`. -/
def truncate (d : Directory) (name : Bytes) (k : ℕ) : Directory :=
  d.insert name ((d.content name).take k)

/-- The pattern `vortexmq_*.wal`. -/
def IsSegment (name : Bytes) : Prop :=
  bytesOf "vortexmq_" <+: name ∧ bytesOf ".wal" <:+ name ∧ 13 ≤ name.length

instance (name : Bytes) : Decidable (IsSegment name) := inferInstanceAs (Decidable (_ ∧ _ ∧ _))

/-- `filepath.Glob`, which returns names in lexicographic order. -/
def glob (d : Directory) : List Bytes :=
  (d.keys.filter fun name ↦ IsSegment name).insertionSort (· ≤ ·)

end Directory

/-- `vortexmq_%06d.wal`. -/
def segName (id : ℕ) : Bytes := bytesOf "vortexmq_" ++ Decimal.padded 6 id ++ bytesOf ".wal"

/-! ## Writing -/

structure Wal where
  /-- The directory as it is on disk. -/
  dir : Directory
  policy : FsyncPolicy
  /-- The name of the open file. -/
  activeFile : Bytes
  bufWriter : BufWriter
  segmentID : ℕ
  maxSegSize : ℤ
  currentSize : ℤ
  closed : Bool

namespace Wal

/-- `OpenWAL`: always the first segment. -/
def openWAL (dir : Directory) (policy : FsyncPolicy) : Wal where
  dir := dir.create (bytesOf "vortexmq_000001.wal")
  policy := policy
  activeFile := bytesOf "vortexmq_000001.wal"
  bufWriter := BufWriter.new (256 * 1024)
  segmentID := 1
  maxSegSize := 64 * 1024 * 1024
  currentSize := ((dir.create (bytesOf "vortexmq_000001.wal")).content
    (bytesOf "vortexmq_000001.wal")).length
  closed := false

variable (w : Wal)

/-- Pass the buffer on to the open file. -/
def flush : Wal :=
  { w with
    dir := w.dir.append w.activeFile w.bufWriter.flush.1
    bufWriter := w.bufWriter.flush.2 }

/-- `bufWriter.Write(buf)` and the count of its bytes. -/
def put (buf : Bytes) : Wal :=
  { w with
    dir := w.dir.append w.activeFile (w.bufWriter.write buf).1
    bufWriter := (w.bufWriter.write buf).2
    currentSize := w.currentSize + buf.length }

/-- The flush that the policy asks for after a record. -/
def settle : Wal :=
  if w.policy = .always then w.flush
  else if 128 * 1024 ≤ w.bufWriter.buffered then w.flush
  else w

/-- `rotateSegment`: the next segment is opened for appending, whether or not it exists, and its
size is taken to be zero. -/
def rotateSegment : Wal :=
  { w.flush with
    segmentID := w.segmentID + 1
    activeFile := segName (w.segmentID + 1)
    dir := w.flush.dir.create (segName (w.segmentID + 1))
    bufWriter := BufWriter.new (256 * 1024)
    currentSize := 0 }

/-- Rotation once the segment has reached its limit. -/
def rotateIfFull : Wal := if w.maxSegSize ≤ w.currentSize then w.rotateSegment else w

def errClosed : Bytes := bytesOf "wal is closed"

/-- `writeRecord`; `none` is a panic. -/
def writeRecord (op : UInt8) (payload : Bytes) : Option (Except Bytes Unit × Wal) :=
  if w.closed then some (.error errClosed, w)
  else (frame op payload).map fun buf ↦ (.ok (), (w.put buf).settle.rotateIfFull)

def writePublish (c : Codec) (msg : Message) : Option (Except Bytes Unit × Wal) :=
  w.writeRecord opPublish (c.marshal msg)

/-- The payload of an acknowledgment, `fmt.Sprintf("%s:%s:%s", topic, group, msgID)`. -/
def ackPayload (topic group msgID : Bytes) : Bytes :=
  topic ++ bytesOf ":" ++ group ++ bytesOf ":" ++ msgID

def writeAck (topic group msgID : Bytes) : Option (Except Bytes Unit × Wal) :=
  w.writeRecord opAck (ackPayload topic group msgID)

def sync : Wal := if w.closed then w else w.flush

def close : Wal := if w.closed then w else { w.flush with closed := true }

end Wal

/-! ## Replay -/

/-- The loop of `Replay` over one file, with the count and the messages delivered so far. Every
round takes at least a header off the data, so the length of the file bounds the rounds. -/
def replayLoop (c : Codec) : ℕ → Bytes → ℕ × List Message → ℕ × List Message
  | 0, _, acc => acc
  | fuel + 1, data, (count, delivered) =>
      match readRecord data with
      | none => (count, delivered)
      | some ((op, recordData), rest) =>
          if op = opPublish then
            match c.unmarshal recordData with
            | some msg => replayLoop c fuel rest (count + 1, delivered ++ [msg])
            | none => replayLoop c fuel rest (count, delivered)
          else replayLoop c fuel rest (count, delivered)

def replayFile (c : Codec) (acc : ℕ × List Message) (data : Bytes) : ℕ × List Message :=
  replayLoop c data.length data acc

/-- `Replay`: the number it returns and the messages it passes to `onPublish`, in order. -/
def replay (c : Codec) (dir : Directory) : ℕ × List Message :=
  dir.glob.foldl (fun acc file ↦ replayFile c acc (dir.content file)) (0, [])

/-! ### What a file delivers -/

/-- The message a record delivers. -/
def delivered (c : Codec) (r : UInt8 × Bytes) : Option Message :=
  if r.1 = opPublish then c.unmarshal r.2 else none

/-- The messages a file delivers. -/
def deliveredFrom (c : Codec) (data : Bytes) : List Message :=
  (recordCode.decodeAll data.length data).1.filterMap (delivered c)

theorem replayLoop_eq (c : Codec) : ∀ {fuel : ℕ} {data : Bytes} {acc : ℕ × List Message},
    replayLoop c fuel data acc
      = (acc.1 + ((recordCode.decodeAll fuel data).1.filterMap (delivered c)).length,
          acc.2 ++ (recordCode.decodeAll fuel data).1.filterMap (delivered c)) := by
  intro fuel
  induction fuel with
  | zero => intro data acc; exact Prod.ext rfl (List.append_nil _).symm
  | succ fuel ih =>
    rintro data ⟨count, done⟩
    have hdecode : recordCode.decode data = readRecord data := rfl
    rw [replayLoop, PrefixCode.decodeAll, hdecode]
    rcases readRecord data with - | ⟨⟨op, recordData⟩, rest⟩
    · exact Prod.ext rfl (List.append_nil _).symm
    · simp only [List.filterMap_cons]
      by_cases hop : op = opPublish
      · have hdel : delivered c (op, recordData) = c.unmarshal recordData := if_pos hop
        rw [if_pos hop, hdel]
        cases c.unmarshal recordData with
        | none => exact ih
        | some msg =>
          refine ih.trans (Prod.ext (Nat.add_right_comm _ _ _) ?_)
          exact List.append_assoc _ _ _
      · have hdel : delivered c (op, recordData) = none := if_neg hop
        rw [if_neg hop, hdel]
        exact ih

private theorem foldl_replayFile (c : Codec) (dir : Directory) : ∀ (files : List Bytes)
    (acc : ℕ × List Message),
    files.foldl (fun acc file ↦ replayFile c acc (dir.content file)) acc
      = (acc.1 + (files.flatMap fun file ↦ deliveredFrom c (dir.content file)).length,
          acc.2 ++ files.flatMap fun file ↦ deliveredFrom c (dir.content file)) := by
  intro files
  induction files with
  | nil => intro acc; exact Prod.ext rfl (List.append_nil _).symm
  | cons file files ih =>
    intro acc
    rw [List.foldl_cons, ih, replayFile, replayLoop_eq, List.flatMap_cons, List.length_append,
      Nat.add_assoc, List.append_assoc]
    rfl

/-- **`Replay`** goes through the files in the order of their names, and counts what it delivers. -/
theorem replay_eq (c : Codec) (dir : Directory) :
    replay c dir = ((dir.glob.flatMap fun file ↦ deliveredFrom c (dir.content file)).length,
      dir.glob.flatMap fun file ↦ deliveredFrom c (dir.content file)) := by
  rw [replay, foldl_replayFile, Nat.zero_add, List.nil_append]

theorem deliveredFrom_encodeAll_append (c : Codec) (rs : List Record) {torn : Bytes}
    (htorn : readRecord torn = none) :
    deliveredFrom c (recordCode.encodeAll rs ++ torn)
      = rs.filterMap fun r ↦ delivered c (r.op, r.payload) := by
  have hlen : rs.length ≤ (recordCode.encodeAll rs ++ torn).length := by
    rw [List.length_append]
    exact (recordCode.length_le_length_encodeAll rs).trans (Nat.le_add_right _ _)
  rw [deliveredFrom, recordCode.decodeAll_encodeAll_append htorn hlen, List.filterMap_map]
  rfl

theorem deliveredFrom_encodeAll (c : Codec) (rs : List Record) :
    deliveredFrom c (recordCode.encodeAll rs)
      = rs.filterMap fun r ↦ delivered c (r.op, r.payload) := by
  have hnil : readRecord [] = none := rfl
  have h := deliveredFrom_encodeAll_append c rs hnil
  rwa [List.append_nil] at h

end VortexMQ
