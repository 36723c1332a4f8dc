import VortexMQ.Bufio.Writer
import VortexMQ.Coding.Decimal

/-!
# Writing replies

The `Writer` of `internal/protocol/resp.go`: each method is a few writes to a `bufio.Writer`. The
connection accepts everything, so what the methods come to is the bytes they add to `stream`, that
is to what has been passed on followed by what is still in the buffer.
-/

namespace VortexMQ

/-! ## Constants -/

namespace Resp

def crlf : Bytes := [13, 10]

def nullBulk : Bytes := bytesOf "$-1\r\n"

def emptyArray : Bytes := bytesOf "*0\r\n"

def pong : Bytes := bytesOf "+PONG\r\n"

def ok : Bytes := bytesOf "+OK\r\n"

end Resp

/-! ## The writer -/

structure Writer where
  /-- What the connection has received. -/
  sent : Bytes
  w : BufWriter

namespace Writer

/-- `NewWriter`. -/
def new : Writer := ⟨[], BufWriter.new (64 * 1024)⟩

/-- Pass on what an operation of the buffered writer passes on. -/
def pass (w : Writer) (r : Bytes × BufWriter) : Writer := ⟨w.sent ++ r.1, r.2⟩

def write (w : Writer) (p : Bytes) : Writer := w.pass (w.w.write p)

def writeString (w : Writer) (s : Bytes) : Writer := w.pass (w.w.writeString s)

def writeByte (w : Writer) (c : UInt8) : Writer := w.pass (w.w.writeByte c)

def flush (w : Writer) : Writer := w.pass w.w.flush

def writeError (w : Writer) (msg : Bytes) : Writer :=
  ((w.writeString (bytesOf "-ERR ")).writeString msg).write Resp.crlf

def writeInteger (w : Writer) (n : ℤ) : Writer :=
  ((w.writeByte 58).writeString (Decimal.ofInt n)).write Resp.crlf

def writeBulkString (w : Writer) : Option Bytes → Writer
  | none => w.write Resp.nullBulk
  | some b =>
      ((((w.writeByte 36).writeString (Decimal.ofNat b.length)).write Resp.crlf).write b).write
        Resp.crlf

def writeArray (w : Writer) : Option (List (Option Bytes)) → Writer
  | none => w.write Resp.emptyArray
  | some elements =>
      elements.foldl writeBulkString
        (((w.writeByte 42).writeString (Decimal.ofNat elements.length)).write Resp.crlf)

def writeRaw (w : Writer) (data : Bytes) : Writer := w.write data

/-! ## What is written -/

/-- Everything written so far. -/
def stream (w : Writer) : Bytes := w.sent ++ w.w.buf

theorem stream_pass {w : Writer} {p : Bytes} {r : Bytes × BufWriter} (h : w.w.Appends p r) :
    (w.pass r).stream = w.stream ++ p := by
  change (w.sent ++ r.1) ++ r.2.buf = (w.sent ++ w.w.buf) ++ p
  rw [List.append_assoc, h.bytes, List.append_assoc]

@[simp] theorem stream_write (w : Writer) (p : Bytes) : (w.write p).stream = w.stream ++ p :=
  stream_pass (w.w.appends_write p)

@[simp] theorem stream_writeString (w : Writer) (s : Bytes) :
    (w.writeString s).stream = w.stream ++ s :=
  stream_pass (w.w.appends_writeString s)

@[simp] theorem stream_writeByte (w : Writer) (c : UInt8) :
    (w.writeByte c).stream = w.stream ++ [c] :=
  stream_pass (w.w.appends_writeByte c)

@[simp] theorem stream_flush (w : Writer) : w.flush.stream = w.stream :=
  (stream_pass BufWriter.appends_flush).trans (List.append_nil _)

theorem size_pass {w : Writer} {p : Bytes} {r : Bytes × BufWriter} (h : w.w.Appends p r) :
    (w.pass r).w.size = w.w.size := h.size

end Writer

namespace Resp

/-- The bytes of `WriteBulkString`. -/
def bulkBytes : Option Bytes → Bytes
  | none => nullBulk
  | some b => 36 :: Decimal.ofNat b.length ++ crlf ++ b ++ crlf

/-- The bytes of `WriteArray`. -/
def arrayBytes (elements : List (Option Bytes)) : Bytes :=
  42 :: Decimal.ofNat elements.length ++ crlf ++ elements.flatMap bulkBytes

/-- The bytes of `WriteError`. -/
def errorBytes (msg : Bytes) : Bytes := bytesOf "-ERR " ++ msg ++ crlf

/-- The bytes of `WriteInteger`. -/
def integerBytes (n : ℤ) : Bytes := 58 :: Decimal.ofInt n ++ crlf

end Resp

namespace Writer

theorem stream_writeError (w : Writer) (msg : Bytes) :
    (w.writeError msg).stream = w.stream ++ Resp.errorBytes msg := by
  rw [writeError, stream_write, stream_writeString, stream_writeString, Resp.errorBytes,
    List.append_assoc, List.append_assoc, List.append_assoc]

theorem stream_writeInteger (w : Writer) (n : ℤ) :
    (w.writeInteger n).stream = w.stream ++ Resp.integerBytes n := by
  rw [writeInteger, stream_write, stream_writeString, stream_writeByte, Resp.integerBytes,
    List.append_assoc, List.append_assoc]
  rfl

theorem stream_writeBulkString (w : Writer) (b : Option Bytes) :
    (w.writeBulkString b).stream = w.stream ++ Resp.bulkBytes b := by
  cases b with
  | none => exact w.stream_write _
  | some b =>
    rw [writeBulkString, stream_write, stream_write, stream_write, stream_writeString,
      stream_writeByte, Resp.bulkBytes]
    simp only [List.append_assoc, List.cons_append, List.nil_append]

private theorem stream_foldl_writeBulkString : ∀ (elements : List (Option Bytes)) (w : Writer),
    (elements.foldl writeBulkString w).stream
      = w.stream ++ elements.flatMap Resp.bulkBytes := by
  intro elements
  induction elements with
  | nil => intro w; exact (List.append_nil _).symm
  | cons b elements ih =>
    intro w
    rw [List.foldl_cons, ih, stream_writeBulkString, List.flatMap_cons, List.append_assoc]

/-- **`WriteArray`** adds the number of elements and the elements. -/
theorem stream_writeArray (w : Writer) (elements : List (Option Bytes)) :
    (w.writeArray (some elements)).stream = w.stream ++ Resp.arrayBytes elements := by
  rw [writeArray, stream_foldl_writeBulkString, stream_write, stream_writeString,
    stream_writeByte, Resp.arrayBytes]
  simp only [List.append_assoc, List.cons_append, List.nil_append]

/-! ## What stays in the buffer -/

/-- Nothing is sent between two states of a writer, if everything fits into the buffer. -/
structure Keeps (w w' : Writer) : Prop where
  size : w'.w.size = w.w.size
  stream : w.stream <+: w'.stream
  sent : w.sent = [] → w'.stream.length ≤ w.w.size → w'.sent = []

theorem Keeps.trans {w w' w'' : Writer} (h : w.Keeps w') (h' : w'.Keeps w'') : w.Keeps w'' where
  size := h'.size.trans h.size
  stream := h.stream.trans h'.stream
  sent hsent hlen :=
    h'.sent (h.sent hsent (h'.stream.length_le.trans hlen)) (hlen.trans_eq h.size.symm)

theorem keeps_pass {w : Writer} {p : Bytes} {r : Bytes × BufWriter} (h : w.w.Appends p r)
    (hfits : p.length ≤ w.w.available → r.1 = []) : w.Keeps (w.pass r) where
  size := size_pass h
  stream := by
    rw [stream_pass h]
    exact List.prefix_append _ _
  sent hsent hlen := by
    have hroom : p.length ≤ w.w.available := by
      rw [stream_pass h, stream, hsent, List.nil_append, List.length_append] at hlen
      rw [BufWriter.available]
      omega
    rw [pass, hsent, hfits hroom]
    rfl

variable (w : Writer)

theorem keeps_write (p : Bytes) : w.Keeps (w.write p) :=
  keeps_pass (w.w.appends_write p) BufWriter.fst_write_of_le

theorem keeps_writeString (s : Bytes) : w.Keeps (w.writeString s) :=
  keeps_pass (w.w.appends_writeString s) BufWriter.fst_writeString_of_le

theorem keeps_writeByte (c : UInt8) : w.Keeps (w.writeByte c) :=
  keeps_pass (w.w.appends_writeByte c) BufWriter.fst_writeByte_of_le

theorem keeps_writeBulkString (b : Option Bytes) : w.Keeps (w.writeBulkString b) := by
  cases b with
  | none => exact w.keeps_write _
  | some b =>
    exact ((((w.keeps_writeByte _).trans (keeps_writeString _ _)).trans (keeps_write _ _)).trans
      (keeps_write _ _)).trans (keeps_write _ _)

private theorem keeps_foldl_writeBulkString : ∀ (elements : List (Option Bytes)) (w : Writer),
    w.Keeps (elements.foldl writeBulkString w) := by
  intro elements
  induction elements with
  | nil => exact fun w ↦ ⟨rfl, List.prefix_rfl, fun hsent _ ↦ hsent⟩
  | cons b elements ih => exact fun w ↦ (w.keeps_writeBulkString b).trans (ih _)

theorem keeps_writeArray (elements : List (Option Bytes)) :
    w.Keeps (w.writeArray (some elements)) :=
  (((w.keeps_writeByte _).trans (keeps_writeString _ _)).trans (keeps_write _ _)).trans
    (keeps_foldl_writeBulkString elements _)

theorem sent_writeArray_new {elements : List (Option Bytes)}
    (h : (Resp.arrayBytes elements).length ≤ 64 * 1024) :
    (new.writeArray (some elements)).sent = [] := by
  refine (new.keeps_writeArray elements).sent rfl ?_
  rw [stream_writeArray]
  exact h

end Writer

end VortexMQ
