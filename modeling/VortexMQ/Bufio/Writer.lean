import VortexMQ.Basic.Bytes

/-!
# Buffered writing

The `bufio.Writer` of the Go library, over a destination that accepts everything. An operation
returns the bytes it passed on to the destination together with the writer it leaves behind; the
destination itself belongs to the user of the writer.

Whatever route the bytes take, those passed on followed by those still buffered are the old buffer
followed by what was written. This is `Appends`, and nearly everything about the writer follows
from it.
-/

namespace VortexMQ

/-- `bufio.Writer`; `buf` is the filled part `b.buf[:b.n]` of the buffer. -/
structure BufWriter where
  size : ℕ
  buf : Bytes
  size_pos : 0 < size
  length_buf_le : buf.length ≤ size

namespace BufWriter

/-- `NewWriterSize`, which falls back to 4096 for a size that is not positive. -/
def new (size : ℕ) : BufWriter where
  size := if size = 0 then 4096 else size
  buf := []
  size_pos := by split <;> omega
  length_buf_le := Nat.zero_le _

variable (w : BufWriter)

def buffered : ℕ := w.buf.length

def available : ℕ := w.size - w.buf.length

/-- The writer with an empty buffer. -/
def emptied : BufWriter := { w with buf := [], length_buf_le := Nat.zero_le _ }

/-- `copy(b.buf[b.n:], p)`: as much of `p` as fits. -/
def fill (p : Bytes) : BufWriter :=
  { w with
    buf := w.buf ++ p.take w.available
    length_buf_le := by
      have := w.length_buf_le
      rw [List.length_append, List.length_take, available]
      omega }

def flush : Bytes × BufWriter := (w.buf, w.emptied)

/-- The loop of `Write`, with the bytes passed on so far in `sent`. Each round either passes all of
`p` on or empties the buffer, so two rounds are enough. -/
def writeLoop : ℕ → BufWriter → Bytes → Bytes → Bytes × BufWriter × Bytes
  | 0, w, p, sent => (sent, w, p)
  | fuel + 1, w, p, sent =>
      if w.available < p.length then
        if w.buf = [] then writeLoop fuel w [] (sent ++ p)
        else writeLoop fuel w.emptied (p.drop w.available) (sent ++ (w.fill p).buf)
      else (sent, w, p)

def write (p : Bytes) : Bytes × BufWriter :=
  let r := writeLoop 2 w p []
  (r.1, r.2.1.fill r.2.2)

/-- The loop of `WriteString`, for a destination that is not an `io.StringWriter`: fill the buffer
and flush, for as long as the string does not fit. -/
def writeStringLoop : ℕ → BufWriter → Bytes → Bytes → Bytes × BufWriter × Bytes
  | 0, w, s, sent => (sent, w, s)
  | fuel + 1, w, s, sent =>
      if w.available < s.length then
        writeStringLoop fuel w.emptied (s.drop w.available) (sent ++ (w.fill s).buf)
      else (sent, w, s)

/-- `WriteString`. The first round may find the buffer full, every further one takes at least one
byte. -/
def writeString (s : Bytes) : Bytes × BufWriter :=
  let r := writeStringLoop (s.length + 1) w s []
  (r.1, r.2.1.fill r.2.2)

def writeByte (c : UInt8) : Bytes × BufWriter :=
  if w.available = 0 then (w.buf, w.emptied.fill [c]) else ([], w.fill [c])

/-! ## What an operation does -/

/-- `r` is the result of writing `p` with `w`. -/
structure Appends (w : BufWriter) (p : Bytes) (r : Bytes × BufWriter) : Prop where
  bytes : r.1 ++ r.2.buf = w.buf ++ p
  size : r.2.size = w.size

variable {w} {p q : Bytes}

theorem appends_flush : w.Appends [] w.flush := ⟨rfl, rfl⟩

theorem buf_fill (h : p.length ≤ w.available) : (w.fill p).buf = w.buf ++ p :=
  congrArg (w.buf ++ ·) (List.take_of_length_le h)

@[simp] theorem available_emptied : w.emptied.available = w.size := rfl

/-- The state of a writing loop: what has gone where so far, and what is left. -/
structure Progress (w : BufWriter) (p : Bytes) (r : Bytes × BufWriter × Bytes) : Prop where
  bytes : r.1 ++ r.2.1.buf ++ r.2.2 = w.buf ++ p
  size : r.2.1.size = w.size

theorem Progress.appends {r : Bytes × BufWriter × Bytes} (h : Progress w p r)
    (hfits : r.2.2.length ≤ r.2.1.available) : w.Appends p (r.1, r.2.1.fill r.2.2) := by
  refine ⟨?_, h.size⟩
  rw [buf_fill hfits, ← List.append_assoc]
  exact h.bytes

private theorem fill_round {sent : Bytes} :
    sent ++ (w.fill p).buf ++ w.emptied.buf ++ p.drop w.available = sent ++ w.buf ++ p := by
  change sent ++ (w.buf ++ p.take w.available) ++ [] ++ p.drop w.available = _
  rw [List.append_nil, List.append_assoc, List.append_assoc, List.take_append_drop,
    ← List.append_assoc]

private theorem writeLoop_bytes : ∀ {fuel : ℕ} {w : BufWriter} {p sent : Bytes},
    (writeLoop fuel w p sent).1 ++ (writeLoop fuel w p sent).2.1.buf
        ++ (writeLoop fuel w p sent).2.2 = sent ++ w.buf ++ p ∧
      (writeLoop fuel w p sent).2.1.size = w.size := by
  intro fuel
  induction fuel with
  | zero => intro w p sent; exact ⟨rfl, rfl⟩
  | succ fuel ih =>
    intro w p sent
    rw [writeLoop]
    split
    · split
      · rename_i hbuf
        refine ⟨(ih).1.trans ?_, (ih).2⟩
        rw [hbuf, List.append_nil, List.append_nil, List.append_nil]
      · exact ⟨(ih).1.trans fill_round, (ih).2⟩
    · exact ⟨rfl, rfl⟩

private theorem writeLoop_fits (w : BufWriter) (p : Bytes) :
    (writeLoop 2 w p []).2.2.length ≤ (writeLoop 2 w p []).2.1.available := by
  by_cases hfits : w.available < p.length
  · by_cases hbuf : w.buf = []
    · simp [writeLoop, hfits, hbuf]
    · rw [writeLoop, if_pos hfits, if_neg hbuf, writeLoop]
      split
      · rw [if_pos (by rfl)]
        exact Nat.zero_le _
      · rename_i h
        exact Nat.not_lt.mp h
  · rw [writeLoop, if_neg hfits]
    exact Nat.not_lt.mp hfits

/-- **`Write`** neither loses nor reorders anything. -/
theorem appends_write (w : BufWriter) (p : Bytes) : w.Appends p (w.write p) :=
  Progress.appends ⟨writeLoop_bytes.1, writeLoop_bytes.2⟩ (writeLoop_fits w p)

private theorem writeStringLoop_bytes : ∀ {fuel : ℕ} {w : BufWriter} {s sent : Bytes},
    (writeStringLoop fuel w s sent).1 ++ (writeStringLoop fuel w s sent).2.1.buf
        ++ (writeStringLoop fuel w s sent).2.2 = sent ++ w.buf ++ s ∧
      (writeStringLoop fuel w s sent).2.1.size = w.size := by
  intro fuel
  induction fuel with
  | zero => intro w s sent; exact ⟨rfl, rfl⟩
  | succ fuel ih =>
    intro w s sent
    rw [writeStringLoop]
    split
    · exact ⟨(ih).1.trans fill_round, (ih).2⟩
    · exact ⟨rfl, rfl⟩

private theorem writeStringLoop_fits_of_empty : ∀ {fuel : ℕ} {w : BufWriter} {s sent : Bytes},
    w.buf = [] → s.length ≤ fuel →
      (writeStringLoop fuel w s sent).2.2.length
        ≤ (writeStringLoop fuel w s sent).2.1.available := by
  intro fuel
  induction fuel with
  | zero =>
    intro w s sent _ hs
    exact hs.trans (Nat.zero_le _)
  | succ fuel ih =>
    intro w s sent hbuf hs
    rw [writeStringLoop]
    split
    · refine ih rfl ?_
      have hpos := w.size_pos
      rw [List.length_drop, available, hbuf, List.length_nil]
      omega
    · rename_i h
      exact Nat.not_lt.mp h

theorem appends_writeString (w : BufWriter) (s : Bytes) : w.Appends s (w.writeString s) := by
  refine Progress.appends ⟨writeStringLoop_bytes.1, writeStringLoop_bytes.2⟩ ?_
  rw [writeStringLoop]
  split
  · exact writeStringLoop_fits_of_empty rfl (by rw [List.length_drop]; exact Nat.sub_le _ _)
  · rename_i h
    exact Nat.not_lt.mp h

theorem appends_writeByte (w : BufWriter) (c : UInt8) : w.Appends [c] (w.writeByte c) := by
  rw [writeByte]
  split
  · refine ⟨?_, rfl⟩
    rw [buf_fill (w := w.emptied) (p := [c]) w.size_pos]
    rfl
  · rename_i h
    refine ⟨?_, rfl⟩
    rw [buf_fill (p := [c]) (Nat.one_le_iff_ne_zero.mpr h)]
    rfl

/-- Something short has just been written, so there is something to flush. -/
theorem buf_write_ne_nil (hp : p ≠ []) (hlen : p.length ≤ w.size) : (w.write p).2.buf ≠ [] := by
  have hpos : 0 < p.length := List.length_pos_iff.mpr hp
  rw [write]
  by_cases hfits : w.available < p.length
  · have hbuf : w.buf ≠ [] := by
      intro hnil
      rw [available, hnil] at hfits
      exact absurd hlen (Nat.not_le.mpr hfits)
    have hrest : (p.drop w.available).length ≤ w.emptied.available := by
      rw [List.length_drop, available_emptied]
      omega
    rw [writeLoop, if_pos hfits, if_neg hbuf, writeLoop, if_neg (Nat.not_lt.mpr hrest)]
    rw [buf_fill hrest]
    intro hnil
    have hlen' := congrArg List.length hnil
    rw [List.length_append, List.length_drop, List.length_nil] at hlen'
    omega
  · rw [writeLoop, if_neg hfits, buf_fill (Nat.not_lt.mp hfits)]
    exact List.append_ne_nil_of_right_ne_nil _ hp

theorem fst_write_of_le (h : p.length ≤ w.available) : (w.write p).1 = [] := by
  rw [write, writeLoop, if_neg (Nat.not_lt.mpr h)]

theorem fst_writeString_of_le (h : p.length ≤ w.available) : (w.writeString p).1 = [] := by
  rw [writeString, writeStringLoop, if_neg (Nat.not_lt.mpr h)]

theorem fst_writeByte_of_le {c : UInt8} (h : 1 ≤ w.available) : (w.writeByte c).1 = [] := by
  rw [writeByte, if_neg (Nat.ne_zero_of_lt h)]

end BufWriter

end VortexMQ
