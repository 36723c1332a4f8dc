import VortexMQ.Bufio.Writer

/-!
# Buffered writing to a destination that fails

The `bufio.Writer` once more, over a destination whose `Write` may fail after any number of bytes.
The writer remembers the first error and does nothing from then on; that is the library's documented
behaviour.

How the calls of the destination end is given by a function of their number, counted from the start
of the operation. An operation reports how many calls it has made, so that the next one can go on
counting.
-/

namespace VortexMQ

/-- How a write call ends: well, or after so many bytes with an error. -/
abbrev Outcome := Option (ℕ × Bytes)

/-- `bufio.Writer` with its `err` field. -/
structure FaultyWriter where
  buffer : BufWriter
  err : Option Bytes

/-- What an operation leaves behind. -/
structure FaultyWriter.Result where
  /-- The bytes that have reached the destination. -/
  passed : Bytes
  writer : FaultyWriter
  /-- Calls of the destination's `Write`. -/
  calls : ℕ

namespace FaultyWriter

/-- `NewWriterSize`. -/
def new (size : ℕ) : FaultyWriter := ⟨BufWriter.new size, none⟩

variable (f : FaultyWriter)

/-- The buffer without its first `n` bytes. -/
def dropped (w : BufWriter) (n : ℕ) : BufWriter :=
  { w with
    buf := w.buf.drop n
    length_buf_le := by
      rw [List.length_drop]
      exact (Nat.sub_le _ _).trans w.length_buf_le }

/-- `Flush`. What a failing call has not written stays in the buffer. -/
def flush (o : Outcome) : Result :=
  if f.err.isSome ∨ f.buffer.buf = [] then ⟨[], f, 0⟩
  else
    match o with
    | none => ⟨f.buffer.buf, { f with buffer := f.buffer.emptied }, 1⟩
    | some (n, err) => ⟨f.buffer.buf.take n, ⟨dropped f.buffer n, some err⟩, 1⟩

/-- The loop of `Write`, with the bytes passed on and the calls made so far, and the bytes that are
left. A round that fails is the last. -/
def writeLoop (o : ℕ → Outcome) : ℕ → FaultyWriter → Bytes → Bytes → ℕ → Result × Bytes
  | 0, f, p, sent, calls => (⟨sent, f, calls⟩, p)
  | fuel + 1, f, p, sent, calls =>
      if f.buffer.available < p.length ∧ f.err = none then
        if f.buffer.buf = [] then
          match o calls with
          | none => writeLoop o fuel f [] (sent ++ p) (calls + 1)
          | some (n, err) =>
              writeLoop o fuel { f with err := some err } (p.drop n) (sent ++ p.take n) (calls + 1)
        else
          let r := { f with buffer := f.buffer.fill p }.flush (o calls)
          writeLoop o fuel r.writer (p.drop f.buffer.available) (sent ++ r.passed) (calls + r.calls)
      else (⟨sent, f, calls⟩, p)

/-- `Write`. It returns the error of the writer it leaves behind. -/
def write (o : ℕ → Outcome) (p : Bytes) : Result :=
  let r := writeLoop o 2 f p [] 0
  if r.1.writer.err.isSome then r.1
  else { r.1 with writer := { r.1.writer with buffer := r.1.writer.buffer.fill r.2 } }

variable {f} {o : ℕ → Outcome} {p : Bytes}

/-- **The error is sticky.** -/
theorem write_of_err {err : Bytes} (h : f.err = some err) (o : ℕ → Outcome) (p : Bytes) :
    f.write o p = ⟨[], f, 0⟩ := by
  have hloop : writeLoop o 2 f p [] 0 = (⟨[], f, 0⟩, p) := by
    rw [writeLoop, if_neg (by simp [h])]
  rw [write, hloop]
  simp [h]

theorem write_of_fits (herr : f.err = none) (hbuf : f.buffer.buf = [])
    (hp : p.length ≤ f.buffer.size) :
    f.write o p = ⟨[], { f with buffer := f.buffer.fill p }, 0⟩ := by
  have hfits : ¬f.buffer.available < p.length := by
    rw [BufWriter.available, hbuf, List.length_nil, Nat.sub_zero]
    exact Nat.not_lt.mpr hp
  have hloop : writeLoop o 2 f p [] 0 = (⟨[], f, 0⟩, p) := by
    rw [writeLoop, if_neg (fun h ↦ hfits h.1)]
  rw [write, hloop]
  simp [herr]

private theorem fill_nil (w : BufWriter) : w.fill [] = w := by
  obtain ⟨size, buf, hpos, hle⟩ := w
  simp [BufWriter.fill]

theorem write_of_not_fits (herr : f.err = none) (hbuf : f.buffer.buf = [])
    (hp : f.buffer.size < p.length) :
    f.write o p = match o 0 with
      | none => ⟨p, f, 1⟩
      | some (n, err) => ⟨p.take n, { f with err := some err }, 1⟩ := by
  have hlong : f.buffer.available < p.length := by
    rw [BufWriter.available, hbuf, List.length_nil, Nat.sub_zero]
    exact hp
  have hloop : writeLoop o 2 f p [] 0 = match o 0 with
      | none => (⟨p, f, 1⟩, [])
      | some (n, err) => (⟨p.take n, { f with err := some err }, 1⟩, p.drop n) := by
    rw [writeLoop, if_pos ⟨hlong, herr⟩, if_pos hbuf]
    cases o 0 with
    | none =>
      simp only [List.nil_append, Nat.zero_add]
      rw [writeLoop, if_neg (fun h ↦ Nat.not_lt_zero _ h.1)]
    | some failure =>
      simp only [List.nil_append, Nat.zero_add]
      rw [writeLoop, if_neg (by simp)]
  rw [write, hloop]
  cases o 0 with
  | none =>
    have hnone : ¬f.err.isSome = true := by simp [herr]
    simp only [hnone, fill_nil]
    rfl
  | some failure => rfl

theorem flush_of_empty (h : f.buffer.buf = []) (o : Outcome) : f.flush o = ⟨[], f, 0⟩ :=
  if_pos (Or.inr h)

theorem flush_of_err {err : Bytes} (h : f.err = some err) (o : Outcome) : f.flush o = ⟨[], f, 0⟩ :=
  if_pos (Or.inl (by simp [h]))

theorem flush_of_none (herr : f.err = none) (hbuf : f.buffer.buf ≠ []) :
    f.flush none = ⟨f.buffer.buf, { f with buffer := f.buffer.emptied }, 1⟩ :=
  if_neg (by simp [herr, hbuf])

theorem flush_of_some (herr : f.err = none) (hbuf : f.buffer.buf ≠ []) (n : ℕ) (err : Bytes) :
    f.flush (some (n, err)) = ⟨f.buffer.buf.take n, ⟨dropped f.buffer n, some err⟩, 1⟩ :=
  if_neg (by simp [herr, hbuf])

end FaultyWriter

end VortexMQ
