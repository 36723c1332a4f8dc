import VortexMQ.Bufio.Stream

/-!
# A buffered reader and its views

The `bufio.Reader` of the Go library: a buffer of a fixed size, with two positions between which
stand the bytes that have been received and not read. When more are needed, the unread bytes are
moved to the front of the buffer and the connection is read into the space behind them.

`ReadLine` copies nothing. The line is a view of the buffer, and what the view shows changes when
the buffer is written to. At the moment it is returned it shows the right bytes: however the input
arrives, the reader agrees with `Stream.readLine` on the stream as a whole.
-/

namespace VortexMQ

/-! ## Memory -/

/-- The bytes at the positions of a buffer. -/
abbrev Memory := ℕ → UInt8

namespace Memory

variable (m : Memory)

/-- The slice of `len` bytes from position `off`. -/
def read (off len : ℕ) : Bytes := (List.range len).map fun i ↦ m (off + i)

/-- `copy` to position `off`. -/
def write (off : ℕ) (data : Bytes) : Memory :=
  fun i ↦ if i < off then m i else (data[i - off]?).getD (m i)

@[simp] theorem length_read (off len : ℕ) : (m.read off len).length = len := by
  rw [read, List.length_map, List.length_range]

private theorem getElem_read (off len : ℕ) {i : ℕ} (h : i < (m.read off len).length) :
    (m.read off len)[i] = m (off + i) := by
  simp only [read, List.getElem_map, List.getElem_range]

theorem read_add (off a b : ℕ) : m.read off (a + b) = m.read off a ++ m.read (off + a) b := by
  simp only [read, List.range_add, List.map_append, List.map_map]
  congr 1
  exact List.map_congr_left fun i _ ↦ congrArg m (Nat.add_assoc off a i).symm

theorem take_read {n len : ℕ} (off : ℕ) (h : n ≤ len) :
    (m.read off len).take n = m.read off n := by
  obtain ⟨k, rfl⟩ := Nat.exists_eq_add_of_le h
  rw [read_add, List.take_left' (m.length_read off n)]

theorem drop_read {n len : ℕ} (off : ℕ) (h : n ≤ len) :
    (m.read off len).drop n = m.read (off + n) (len - n) := by
  obtain ⟨k, rfl⟩ := Nat.exists_eq_add_of_le h
  rw [read_add, List.drop_left' (m.length_read off n), Nat.add_sub_cancel_left]

theorem read_slice {a b len : ℕ} (off : ℕ) (h : b ≤ len) :
    ((m.read off len).drop a).take (b - a) = m.read (off + a) (b - a) := by
  by_cases ha : a ≤ len
  · rw [drop_read m off ha, take_read m _ (Nat.sub_le_sub_right h a)]
  · have hempty : b - a = 0 := by omega
    rw [hempty, List.take_zero]
    rfl

variable {m}

/-- **Frame.** A slice that does not meet the positions written stays as it is. -/
theorem read_write_of_disjoint {start off len : ℕ} {data : Bytes}
    (h : off + len ≤ start ∨ start + data.length ≤ off) :
    (m.write start data).read off len = m.read off len := by
  refine List.map_congr_left fun i hi ↦ ?_
  have hi' := List.mem_range.mp hi
  rw [write]
  split
  · rfl
  · have hnone : data[off + i - start]? = none := List.getElem?_eq_none (by omega)
    rw [hnone, Option.getD_none]

theorem read_write_self (off : ℕ) (data : Bytes) :
    (m.write off data).read off data.length = data := by
  refine List.ext_getElem (length_read _ _ _) fun i _ hi ↦ ?_
  rw [getElem_read, write, if_neg (by omega), Nat.add_sub_cancel_left,
    List.getElem?_eq_getElem hi, Option.getD_some]

end Memory

/-! ## The reader -/

/-- A reader with a buffer of `size` bytes. The bytes from `r` to `w` are unread. -/
structure BufReader (size : ℕ) where
  buf : Memory
  r : ℕ
  w : ℕ
  r_le : r ≤ w
  w_le : w ≤ size

/-- A slice of the buffer. -/
structure View where
  off : ℕ
  len : ℕ
  deriving DecidableEq

namespace BufReader

variable {size : ℕ} (b : BufReader size)

/-- `NewReaderSize`. -/
def new : BufReader size := ⟨fun _ ↦ 0, 0, 0, le_rfl, Nat.zero_le _⟩

def buffered : ℕ := b.w - b.r

def unread : Bytes := b.buf.read b.r b.buffered

def view (v : View) : Bytes := b.buf.read v.off v.len

/-- Advance `r`, though not beyond `w`. -/
def skip (n : ℕ) : BufReader size :=
  { b with r := min (b.r + n) b.w, r_le := min_le_right _ _ }

/-- The beginning of `fill`: slide the unread bytes to the front of the buffer. -/
def slide : BufReader size :=
  if b.r = 0 then b
  else
    { buf := b.buf.write 0 b.unread
      r := 0
      w := b.buffered
      r_le := Nat.zero_le _
      w_le := (Nat.sub_le _ _).trans b.w_le }

/-- How many bytes at the front are written by that. -/
def slid : ℕ := if b.r = 0 then 0 else b.buffered

/-- A `Read` of the connection has put bytes into the space behind `w`. -/
def receive (data : Bytes) (h : b.w + data.length ≤ size) : BufReader size where
  buf := b.buf.write b.w data
  r := b.r
  w := b.w + data.length
  r_le := b.r_le.trans (Nat.le_add_right _ _)
  w_le := h

/-- `ReadLine`, unless it has to `fill` the buffer first: a view of a line, or of a piece of one,
and whether there is more of it. -/
def readLine : Option ((View × Bool) × BufReader size) :=
  if 10 ∈ b.unread then
    some ((⟨b.r, (Stream.dropCR (Stream.untilLF b.unread)).length⟩, false),
      b.skip ((Stream.untilLF b.unread).length + 1))
  else if size ≤ b.buffered then
    if b.unread.getLast? = some 13 then
      some ((⟨b.r, b.buffered - 1⟩, true), b.skip (b.buffered - 1))
    else some ((⟨b.r, b.buffered⟩, true), b.skip b.buffered)
  else none

/-! ## What is unread -/

@[simp] theorem length_unread : b.unread.length = b.buffered := Memory.length_read _ _ _

private theorem buffered_le : b.buffered ≤ size := (Nat.sub_le _ _).trans b.w_le

theorem unread_skip (n : ℕ) : (b.skip n).unread = b.unread.drop n := by
  have hr := b.r_le
  change b.buf.read (min (b.r + n) b.w) (b.w - min (b.r + n) b.w) = b.unread.drop n
  by_cases hn : n ≤ b.buffered
  · have hmin : min (b.r + n) b.w = b.r + n := min_eq_left (by rw [buffered] at hn; omega)
    have hlen : b.w - (b.r + n) = b.buffered - n := Nat.sub_add_eq _ _ _
    rw [hmin, hlen, unread, Memory.drop_read _ _ hn]
  · have hmin : min (b.r + n) b.w = b.w := min_eq_right (by rw [buffered] at hn; omega)
    rw [hmin, Nat.sub_self, List.drop_of_length_le (by rw [length_unread]; omega)]
    rfl

@[simp] theorem unread_slide : b.slide.unread = b.unread := by
  rw [slide]
  split
  · rfl
  · have hself := Memory.read_write_self (m := b.buf) 0 b.unread
    rw [length_unread] at hself
    exact hself

theorem buffered_slide : b.slide.buffered = b.buffered := by
  rw [← length_unread, unread_slide, length_unread]

theorem unread_receive (data : Bytes) (h : b.w + data.length ≤ size) :
    (b.receive data h).unread = b.unread ++ data := by
  have hr := b.r_le
  have hlen : b.w + data.length - b.r = b.buffered + data.length := by rw [buffered]; omega
  have hend : b.r + b.buffered = b.w := Nat.add_sub_of_le hr
  rw [unread, buffered, receive, hlen, Memory.read_add, hend, Memory.read_write_self,
    Memory.read_write_of_disjoint (Or.inl hend.le)]
  rfl

theorem view_slide {v : View} (h : b.slid ≤ v.off) : b.slide.view v = b.view v := by
  rw [slide]
  split
  · rfl
  · rename_i hr
    rw [slid, if_neg hr, ← length_unread, ← Nat.zero_add b.unread.length] at h
    exact Memory.read_write_of_disjoint (Or.inr h)

theorem view_receive {v : View} {data : Bytes} (hroom : b.w + data.length ≤ size)
    (h : v.off + v.len ≤ b.w ∨ b.w + data.length ≤ v.off) :
    (b.receive data hroom).view v = b.view v := Memory.read_write_of_disjoint h

/-! ## Lines -/

theorem view_of_prefix {line : Bytes} (h : line <+: b.unread) :
    b.view ⟨b.r, line.length⟩ = line := by
  have hlen : line.length ≤ b.buffered := by
    rw [← length_unread]
    exact h.length_le
  rw [List.prefix_iff_eq_take.mp h, view, unread, Memory.take_read _ _ hlen]
  simp only [Memory.length_read]

end BufReader

namespace Stream

theorem isPrefix_untilLF (s : Bytes) : untilLF s <+: s := List.takeWhile_prefix _

theorem isPrefix_dropCR (line : Bytes) : dropCR line <+: line := by
  rw [dropCR]
  split
  · exact List.dropLast_prefix line
  · exact List.prefix_rfl

theorem length_untilLF_lt {s : Bytes} (h : 10 ∈ s) : (untilLF s).length < s.length := by
  refine lt_of_le_of_ne (isPrefix_untilLF s).length_le fun hlen ↦ ?_
  have hall : 10 ∈ untilLF s := (List.IsPrefix.eq_of_length (isPrefix_untilLF s) hlen).symm ▸ h
  have hne := List.mem_takeWhile_imp (p := fun b ↦ decide (b ≠ 10)) hall
  exact absurd rfl (of_decide_eq_true hne)

private theorem untilLF_append_of_mem {s : Bytes} (h : 10 ∈ s) (t : Bytes) :
    untilLF (s ++ t) = untilLF s := by
  rw [untilLF, List.takeWhile_append, if_neg]
  · rfl
  · exact (length_untilLF_lt h).ne

end Stream

namespace BufReader

variable {size : ℕ} {b b' : BufReader size}

/-- **Lines do not depend on how the input arrives.** What `ReadLine` finds in the buffer is what
there is to be found in the whole stream, whatever is still to come. -/
theorem readLine_spec {v : View} {more : Bool} (h : b.readLine = some ((v, more), b'))
    (s : Bytes) :
    Stream.readLine size (b.unread ++ s) = some ((b.view v, more), b'.unread ++ s) ∧
      b'.buf = b.buf := by
  have hle : b.unread.length ≤ size := b.length_unread.trans_le b.buffered_le
  rw [readLine] at h
  split at h
  · rename_i hmem
    obtain ⟨hline, rfl⟩ := Prod.mk.inj (Option.some_inj.mp h)
    obtain ⟨rfl, rfl⟩ := Prod.mk.inj hline
    have hmem' : 10 ∈ (b.unread ++ s).take size := by
      rw [List.take_append, List.take_of_length_le hle]
      exact List.mem_append_left _ hmem
    have hview := b.view_of_prefix
      ((Stream.isPrefix_dropCR _).trans (Stream.isPrefix_untilLF b.unread))
    refine ⟨?_, rfl⟩
    rw [Stream.readLine, if_pos hmem', Stream.untilLF_append_of_mem hmem, hview, unread_skip,
      List.drop_append_of_le_length (Stream.length_untilLF_lt hmem)]
  · rename_i hmem
    split at h
    · rename_i hfull
      have hlen : b.unread.length = size := le_antisymm hle (b.length_unread.symm ▸ hfull)
      have htake : (b.unread ++ s).take size = b.unread := List.take_left' hlen
      have hsize : size ≤ (b.unread ++ s).length := by
        rw [List.length_append, hlen]
        exact Nat.le_add_right _ _
      rw [Stream.readLine, htake, if_neg hmem, if_pos hsize]
      have hbuffered : b.buffered = size := b.length_unread.symm.trans hlen
      split at h
      · rename_i hcr
        obtain ⟨hline, rfl⟩ := Prod.mk.inj (Option.some_inj.mp h)
        obtain ⟨rfl, rfl⟩ := Prod.mk.inj hline
        have hview := b.view_of_prefix (List.dropLast_prefix b.unread)
        rw [List.length_dropLast, length_unread] at hview
        refine ⟨?_, rfl⟩
        rw [if_pos hcr, hview, unread_skip, hbuffered,
          List.drop_append_of_le_length (by rw [hlen]; exact Nat.sub_le _ _)]
      · rename_i hcr
        obtain ⟨hline, rfl⟩ := Prod.mk.inj (Option.some_inj.mp h)
        obtain ⟨rfl, rfl⟩ := Prod.mk.inj hline
        have hview := b.view_of_prefix (List.prefix_rfl : b.unread <+: b.unread)
        rw [length_unread] at hview
        refine ⟨?_, rfl⟩
        rw [if_neg hcr, hview, unread_skip, hbuffered, List.drop_append_of_le_length hlen.ge]
    · exact absurd h (Option.some_ne_none _).symm

theorem readLine_eq_none_iff : b.readLine = none ↔ 10 ∉ b.unread ∧ b.buffered < size := by
  rw [readLine]
  split
  · rename_i hmem
    exact iff_of_false (Option.some_ne_none _) fun h ↦ h.1 hmem
  · rename_i hmem
    split
    · rename_i hfull
      refine iff_of_false ?_ fun h ↦ absurd hfull (not_le.mpr h.2)
      split
      · exact Option.some_ne_none _
      · exact Option.some_ne_none _
    · rename_i hfull
      exact iff_of_true rfl ⟨hmem, not_le.mp hfull⟩

end BufReader

end VortexMQ
