import VortexMQ.Basic.Bytes

/-!
# Reading from a stream

What is left of a finite stream of bytes, and the two ways in which it is read: a number of bytes,
or a line. A line is read through a buffer of a given size. One that is longer comes in pieces, each
as long as the buffer; which pieces these are does not depend on how the stream arrives.
-/

namespace VortexMQ

/-- `io.ReadFull` into a buffer of `n` bytes. -/
def readFull (n : ℕ) (data : Bytes) : Option (Bytes × Bytes) :=
  if data.length < n then none else some (data.take n, data.drop n)

theorem readFull_append {n : ℕ} {p : Bytes} (h : p.length = n) (rest : Bytes) :
    readFull n (p ++ rest) = some (p, rest) := by
  rw [readFull, if_neg (by rw [List.length_append]; omega), List.take_left' h, List.drop_left' h]

theorem readFull_of_lt {n : ℕ} {data : Bytes} (h : data.length < n) : readFull n data = none :=
  if_pos h

theorem readFull_eq_some {n : ℕ} {data buf rest : Bytes} (h : readFull n data = some (buf, rest)) :
    data = buf ++ rest ∧ buf.length = n := by
  rw [readFull] at h
  split at h
  · exact absurd h (Option.some_ne_none _).symm
  · rename_i hlen
    obtain ⟨rfl, rfl⟩ := Prod.mk.inj (Option.some_inj.mp h)
    exact ⟨(List.take_append_drop n data).symm, List.length_take_of_le (Nat.not_lt.mp hlen)⟩

theorem readFull_append_eq_map (n : ℕ) (u s : Bytes) :
    readFull n (u ++ s) = (readFull (n - (u.take n).length) (u.drop n ++ s)).map fun r ↦
      (u.take n ++ r.1, r.2) := by
  rcases le_total n u.length with hn | hn
  · have hshort : ¬(u ++ s).length < n := by rw [List.length_append]; omega
    rw [readFull, if_neg hshort, List.length_take_of_le hn, Nat.sub_self, readFull,
      if_neg (Nat.not_lt_zero _), Option.map_some, List.take_zero, List.drop_zero, List.append_nil,
      List.take_append_of_le_length hn, List.drop_append_of_le_length hn]
  · rw [List.take_of_length_le hn, List.drop_of_length_le hn, List.nil_append, readFull, readFull,
      List.length_append, List.take_append, List.drop_append, List.take_of_length_le hn,
      List.drop_of_length_le hn, List.nil_append]
    by_cases hs : s.length < n - u.length
    · rw [if_pos hs, if_pos (by omega)]
      rfl
    · rw [if_neg hs, if_neg (by omega)]
      rfl

namespace Stream

/-- A line without the `\r` in front of the `\n` that ended it. -/
def dropCR (line : Bytes) : Bytes := if line.getLast? = some 13 then line.dropLast else line

/-- The bytes before the first `\n`. -/
def untilLF (s : Bytes) : Bytes := s.takeWhile fun b ↦ b ≠ 10

/-- `ReadLine` with a buffer of `size` bytes: a line, or a piece of one and whether there is more of
it. At the end of the stream what is left is a line, unless nothing is. A `\r` at the end of a full
buffer stays in the stream, since a `\n` may follow it. -/
def readLine (size : ℕ) (s : Bytes) : Option ((Bytes × Bool) × Bytes) :=
  if 10 ∈ s.take size then
    some ((dropCR (untilLF s), false), s.drop ((untilLF s).length + 1))
  else if size ≤ s.length then
    if (s.take size).getLast? = some 13 then
      some (((s.take size).dropLast, true), s.drop (size - 1))
    else some ((s.take size, true), s.drop size)
  else if s = [] then none
  else some ((s, false), [])

private theorem untilLF_append {line : Bytes} (hline : 10 ∉ line) (rest : Bytes) :
    untilLF (line ++ 10 :: rest) = line := by
  have hall : ∀ b ∈ line, decide (b ≠ 10) = true := fun b hb ↦
    decide_eq_true fun h ↦ hline (h ▸ hb)
  rw [untilLF, List.takeWhile_append_of_pos hall, List.takeWhile_cons_of_neg (by simp),
    List.append_nil]

private theorem dropCR_append (line : Bytes) : dropCR (line ++ [13]) = line := by
  rw [dropCR, if_pos List.getLast?_concat, List.dropLast_concat]

theorem readLine_append {size : ℕ} {line : Bytes} (hline : 10 ∉ line)
    (hsize : line.length + 2 ≤ size) (rest : Bytes) :
    readLine size (line ++ 13 :: 10 :: rest) = some ((line, false), rest) := by
  have hsplit : line ++ 13 :: 10 :: rest = (line ++ [13]) ++ 10 :: rest := by simp
  have hnot : 10 ∉ line ++ [13] := by simpa using hline
  have hmem : 10 ∈ ((line ++ [13]) ++ 10 :: rest).take size := by
    refine List.mem_take_iff_getElem.mpr ⟨line.length + 1, ?_, ?_⟩
    · simp only [List.length_append, List.length_cons, List.length_nil]
      omega
    · rw [List.getElem_append_right (by simp)]
      simp
  have hdrop : ((line ++ [13]) ++ 10 :: rest).drop ((line ++ [13]).length + 1) = rest := by
    rw [← List.drop_drop, List.drop_left, List.drop_succ_cons, List.drop_zero]
  rw [hsplit, readLine, if_pos hmem, untilLF_append hnot, dropCR_append, hdrop]

/-- A line that does not fit comes in pieces. The `\r` in front of its end is not part of a piece
that has more to follow. -/
theorem readLine_piece {size : ℕ} {line : Bytes} (hline : 10 ∉ line) (hsize : 2 ≤ size)
    (hlong : size < line.length + 2) (rest : Bytes) :
    ∃ k, 0 < k ∧ k ≤ line.length ∧ readLine size (line ++ 13 :: 10 :: rest) =
      some ((line.take k, true), line.drop k ++ 13 :: 10 :: rest) := by
  have hsplit : line ++ 13 :: 10 :: rest = (line ++ [13]) ++ 10 :: rest := by simp
  have hlen : size ≤ (line ++ [13]).length := by
    rw [List.length_append, List.length_singleton]
    omega
  have htake : (line ++ 13 :: 10 :: rest).take size = (line ++ [13]).take size := by
    rw [hsplit, List.take_append_of_le_length hlen]
  have hnot : 10 ∉ (line ++ [13]).take size := fun h ↦ by
    rcases List.mem_append.mp (List.mem_of_mem_take h) with h | h
    · exact hline h
    · exact absurd (List.mem_singleton.mp h) (by decide)
  have hfull : size ≤ (line ++ 13 :: 10 :: rest).length := by
    rw [List.length_append, List.length_cons, List.length_cons]
    omega
  rw [readLine, htake, if_neg hnot, if_pos hfull]
  split
  · -- one byte less
    refine ⟨size - 1, by omega, by omega, ?_⟩
    rw [List.dropLast_eq_take, List.length_take_of_le hlen, List.take_take,
      Nat.min_eq_left (Nat.sub_le _ _), List.take_append_of_le_length (by omega),
      List.drop_append_of_le_length (by omega)]
  · rename_i hcr
    have hle : size ≤ line.length := by
      by_contra hlt
      refine hcr ?_
      rw [List.take_of_length_le (by rw [List.length_append, List.length_singleton]; omega),
        List.getLast?_concat]
    refine ⟨size, by omega, hle, ?_⟩
    rw [List.take_append_of_le_length hle, List.drop_append_of_le_length hle]

theorem readLine_unterminated {size : ℕ} {s : Bytes} (hs : 10 ∉ s) (hne : s ≠ [])
    (hsize : s.length < size) : readLine size s = some ((s, false), []) := by
  have hmem : 10 ∉ s.take size := fun h ↦ hs (List.mem_of_mem_take h)
  rw [readLine, if_neg hmem, if_neg (Nat.not_le.mpr hsize), if_neg hne]

theorem readLine_nil {size : ℕ} (hsize : 0 < size) : readLine size [] = none := by
  have hshort : ¬size ≤ ([] : Bytes).length := Nat.not_le.mpr hsize
  rw [readLine, if_neg (by simp), if_neg hshort, if_pos rfl]

end Stream

end VortexMQ
