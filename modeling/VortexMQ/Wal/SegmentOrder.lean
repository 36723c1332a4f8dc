import VortexMQ.Wal.Session

/-!
# The order of segment names

`Replay` visits the files in the lexicographic order of their names, and the numbers in the names
are padded to six digits only. Behind segment 999999 the names get longer. A longer number is then
compared by its leading digits, as many as the shorter one has, and only if these agree does its
greater length put it behind, since the dot in front of `wal` is smaller than any digit.
-/

namespace VortexMQ

/-- So many digits has the number in a name. -/
def segDigits (id : ℕ) : ℕ := max 6 (Nat.log 10 id + 1)

private theorem segDigits_mono : Monotone segDigits := by
  intro i j h
  exact max_le_max le_rfl (Nat.succ_le_succ (Nat.log_mono_right h))

/-- A number of one width against the leading digits of one that is at least as wide. -/
theorem segName_lt_iff {i j : ℕ} (h : i < j) :
    segName i < segName j ↔ i ≤ j / 10 ^ (segDigits j - segDigits i) := by
  let k := segDigits i
  have hwidth (id : ℕ) : (Decimal.padded 6 id).length = segDigits id :=
    Decimal.length_padded_eq 6 id
  let front := (Decimal.padded 6 j).take k
  let back := (Decimal.padded 6 j).drop k
  have hdigits : ∀ c ∈ Decimal.padded 6 j, Decimal.IsDigit c := Decimal.isDigit_of_mem_padded
  have hk : k ≤ (Decimal.padded 6 j).length := (hwidth j).ge.trans' (segDigits_mono h.le)
  have hfront : ∀ c ∈ front, Decimal.IsDigit c := fun c hc ↦
    hdigits c ((List.take_sublist _ _).subset hc)
  have hlen : (Decimal.padded 6 i).length = front.length :=
    (hwidth i).trans (List.length_take_of_le hk).symm
  have hvalue : Decimal.value front = j / 10 ^ (segDigits j - k) := by
    have hvalue := Decimal.value_take hdigits k
    rwa [Decimal.value_padded, hwidth] at hvalue
  have hi : segName i = bytesOf "vortexmq_" ++ (Decimal.padded 6 i ++ bytesOf ".wal") :=
    List.append_assoc _ _ _
  have hj : segName j = bytesOf "vortexmq_" ++ (front ++ (back ++ bytesOf ".wal")) := by
    rw [segName, ← List.append_assoc front, List.take_append_drop, List.append_assoc]
  rcases Nat.lt_trichotomy i (j / 10 ^ (segDigits j - k)) with hlt | heq | hgt
  · refine iff_of_true ?_ hlt.le
    rw [hi, hj]
    refine List.append_left_lt (Decimal.append_lt_append hlen ?_ _ _)
    refine Decimal.lt_of_value_lt hlen Decimal.isDigit_of_mem_padded hfront ?_
    rwa [Decimal.value_padded, hvalue]
  · -- the wider number has digits where the other one has the dot
    refine iff_of_true ?_ heq.le
    have hsame : Decimal.padded 6 i = front := by
      refine Decimal.eq_of_value_eq hlen Decimal.isDigit_of_mem_padded hfront ?_
      rw [Decimal.value_padded, hvalue, ← heq]
    rw [hi, hj, hsame]
    refine List.append_left_lt (List.append_left_lt ?_)
    cases hback : back with
    | nil =>
      have hsub : segDigits j - k = 0 :=
        Nat.sub_eq_zero_of_le ((hwidth j).ge.trans (List.drop_eq_nil_iff.mp hback))
      rw [hsub, pow_zero, Nat.div_one] at heq
      exact absurd heq h.ne
    | cons d rest =>
      have hd : Decimal.IsDigit d :=
        hdigits d ((List.drop_sublist _ _).subset (hback ▸ List.mem_cons_self))
      exact List.cons_lt_cons_iff.mpr (Or.inl (UInt8.lt_of_lt_of_le (by decide) hd.1))
  · refine iff_of_false (fun hlt ↦ ?_) hgt.not_ge
    have hback : segName j < segName i := by
      rw [hi, hj]
      refine List.append_left_lt (Decimal.append_lt_append hlen.symm ?_ _ _)
      refine Decimal.lt_of_value_lt hlen.symm hfront Decimal.isDigit_of_mem_padded ?_
      rwa [Decimal.value_padded, hvalue]
    exact List.lt_asymm hlt hback

/-- The first number of seven digits comes before the last one of six. -/
theorem not_segName_le : ¬segName 999999 ≤ segName 1000000 := by
  decide

/-- Up to the first number of seven digits, `Replay` visits the segments as they are numbered. -/
theorem Directory.glob_eq_iff {d : Directory} {count : ℕ}
    (h : d.keys.Perm ((List.range' 1 count).map segName)) :
    d.glob = (List.range' 1 count).map segName ↔ count < 10 ^ 6 := by
  refine ⟨fun hglob ↦ ?_, glob_eq h⟩
  by_contra hmany
  have hsorted : d.glob.Pairwise (· ≤ ·) := List.pairwise_insertionSort _ _
  rw [hglob, List.pairwise_map, List.pairwise_iff_getElem] at hsorted
  have hle := hsorted 999998 999999 (by rw [List.length_range']; omega)
    (by rw [List.length_range']; omega) (by decide)
  rw [List.getElem_range', List.getElem_range'] at hle
  exact not_segName_le hle

/-! ## Numbers that are reached -/

namespace Wal

private theorem size_written_of_full {w : Wal} {r : Record}
    (h : w.maxSegSize ≤ w.currentSize + r.bytes.length) :
    (w.written r).maxSegSize = w.maxSegSize ∧ (w.written r).currentSize = 0 := by
  obtain ⟨hmax, hcurrent⟩ := (w.put r.bytes).size_settle
  have hfull : (w.put r.bytes).settle.maxSegSize ≤ (w.put r.bytes).settle.currentSize := by
    rw [hmax, hcurrent]
    exact h
  rw [written, rotateIfFull, if_pos hfull]
  exact ⟨hmax, rfl⟩

private theorem segmentID_foldl_replicate {r : Record} (hr : 64 * 1024 * 1024 ≤ r.payload.length) :
    ∀ (n : ℕ) {w : Wal}, w.maxSegSize = 64 * 1024 * 1024 → w.currentSize = 0 →
      ((List.replicate n r).foldl written w).segmentID = w.segmentID + n := by
  intro n
  induction n with
  | zero => intro w _ _; rfl
  | succ n ih =>
    intro w hmax hcurrent
    have hfull : w.maxSegSize ≤ w.currentSize + r.bytes.length := by
      rw [hmax, hcurrent, r.length_bytes]
      omega
    obtain ⟨hmax', hcurrent'⟩ := size_written_of_full hfull
    rw [List.replicate_succ, List.foldl_cons, ih (hmax'.trans hmax) hcurrent',
      segmentID_written_of_full hfull]
    omega

/-- **Every number is reached**, by a session that writes enough. -/
theorem exists_segmentID (policy : FsyncPolicy) (n : ℕ) :
    ∃ rs : List Record, (rs.foldl written (openWAL ∅ policy)).segmentID = n + 1 := by
  let r : Record := ⟨opPublish, List.replicate (64 * 1024 * 1024) 0, by
    rw [List.length_replicate]; decide⟩
  refine ⟨List.replicate n r, ?_⟩
  rw [segmentID_foldl_replicate (List.length_replicate).ge n rfl rfl, Nat.add_comm]
  rfl

end Wal

/-! ## The order of replay -/

/-- **Names and numbers.** The name of a segment is smaller than that of a later one exactly if its
number does not exceed the leading digits of the other number, as many as it has itself. `Replay`
visits the segments in the order in which they were written exactly if there are fewer than a
million. -/
theorem segments_in_order_iff (i j : ℕ) (hij : i < j) (d : Directory) (count : ℕ)
    (hd : d.keys.Perm ((List.range' 1 count).map segName)) :
    (segName i < segName j ↔ i ≤ j / 10 ^ (segDigits j - segDigits i)) ∧
      (d.glob = (List.range' 1 count).map segName ↔ count < 10 ^ 6) :=
  ⟨segName_lt_iff hij, Directory.glob_eq_iff hd⟩

/-- Segments 2 and 1000000, of six and of seven digits: the leading six digits are 100000. And a
directory with two segments, of which the second one is found first. -/
theorem segments_in_order_iff_two :
    2 < 1000000 ∧ segName 2 < segName 1000000 ∧
      (((∅ : Directory).create (segName 1)).create (segName 2)).keys = [segName 2, segName 1] ∧
      (((∅ : Directory).create (segName 1)).create (segName 2)).glob
        = (List.range' 1 2).map segName := by
  have hkeys : (((∅ : Directory).create (segName 1)).create (segName 2)).keys
      = [segName 2, segName 1] := by decide
  have hperm : (((∅ : Directory).create (segName 1)).create (segName 2)).keys.Perm
      ((List.range' 1 2).map segName) := by
    rw [hkeys]
    exact List.Perm.swap _ _ _
  obtain ⟨hname, hglob⟩ := segments_in_order_iff 2 1000000 (by decide) _ 2 hperm
  refine ⟨by decide, hname.mpr ?_, hkeys, hglob.mpr (by decide)⟩
  have hwidth : segDigits 1000000 - segDigits 2 = 1 := by decide
  rw [hwidth]
  decide

/-- Segment 1000000 is reached, and its name is smaller than that of segment 999999. -/
theorem segment_out_of_order :
    (∃ rs : List Record, (rs.foldl Wal.written (Wal.openWAL ∅ .always)).segmentID = 1000000) ∧
      segName 1000000 < segName 999999 := by
  refine ⟨Wal.exists_segmentID .always 999999, ?_⟩
  decide

end VortexMQ
