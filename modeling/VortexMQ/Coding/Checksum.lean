import VortexMQ.Coding.Words

/-!
# Damage that CRC-32 detects

The register of the division never forgets: a step is injective in the register, because the
constant term of the polynomial brings the bit that is shifted out back in at the top, and it is
injective in the byte that is fed. So two messages that differ in one byte lead to different
registers at that byte, and from there on whatever follows.
-/

namespace VortexMQ

namespace Crc32

theorem and_one_eq_one_iff (crc : UInt32) : crc &&& 1 = 1 ↔ crc.toBitVec.getLsbD 0 = true := by
  rw [← UInt32.toBitVec_inj]
  constructor
  · intro h
    have hbit := congrArg (fun v ↦ v.getLsbD 0) h
    simpa using hbit
  · intro h
    apply BitVec.eq_of_getLsbD_eq
    intro i hi
    cases i with
    | zero => simp [h]
    | succ i => simp

theorem getLsbD_shiftBit (crc : UInt32) :
    (shiftBit crc).toBitVec.getLsbD 31 = crc.toBitVec.getLsbD 0 := by
  rw [shiftBit]
  by_cases h : crc &&& 1 = 1
  · rw [if_pos h, (and_one_eq_one_iff crc).mp h]
    simp
  · rw [if_neg h, Bool.eq_false_iff.mpr ((and_one_eq_one_iff crc).not.mp h)]
    simp

theorem shiftBit_injective : Function.Injective shiftBit := by
  intro a b h
  have hlow : a.toBitVec.getLsbD 0 = b.toBitVec.getLsbD 0 := by
    rw [← getLsbD_shiftBit, ← getLsbD_shiftBit, h]
  have hand : a &&& 1 = 1 ↔ b &&& 1 = 1 := by
    rw [and_one_eq_one_iff, and_one_eq_one_iff, hlow]
  -- the polynomial is added to both or to neither
  have hshift : a >>> 1 = b >>> 1 := by
    rw [shiftBit, shiftBit] at h
    by_cases ha : a &&& 1 = 1
    · rw [if_pos ha, if_pos (hand.mp ha)] at h
      exact (UInt32.xor_left_inj _).mp h
    · rwa [if_neg ha, if_neg fun hb ↦ ha (hand.mpr hb)] at h
  rw [← UInt32.toBitVec_inj]
  apply BitVec.eq_of_getLsbD_eq
  intro i hi
  cases i with
  | zero => exact hlow
  | succ i =>
    have hbit := congrArg (fun c : UInt32 ↦ c.toBitVec.getLsbD i) hshift
    simpa [Nat.add_comm 1 i] using hbit

theorem shiftByte_left_injective (b : UInt8) : Function.Injective fun crc ↦ shiftByte crc b := by
  intro x y h
  exact (UInt32.xor_left_inj _).mp (shiftBit_injective.iterate 8 h)

theorem shiftByte_right_injective (crc : UInt32) : Function.Injective (shiftByte crc) := by
  intro x y h
  have hbytes := (UInt32.xor_right_inj crc).mp (shiftBit_injective.iterate 8 h)
  exact UInt8.toUInt32_inj.mp hbytes

theorem foldl_shiftByte_injective (p : Bytes) :
    Function.Injective fun crc ↦ p.foldl shiftByte crc := by
  induction p with
  | nil => exact fun _ _ h ↦ h
  | cons b p ih => exact fun _ _ h ↦ shiftByte_left_injective b (ih h)

/-- **A single wrong byte is detected**, wherever it is and however long the message. -/
theorem checksumIEEE_ne_of_ne (p q : Bytes) {a b : UInt8} (h : a ≠ b) :
    checksumIEEE (p ++ a :: q) ≠ checksumIEEE (p ++ b :: q) := by
  intro heq
  rw [checksumIEEE, checksumIEEE, update, update, UInt32.not_inj, List.foldl_append,
    List.foldl_append, List.foldl_cons, List.foldl_cons] at heq
  exact h (shiftByte_right_injective _ (foldl_shiftByte_injective q heq))

end Crc32

end VortexMQ
