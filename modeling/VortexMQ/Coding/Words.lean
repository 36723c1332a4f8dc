import VortexMQ.Basic.Bytes

/-!
# Big-endian words and the CRC-32 checksum

The two parts of a record header. The checksum is the reflected CRC with the IEEE polynomial, one
bit at a time; the tables of `hash/crc32` are a precomputation of eight such bits. It can be
computed in instalments: the writer feeds the opcode and the payload separately, the reader checks
the two at once. What it detects is in `VortexMQ.Coding.Checksum`.
-/

namespace VortexMQ

/-! ## Big-endian words -/

def putUint32 (n : UInt32) : Bytes :=
  [UInt8.ofNat (n.toNat / 2 ^ 24), UInt8.ofNat (n.toNat / 2 ^ 16), UInt8.ofNat (n.toNat / 2 ^ 8),
    UInt8.ofNat n.toNat]

/-- `binary.BigEndian.Uint32`, on the first four bytes of a longer slice. -/
def uint32 : Bytes → UInt32
  | a :: b :: c :: d :: _ =>
      UInt32.ofNat (((a.toNat * 256 + b.toNat) * 256 + c.toNat) * 256 + d.toNat)
  | _ => 0

@[simp] theorem length_putUint32 (n : UInt32) : (putUint32 n).length = 4 := rfl

theorem uint32_putUint32_append (n : UInt32) (rest : Bytes) :
    uint32 (putUint32 n ++ rest) = n := by
  have hn : n.toNat < 2 ^ 32 := n.toNat_lt
  simp only [putUint32, uint32, List.cons_append, UInt8.toNat_ofNat']
  rw [← UInt32.toNat_inj, UInt32.toNat_ofNat']
  omega

theorem putUint32_uint32 {field : Bytes} (h : field.length = 4) :
    putUint32 (uint32 field) = field := by
  match field with
  | [a, b, c, d] =>
    have ha := a.toNat_lt
    have hb := b.toNat_lt
    have hc := c.toNat_lt
    have hd := d.toNat_lt
    rw [uint32, putUint32, UInt32.toNat_ofNat']
    simp only [List.cons.injEq, and_true, ← UInt8.toNat_inj, UInt8.toNat_ofNat']
    omega

/-! ## CRC-32 -/

namespace Crc32

/-- One bit of the reflected division by the IEEE polynomial. -/
def shiftBit (crc : UInt32) : UInt32 :=
  if crc &&& 1 = 1 then (crc >>> 1) ^^^ 0xEDB88320 else crc >>> 1

/-- One byte. -/
def shiftByte (crc : UInt32) (b : UInt8) : UInt32 :=
  shiftBit (shiftBit (shiftBit (shiftBit (shiftBit (shiftBit (shiftBit (shiftBit
    (crc ^^^ b.toUInt32))))))))

/-- `crc32.Update`, and the `Write` of a digest whose sum so far is `crc`. -/
def update (crc : UInt32) (p : Bytes) : UInt32 := ~~~(p.foldl shiftByte (~~~crc))

def checksumIEEE (p : Bytes) : UInt32 := update 0 p

theorem update_update (crc : UInt32) (p q : Bytes) :
    update (update crc p) q = update crc (p ++ q) := by
  rw [update, update, update, List.foldl_append, UInt32.not_not]

-- the check value of the CRC catalogue
example : checksumIEEE (bytesOf "123456789") = 0xCBF43926 := by decide +kernel

end Crc32

end VortexMQ
