import VortexMQ.Bufio.Stream
import VortexMQ.Coding.PrefixCode
import VortexMQ.Coding.Words

/-!
# Log records

The wire format of `internal/wal/wal.go`: total length, checksum, opcode, payload. The writer and
the reader compute the length of a record differently (`9 + n` against `totalLen - 8`) and feed the
checksum differently (opcode and payload one after the other against the joined body), and the
writer's length is a 32-bit number. For payloads shorter than `2 ^ 32 - 9` bytes the two agree, and
the format is a self-delimiting code.
-/

namespace VortexMQ

def opPublish : UInt8 := 1

def opAck : UInt8 := 2

/-- The buffer `writeRecord` builds. `none` is the panic of an index past the end of the buffer,
which happens when the 32-bit length has wrapped around to less than the header. -/
def frame (op : UInt8) (payload : Bytes) : Option Bytes :=
  let payloadLen := UInt32.ofNat payload.length
  let totalLen := 4 + 4 + 1 + payloadLen
  let checksum := Crc32.update (Crc32.update 0 [op]) payload
  if totalLen < 9 then none
  else some (putUint32 totalLen ++ putUint32 checksum ++ op :: payload.take (totalLen.toNat - 9))

/-- One round of the loop in `Replay`, up to the checksum: opcode, payload and what is left of the
file. `none` means that the loop breaks. -/
def readRecord (data : Bytes) : Option ((UInt8 × Bytes) × Bytes) :=
  (readFull 8 data).bind fun (header, data) ↦
    let totalLen := uint32 header
    let expectedCRC := uint32 (header.drop 4)
    if totalLen < 9 then none
    else (readFull (totalLen - 8).toNat data).bind fun (body, data) ↦
      if Crc32.checksumIEEE body ≠ expectedCRC then none
      else match body with
        | [] => none
        | op :: recordData => some ((op, recordData), data)

/-- A record whose length fits the format. -/
structure Record where
  op : UInt8
  payload : Bytes
  short : payload.length < 2 ^ 32 - 9

namespace Record

/-- The length field of a record. -/
def totalLen (r : Record) : UInt32 := 4 + 4 + 1 + UInt32.ofNat r.payload.length

theorem toNat_totalLen (r : Record) : r.totalLen.toNat = 9 + r.payload.length := by
  have hshort := r.short
  rw [totalLen, UInt32.toNat_add, UInt32.toNat_ofNat']
  have h9 : (4 + 4 + 1 : UInt32).toNat = 9 := rfl
  rw [h9]
  omega

/-- The part of a record the checksum is over. -/
def body (r : Record) : Bytes := r.op :: r.payload

def header (r : Record) : Bytes := putUint32 r.totalLen ++ putUint32 (Crc32.checksumIEEE r.body)

/-- The bytes of a record. -/
def bytes (r : Record) : Bytes := r.header ++ r.body

private theorem length_header (r : Record) : r.header.length = 8 := rfl

theorem length_bytes (r : Record) : r.bytes.length = 9 + r.payload.length := by
  rw [bytes, List.length_append, length_header, body, List.length_cons]
  omega

theorem not_totalLen_lt (r : Record) : ¬r.totalLen < 9 := by
  rw [UInt32.lt_iff_toNat_lt, r.toNat_totalLen]
  exact Nat.not_lt.mpr (Nat.le_add_right 9 _)

theorem frame_eq (r : Record) : frame r.op r.payload = some r.bytes := by
  have hcrc : Crc32.update (Crc32.update 0 [r.op]) r.payload
      = Crc32.checksumIEEE r.body := Crc32.update_update 0 [r.op] r.payload
  have htake : r.payload.take (r.totalLen.toNat - 9) = r.payload := by
    rw [r.toNat_totalLen, Nat.add_sub_cancel_left, List.take_length]
  rw [frame]
  change (if r.totalLen < 9 then none else some (putUint32 r.totalLen ++ putUint32 _ ++
    r.op :: r.payload.take (r.totalLen.toNat - 9))) = _
  rw [if_neg r.not_totalLen_lt, hcrc, htake]
  rfl

/-! ### What the reader finds in a header -/

private theorem toNat_totalLen_sub (r : Record) : (r.totalLen - 8).toNat = r.body.length := by
  have hle : (8 : UInt32) ≤ r.totalLen := by
    rw [UInt32.le_iff_toNat_le, r.toNat_totalLen]
    exact (by decide : 8 ≤ 9).trans (Nat.le_add_right 9 _)
  rw [UInt32.toNat_sub_of_le _ _ hle, r.toNat_totalLen, body,
    List.length_cons]
  have h8 : (8 : UInt32).toNat = 8 := rfl
  omega

end Record

/-- What the reader makes of a complete header, whatever its checksum and whatever follows it. -/
theorem readRecord_field (r : Record) {field : Bytes} (hfield : field.length = 4) (data : Bytes) :
    readRecord (putUint32 r.totalLen ++ field ++ data)
      = (readFull r.body.length data).bind fun (body, data) ↦
          if Crc32.checksumIEEE body ≠ uint32 field then none
          else match body with
            | [] => none
            | op :: recordData => some ((op, recordData), data) := by
  have hlen : (putUint32 r.totalLen ++ field).length = 8 := by
    rw [List.length_append, length_putUint32, hfield]
  rw [readRecord, readFull_append hlen, Option.bind_some]
  simp only [uint32_putUint32_append, List.drop_left' (length_putUint32 _)]
  rw [if_neg r.not_totalLen_lt, r.toNat_totalLen_sub]

theorem readRecord_header (r : Record) (data : Bytes) :
    readRecord (r.header ++ data)
      = (readFull r.body.length data).bind fun (body, data) ↦
          if Crc32.checksumIEEE body ≠ Crc32.checksumIEEE r.body then none
          else match body with
            | [] => none
            | op :: recordData => some ((op, recordData), data) := by
  have hcrc : uint32 (putUint32 (Crc32.checksumIEEE r.body)) = Crc32.checksumIEEE r.body :=
    (congrArg uint32 (List.append_nil _).symm).trans (uint32_putUint32_append _ [])
  rw [Record.header, readRecord_field r (length_putUint32 _), hcrc]

/-- **The record format is self-delimiting.** -/
def recordCode : PrefixCode Record UInt8 (UInt8 × Bytes) where
  encode := Record.bytes
  value r := (r.op, r.payload)
  decode := readRecord
  decode_encode := by
    intro r rest
    rw [Record.bytes, List.append_assoc, readRecord_header, readFull_append rfl, Option.bind_some]
    exact if_neg (not_not.mpr rfl)
  decode_torn := by
    intro r p hp hne
    have hlt : p.length < r.bytes.length :=
      lt_of_le_of_ne hp.length_le fun h ↦ hne (hp.eq_of_length h)
    rcases Nat.lt_or_ge p.length 8 with h8 | h8
    · rw [readRecord, readFull_of_lt h8]
      rfl
    · -- the header is complete, the body is not
      obtain ⟨q, rfl⟩ : r.header <+: p :=
        List.prefix_of_prefix_length_le (List.prefix_append _ _) hp h8
      have hbody : q.length < r.body.length := by
        rw [Record.bytes, List.length_append, List.length_append] at hlt
        exact Nat.lt_of_add_lt_add_left hlt
      rw [readRecord_header, readFull_of_lt hbody]
      rfl
  decode_nil := rfl

end VortexMQ
