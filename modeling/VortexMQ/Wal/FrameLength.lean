import VortexMQ.Wal.Session

/-!
# The length of a frame

`writeRecord` reduces the length of the payload to 32 bits and then adds the nine bytes of the
header. From `2 ^ 32 - 9` bytes on the sum has wrapped around. Up to `2 ^ 32 - 1` bytes it is
smaller than the header, and an index is out of range. Beyond that the frame is cut off at a length
that has nothing to do with that of the payload, under a checksum of the whole.
-/

namespace VortexMQ

theorem toNat_frameLen (payload : Bytes) :
    (4 + 4 + 1 + UInt32.ofNat payload.length : UInt32).toNat = (9 + payload.length) % 2 ^ 32 := by
  have h9 : (4 + 4 + 1 : UInt32).toNat = 9 := rfl
  rw [UInt32.toNat_add, UInt32.toNat_ofNat', h9, Nat.add_mod_mod]

private theorem frame_eq_none {op : UInt8} {payload : Bytes}
    (h : (9 + payload.length) % 2 ^ 32 < 9) : frame op payload = none := by
  rw [← toNat_frameLen] at h
  exact if_pos (UInt32.lt_iff_toNat_lt.mpr h)

private theorem exists_frame {op : UInt8} {payload : Bytes}
    (h : 9 ≤ (9 + payload.length) % 2 ^ 32) :
    ∃ buf, frame op payload = some buf ∧ buf.length = (9 + payload.length) % 2 ^ 32 := by
  refine ⟨_, if_neg fun hlt ↦ ?_, ?_⟩
  · rw [UInt32.lt_iff_toNat_lt, toNat_frameLen] at hlt
    exact absurd hlt (Nat.not_lt.mpr h)
  · have hle := Nat.mod_le (9 + payload.length) (2 ^ 32)
    rw [List.length_append, List.length_append, List.length_cons, List.length_take,
      length_putUint32, length_putUint32, toNat_frameLen]
    omega

namespace Wal

variable {w : Wal} {op : UInt8} {payload : Bytes}

/-- The record is in the log: its frame has the length in its length field and is at the end of the
active file, and `Replay` reads it, and what is around it. -/
structure Logged (w : Wal) (op : UInt8) (payload : Bytes) (w' : Wal) (buf : Bytes) : Prop where
  length_eq : buf.length = 9 + payload.length
  field_eq : (uint32 buf).toNat = 9 + payload.length
  content_eq : ∀ name, w'.flush.dir.content name =
    (w.flush.dir.append w.activeFile buf).content name
  delivered_eq : ∀ (c : Codec) (before after : List Record),
    deliveredFrom c (recordCode.encodeAll before ++ (buf ++ recordCode.encodeAll after)) =
      (before.filterMap fun r ↦ delivered c (r.op, r.payload)) ++
        ((delivered c (op, payload)).toList ++
          after.filterMap fun r ↦ delivered c (r.op, r.payload))

/-- What `writeRecord` should do: report an error and leave the log alone, or write the record. -/
def WritesSoundly (w : Wal) (op : UInt8) (payload : Bytes) : Prop :=
  ∃ r w', w.writeRecord op payload = some (r, w') ∧
    ((∃ e, r = .error e) ∧ w' = w ∨ r = .ok () ∧ ∃ buf, w.Logged op payload w' buf)

private theorem logged_written (w : Wal) (r : Record) :
    w.Logged r.op r.payload (w.written r) r.bytes where
  length_eq := r.length_bytes
  field_eq := by
    rw [Record.bytes, Record.header, List.append_assoc, uint32_putUint32_append, r.toNat_totalLen]
  content_eq := w.content_flush_written r
  delivered_eq c before after := by
    have hencode : recordCode.encodeAll before ++ (r.bytes ++ recordCode.encodeAll after) =
        recordCode.encodeAll (before ++ r :: after) := by
      rw [recordCode.encodeAll_append, recordCode.encodeAll_cons]
      rfl
    rw [hencode, deliveredFrom_encodeAll, List.filterMap_append]
    refine congrArg _ ?_
    rw [List.filterMap_cons]
    cases delivered c (r.op, r.payload) with
    | none => rfl
    | some m => rfl

/-- **The length of a frame.** `writeRecord` returns an error and writes nothing, or writes a frame
of the length in its length field that `Replay` reads back, exactly if the log is closed or the
payload has fewer than `2 ^ 32 - 9` bytes. -/
theorem writesSoundly_iff (w : Wal) (op : UInt8) (payload : Bytes) :
    w.WritesSoundly op payload ↔ w.closed = true ∨ payload.length < 2 ^ 32 - 9 := by
  constructor
  · rintro ⟨r, w', hwrite, ⟨⟨e, rfl⟩, -⟩ | ⟨rfl, buf, hlogged⟩⟩
    · rw [writeRecord] at hwrite
      split at hwrite
      · rename_i hclosed
        exact Or.inl hclosed
      · obtain ⟨buf, -, hbuf⟩ := Option.map_eq_some_iff.mp hwrite
        cases hbuf
    · -- a length field holds less than `2 ^ 32`
      have hlt := (uint32 buf).toNat_lt
      rw [hlogged.field_eq] at hlt
      exact Or.inr (by omega)
  · rintro (hclosed | hshort)
    · exact ⟨.error errClosed, w, if_pos hclosed, Or.inl ⟨⟨_, rfl⟩, rfl⟩⟩
    · cases hclosed : w.closed with
      | true => exact ⟨.error errClosed, w, if_pos hclosed, Or.inl ⟨⟨_, rfl⟩, rfl⟩⟩
      | false =>
        exact ⟨.ok (), _, writeRecord_eq hclosed ⟨op, payload, hshort⟩,
          Or.inr ⟨rfl, _, w.logged_written ⟨op, payload, hshort⟩⟩⟩

/-- A payload of `2 ^ 32 - 9` bytes brings the process down. Of one of `2 ^ 32` bytes, the nine
bytes of a header are written. -/
theorem frame_length_wraps :
    ∃ short long : Bytes, short.length = 2 ^ 32 - 9 ∧ long.length = 2 ^ 32 ∧
      (openWAL ∅ .always).writeRecord opPublish short = none ∧
      ∃ buf, (openWAL ∅ .always).writeRecord opPublish long =
        some (.ok (), ((openWAL ∅ .always).put buf).settle.rotateIfFull) ∧ buf.length = 9 := by
  have hlen : ∀ n, (List.replicate n (0 : UInt8)).length = n := fun _ ↦ List.length_replicate
  refine ⟨List.replicate (2 ^ 32 - 9) 0, List.replicate (2 ^ 32) 0, hlen _, hlen _, ?_, ?_⟩
  · have hnone := @frame_eq_none opPublish (List.replicate (2 ^ 32 - 9) 0) (by rw [hlen]; decide)
    rw [writeRecord, hnone]
    rfl
  · obtain ⟨buf, hbuf, hlength⟩ := @exists_frame opPublish (List.replicate (2 ^ 32) 0)
      (by rw [hlen]; decide)
    rw [hlen] at hlength
    refine ⟨buf, ?_, hlength⟩
    rw [writeRecord, hbuf]
    rfl

end Wal

end VortexMQ
