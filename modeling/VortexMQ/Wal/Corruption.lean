import VortexMQ.Coding.Checksum
import VortexMQ.Wal.MessageJson
import VortexMQ.Wal.RoundTrip

/-!
# Damaged records

A record in a segment file is damaged in one byte of its body, or anywhere in its checksum. Its
length field is intact, so `Replay` finds the body, and the checksum does not match. There the loop
ends, and everything from the damaged record to the end of the file is lost, and no more.
-/

namespace VortexMQ

/-- The bytes of a record after the damage. -/
inductive Record.Damages (r : Record) : Bytes → Prop
  /-- One byte of opcode and payload. -/
  | body (p q : Bytes) (a b : UInt8) : r.body = p ++ a :: q → a ≠ b →
      Damages r (r.header ++ (p ++ b :: q))
  /-- The checksum, in any of its bytes. -/
  | checksum (field : Bytes) : field.length = 4 → field ≠ putUint32 (Crc32.checksumIEEE r.body) →
      Damages r (putUint32 r.totalLen ++ field ++ r.body)

/-- **The loop ends at a damaged record.** -/
theorem Record.Damages.readRecord_append {r : Record} {data : Bytes} (h : r.Damages data)
    (rest : Bytes) : readRecord (data ++ rest) = none := by
  cases h with
  | body p q a b hbody hne =>
    have hlen : (p ++ b :: q).length = r.body.length := by
      rw [hbody, List.length_append, List.length_append, List.length_cons, List.length_cons]
    have hcrc : Crc32.checksumIEEE (p ++ b :: q) ≠ Crc32.checksumIEEE r.body := by
      rw [hbody]
      exact Crc32.checksumIEEE_ne_of_ne p q hne.symm
    rw [List.append_assoc, readRecord_header, readFull_append hlen, Option.bind_some]
    exact if_pos hcrc
  | checksum field hfield hne =>
    have hcrc : Crc32.checksumIEEE r.body ≠ uint32 field := by
      intro heq
      rw [heq, putUint32_uint32 hfield] at hne
      exact hne rfl
    rw [List.append_assoc, readRecord_field r hfield, readFull_append rfl, Option.bind_some]
    exact if_pos hcrc

/-- **Damage is confined.** From a file of complete records with a damaged one among them, `Replay`
delivers the messages of the records before that one. -/
theorem replayFile_damaged (c : Codec) (before after : List Record) {r : Record} {damaged : Bytes}
    (h : r.Damages damaged) (acc : ℕ × List Message) :
    replayFile c acc
        (recordCode.encodeAll before ++ (damaged ++ recordCode.encodeAll after))
      = (acc.1 + (before.filterMap fun r ↦ delivered c (r.op, r.payload)).length,
        acc.2 ++ before.filterMap fun r ↦ delivered c (r.op, r.payload)) := by
  have hdelivered := deliveredFrom_encodeAll_append c before
    (h.readRecord_append (recordCode.encodeAll after))
  rw [deliveredFrom] at hdelivered
  rw [replayFile, replayLoop_eq, hdelivered]

/-- A message, a damaged acknowledgment and another acknowledgment. -/
theorem replayFile_damaged_ack :
    ∃ msg : Message, ∃ h : (MessageJson.marshal msg).length < 2 ^ 32 - 9,
      replayFile MessageJson.codec (0, [])
        (recordCode.encodeAll [⟨opPublish, MessageJson.marshal msg, h⟩]
          ++ (((⟨opAck, [97, 58, 98], by decide⟩ : Record).header ++ [opAck, 97, 59, 98])
          ++ recordCode.encodeAll [⟨opAck, [99], by decide⟩])) = (1, [msg]) := by
  have hshort : (MessageJson.marshal (Message.newMessage (bytesOf "q") none 0 1 [])).length
      < 2 ^ 32 - 9 := by decide +kernel
  have hread : MessageJson.codec.unmarshal
      (MessageJson.marshal (Message.newMessage (bytesOf "q") none 0 1 []))
      = some (Message.newMessage (bytesOf "q") none 0 1 []) := by decide +kernel
  refine ⟨_, hshort, ?_⟩
  have hdelivered : [(⟨opPublish, _, hshort⟩ : Record)].filterMap
      (fun r ↦ delivered MessageJson.codec (r.op, r.payload))
      = [Message.newMessage (bytesOf "q") none 0 1 []] := by
    have hone : delivered MessageJson.codec (opPublish, MessageJson.marshal _) = some _ :=
      (if_pos rfl).trans hread
    simp only [List.filterMap_cons, hone, List.filterMap_nil]
  have hreplay := replayFile_damaged MessageJson.codec [⟨opPublish, _, hshort⟩]
    [⟨opAck, [99], by decide⟩]
    (.body [opAck, 97] [98] 58 59 rfl (by decide) :
      (⟨opAck, [97, 58, 98], by decide⟩ : Record).Damages _) (0, [])
  rw [hdelivered] at hreplay
  exact hreplay

end VortexMQ
