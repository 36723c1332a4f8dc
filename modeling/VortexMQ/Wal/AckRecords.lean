import VortexMQ.Wal.Log

/-!
# What an acknowledgment record says

`WriteAck` joins the topic, the group and the identifier of the message with colons. Identifiers
have no colon in them, but nothing keeps one out of the names of topics and groups, and then the
record does not say where the topic ends.
-/

namespace VortexMQ

namespace Message

/-- An identifier that `NewMessage` makes. -/
def IsNewID (id : Bytes) : Prop :=
  ∃ (now : ℤ) (seq : UInt64) (rand : Bytes), rand.length = 2 ∧ id = newID now seq rand

private theorem colon_notMem_hexOf (s : Bytes) : 58 ∉ hexOf s := by
  have hdigit : ∀ n < 16, 58 ≠ hexDigit n := by decide
  intro h
  obtain ⟨c, -, hc⟩ := List.mem_flatMap.mp h
  have hlt := c.toNat_lt
  rcases List.mem_cons.mp hc with hc | hc
  · exact hdigit _ (by omega) hc
  · exact hdigit _ (Nat.mod_lt _ (by decide)) (List.mem_singleton.mp hc)

theorem colon_notMem_ofNat (n : ℕ) : 58 ∉ Decimal.ofNat n := fun h ↦
  absurd (Decimal.isDigit_of_mem_ofNat 58 h) (by decide)

private theorem colon_notMem_ofInt (z : ℤ) : 58 ∉ Decimal.ofInt z := by
  rw [Decimal.ofInt]
  split
  · exact List.not_mem_cons_of_ne_of_not_mem (by decide) (colon_notMem_ofNat _)
  · exact colon_notMem_ofNat _

theorem IsNewID.colon_notMem {id : Bytes} (h : IsNewID id) : 58 ∉ id := by
  obtain ⟨now, seq, rand, -, rfl⟩ := h
  have hhyphen : 58 ∉ bytesOf "-" := by decide
  simp only [newID, List.mem_append, not_or]
  exact ⟨⟨⟨⟨colon_notMem_ofInt _, hhyphen⟩, colon_notMem_ofNat _⟩, hhyphen⟩, colon_notMem_hexOf _⟩

end Message

namespace Wal

theorem ackPayload_eq (topic group msgID : Bytes) :
    ackPayload topic group msgID = topic ++ 58 :: (group ++ 58 :: msgID) := by
  have hcolon : bytesOf ":" = [58] := by decide
  rw [ackPayload, hcolon, List.append_assoc, List.append_assoc, List.append_assoc]
  rfl

private theorem count_ackPayload (topic group msgID : Bytes) :
    (ackPayload topic group msgID).count 58 =
      topic.count 58 + group.count 58 + msgID.count 58 + 2 := by
  rw [ackPayload_eq, List.count_append, List.count_cons_self, List.count_append,
    List.count_cons_self]
  omega

/-- Where neither name has a colon, the two colons of the payload are those of `WriteAck`. -/
theorem ackPayload_inj {t g m t' g' m' : Bytes} (ht : 58 ∉ t) (hg : 58 ∉ g) (hm : 58 ∉ m)
    (h : ackPayload t g m = ackPayload t' g' m') : t = t' ∧ g = g' ∧ m = m' := by
  have hcount := congrArg (List.count 58) h
  rw [count_ackPayload, count_ackPayload, List.count_eq_zero.mpr ht, List.count_eq_zero.mpr hg,
    List.count_eq_zero.mpr hm] at hcount
  have ht' : 58 ∉ t' := List.count_eq_zero.mp (by omega)
  have hg' : 58 ∉ g' := List.count_eq_zero.mp (by omega)
  rw [ackPayload_eq, ackPayload_eq] at h
  obtain ⟨rfl, hrest⟩ := append_cons_inj_of_notMem_left ht ht' h
  obtain ⟨rfl, rfl⟩ := append_cons_inj_of_notMem_left hg hg' hrest
  exact ⟨rfl, rfl, rfl⟩

private theorem ackPayload_shift (u v w m : Bytes) :
    ackPayload (u ++ 58 :: v) w m = ackPayload u (v ++ 58 :: w) m := by
  simp only [ackPayload_eq, List.append_assoc, List.cons_append]

/-- **The payload of an acknowledgment.** It determines the topic, the group and the message
exactly if there is no colon in the names of the topic and of the group. -/
theorem ackPayload_inj_iff (t g m : Bytes) (hm : Message.IsNewID m) :
    (∀ t' g' m', Message.IsNewID m' → ackPayload t g m = ackPayload t' g' m' →
      t = t' ∧ g = g' ∧ m = m') ↔ 58 ∉ t ∧ 58 ∉ g := by
  constructor
  · intro hinj
    have hself : ∀ u v : Bytes, u ≠ u ++ 58 :: v := fun u v h ↦
      List.cons_ne_nil _ _ (List.self_eq_append_right.mp h)
    refine ⟨fun ht ↦ ?_, fun hg ↦ ?_⟩
    · obtain ⟨u, v, rfl⟩ := List.append_of_mem ht
      exact hself u v (hinj u (v ++ 58 :: g) m hm (ackPayload_shift u v g m)).1.symm
    · obtain ⟨u, v, rfl⟩ := List.append_of_mem hg
      exact hself t u (hinj (t ++ 58 :: u) v m hm (ackPayload_shift t u v m).symm).1
  · rintro ⟨ht, hg⟩ t' g' m' - h
    exact ackPayload_inj ht hg hm.colon_notMem h

/-- The first message of a process, acknowledged by a group of the topic `orders`. -/
theorem ackPayload_inj_orders :
    Message.IsNewID (Message.newID 0 1 [0, 0]) ∧
      ∀ t' g' m', Message.IsNewID m' →
        ackPayload (bytesOf "orders") (bytesOf "g") (Message.newID 0 1 [0, 0]) =
          ackPayload t' g' m' →
        bytesOf "orders" = t' ∧ bytesOf "g" = g' ∧ Message.newID 0 1 [0, 0] = m' := by
  have hid : Message.IsNewID (Message.newID 0 1 [0, 0]) := ⟨0, 1, [0, 0], rfl, rfl⟩
  exact ⟨hid, (ackPayload_inj_iff _ _ _ hid).mpr (by decide)⟩

/-- The topic `tasks:orders` and the group `g`, or the topic `tasks` and the group `orders:g`: the
same is written. -/
theorem ackPayload_not_inj :
    Message.IsNewID (Message.newID 0 1 [0, 0]) ∧
      ackPayload (bytesOf "tasks:orders") (bytesOf "g") (Message.newID 0 1 [0, 0]) =
        ackPayload (bytesOf "tasks") (bytesOf "orders:g") (Message.newID 0 1 [0, 0]) ∧
      bytesOf "tasks:orders" ≠ bytesOf "tasks" :=
  ⟨⟨0, 1, [0, 0], rfl, rfl⟩, by decide, by decide⟩

end Wal

end VortexMQ
