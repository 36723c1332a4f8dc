import VortexMQ.Basic.ListPerm
import VortexMQ.Queue.Message

/-!
# The dead letter queue

`internal/queue/dlq.go`: a map from identifiers to entries and the insertion order of its keys. The
queue carries the two facts that tie the pieces together: `order` lists the keys of `entries`, each
once, and an entry is stored under the identifier of its own message.
-/

namespace VortexMQ

structure DeadLetterEntry where
  message : Message
  failedAt : ℤ
  failureCause : Bytes
  attempts : ℤ
  deriving DecidableEq

structure DeadLetterQueue where
  entries : AList fun _ : Bytes ↦ DeadLetterEntry
  /-- First in, first out. -/
  order : List Bytes
  maxSize : ℤ
  order_perm : order.Perm entries.keys
  keyed : ∀ e ∈ entries.entries, e.2.message.id = e.1

namespace DeadLetterQueue

def newDeadLetterQueue (maxSize : ℤ) : DeadLetterQueue where
  entries := ∅
  order := []
  maxSize := if maxSize ≤ 0 then 50000 else maxSize
  order_perm := List.Perm.refl _
  keyed := by simp

def len (dlq : DeadLetterQueue) : ℕ := dlq.entries.entries.length

theorem order_nodup (dlq : DeadLetterQueue) : dlq.order.Nodup :=
  dlq.order_perm.nodup_iff.mpr dlq.entries.keys_nodup

/-- Drop an identifier from both components. The loop of `Remove` deletes the first occurrence in
`order`. -/
def drop (dlq : DeadLetterQueue) (id : Bytes) : DeadLetterQueue :=
  { dlq with
    entries := dlq.entries.erase id
    order := dlq.order.eraseP fun oid ↦ oid = id
    order_perm := eraseP_perm_keys_erase dlq.order_perm id
    keyed := fun e he ↦ dlq.keyed e ((List.kerase_sublist _ _).subset he) }

/-- The eviction at the start of `Add`: the head of `order`, once the map has reached `maxSize`. -/
def evict (dlq : DeadLetterQueue) : DeadLetterQueue :=
  if dlq.maxSize ≤ dlq.len then
    match dlq.order with
    | [] => dlq
    | oldestID :: _ => dlq.drop oldestID
  else dlq

/-- Store an entry under the identifier of its message, appending the identifier to `order` when it
is new. -/
def store (dlq : DeadLetterQueue) (entry : DeadLetterEntry) : DeadLetterQueue :=
  { dlq with
    order := if entry.message.id ∈ dlq.entries then dlq.order else dlq.order ++ [entry.message.id]
    entries := dlq.entries.insert entry.message.id entry
    order_perm := by
      split
      · rename_i h
        exact dlq.order_perm.trans (keys_insert_of_mem_perm h).symm
      · rename_i h
        rw [keys_insert_of_notMem h]
        exact (List.perm_append_singleton _ _).trans (dlq.order_perm.cons _)
    keyed := by
      intro e he
      rw [AList.entries_insert, List.mem_cons] at he
      rcases he with rfl | he
      · rfl
      · exact dlq.keyed e ((List.kerase_sublist _ _).subset he) }

/-- `Add` at time `now`. -/
def add (dlq : DeadLetterQueue) (msg : Message) (cause : Bytes) (now : ℤ) : DeadLetterQueue :=
  dlq.evict.store ⟨msg.clone, now, cause, msg.retryCount⟩

def remove (dlq : DeadLetterQueue) (id : Bytes) : Option (Message × DeadLetterQueue) :=
  (dlq.entries.lookup id).map fun entry ↦ (entry.message, dlq.drop id)

def purge (dlq : DeadLetterQueue) : ℕ × DeadLetterQueue :=
  (dlq.len, { dlq with
    entries := ∅
    order := []
    order_perm := List.Perm.refl _
    keyed := by simp })

/-- The loop of `List`: so many rounds, from position `i`. An index out of range brings the process
down. -/
def listLoop (dlq : DeadLetterQueue) : ℕ → ℤ → Option (List DeadLetterEntry)
  | 0, _ => some []
  | n + 1, i =>
      if i < 0 then none
      else
        dlq.order[i.toNat]?.bind fun id ↦
          (dlq.listLoop n (i + 1)).map fun result ↦
            match dlq.entries.lookup id with
            | some entry => entry :: result
            | none => result

/-- `List`. So does a slice of negative capacity. -/
def list (dlq : DeadLetterQueue) (offset limit : ℤ) : Option (List DeadLetterEntry) :=
  let total : ℤ := dlq.order.length
  if total ≤ offset then some []
  else
    let stop := if total < wrap64 (offset + limit) then total else wrap64 (offset + limit)
    if wrap64 (stop - offset) < 0 then none
    else dlq.listLoop (wrap64 (stop - offset)).toNat offset

theorem mem_entries_add {dlq : DeadLetterQueue} {msg : Message} {cause : Bytes} {now : ℤ}
    {e : (_ : Bytes) × DeadLetterEntry} (he : e ∈ (dlq.add msg cause now).entries.entries) :
    e = ⟨msg.id, ⟨msg.clone, now, cause, msg.retryCount⟩⟩ ∨ e ∈ dlq.entries.entries := by
  rw [add, store, AList.entries_insert, List.mem_cons] at he
  refine he.imp id fun he ↦ ?_
  have hevict : e ∈ dlq.evict.entries.entries := (List.kerase_sublist _ _).subset he
  rw [evict] at hevict
  split at hevict
  · split at hevict
    · exact hevict
    · exact (List.kerase_sublist _ _).subset hevict
  · exact hevict

/-! ## The identifiers held -/

/-- Identifiers of the messages in the queue. -/
def ids (dlq : DeadLetterQueue) : List Bytes := dlq.entries.entries.map fun e ↦ e.2.message.id

theorem ids_eq_keys (dlq : DeadLetterQueue) : dlq.ids = dlq.entries.keys := by
  rw [ids, AList.keys, List.keys]
  exact List.map_congr_left dlq.keyed

@[simp] theorem ids_newDeadLetterQueue (maxSize : ℤ) : (newDeadLetterQueue maxSize).ids = [] := rfl

@[simp] theorem ids_purge (dlq : DeadLetterQueue) : dlq.purge.2.ids = [] := rfl

theorem ids_add {dlq : DeadLetterQueue} {msg : Message} (hid : msg.id ∉ dlq.ids)
    (hlen : dlq.len < dlq.maxSize) (cause : Bytes) (now : ℤ) :
    (dlq.add msg cause now).ids = msg.id :: dlq.ids := by
  have hevict : dlq.evict = dlq := if_neg (not_le.mpr hlen)
  rw [ids_eq_keys] at hid
  rw [ids_eq_keys, ids_eq_keys, add, hevict]
  exact keys_insert_of_notMem (mt AList.mem_keys.mp hid)

theorem ids_remove_perm {dlq dlq' : DeadLetterQueue} {id : Bytes} {msg : Message}
    (h : dlq.remove id = some (msg, dlq')) : msg.id = id ∧ (id :: dlq'.ids).Perm dlq.ids := by
  rw [remove, Option.map_eq_some_iff] at h
  obtain ⟨entry, hentry, heq⟩ := h
  rw [Prod.mk.injEq] at heq
  obtain ⟨rfl, rfl⟩ := heq
  have hmem : (⟨id, entry⟩ : (_ : Bytes) × DeadLetterEntry) ∈ dlq.entries.entries :=
    AList.mem_lookup_iff.mp hentry
  refine ⟨dlq.keyed _ hmem, ?_⟩
  rw [ids_eq_keys, ids_eq_keys]
  exact keys_erase_perm (mem_of_lookup_eq_some hentry)

end DeadLetterQueue

end VortexMQ
