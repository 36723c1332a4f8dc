import VortexMQ.Basic.Journal
import VortexMQ.Basic.Run
import VortexMQ.Queue.DeadLetter

/-!
# The order of the dead letters

The dead letter queue keeps a map and a slice in step by hand. That the two agree is part of the
structure; here it is shown for any sequence of calls that the slice has the entries in the order in
which they arrived, that their number is bounded, and that `List` pages through them.

An entry that is stored again keeps its place, unless it is the oldest one of a full queue: then it
is evicted first, and comes back as the latest.
-/

namespace VortexMQ

namespace DeadLetterQueue

variable {dlq : DeadLetterQueue} {id : Bytes}

theorem mem_order_iff (dlq : DeadLetterQueue) (id : Bytes) :
    id ∈ dlq.order ↔ id ∈ dlq.entries :=
  dlq.order_perm.mem_iff.trans AList.mem_keys

theorem length_order (dlq : DeadLetterQueue) : dlq.order.length = dlq.len := by
  rw [dlq.order_perm.length_eq, AList.keys, List.keys, List.length_map, len]

/-! ## Pages -/

theorem exists_entry (h : id ∈ dlq.order) :
    ∃ entry, dlq.entries.lookup id = some entry ∧ entry.message.id = id := by
  obtain ⟨entry, hentry⟩ := Option.isSome_iff_exists.mp
    (AList.lookup_isSome.mpr ((dlq.mem_order_iff id).mp h))
  exact ⟨entry, hentry, dlq.keyed _ (AList.mem_lookup_iff.mp hentry)⟩

private theorem listLoop_eq (dlq : DeadLetterQueue) : ∀ (n i : ℕ), i + n ≤ dlq.order.length →
    ∃ page, dlq.listLoop n i = some page ∧
      page.map some = ((dlq.order.drop i).take n).map dlq.entries.lookup := by
  intro n
  induction n with
  | zero =>
    intro i _
    exact ⟨[], rfl, by rw [List.take_zero]; rfl⟩
  | succ n ih =>
    intro i hi
    have hlt : i < dlq.order.length := by omega
    obtain ⟨page, hpage, hmap⟩ := ih (i + 1) (by omega)
    obtain ⟨entry, hentry, -⟩ := exists_entry (List.getElem_mem hlt)
    refine ⟨entry :: page, ?_, ?_⟩
    · rw [listLoop, if_neg (Int.natCast_nonneg i).not_gt, Int.toNat_natCast,
        List.getElem?_eq_getElem hlt, Option.bind_some, show (i : ℤ) + 1 = (i + 1 : ℕ) from rfl,
        hpage]
      simp only [Option.map_some, hentry]
    · rw [List.drop_eq_getElem_cons hlt, List.take_succ_cons, List.map_cons, List.map_cons, hmap,
        hentry]

/-- A page has the entries at the positions from `offset` up to `offset + limit` that exist. -/
theorem list_eq (dlq : DeadLetterQueue) {offset limit : ℤ} (hoffset : 0 ≤ offset)
    (hlimit : 0 ≤ limit) (hfits : offset + limit < 2 ^ 63) :
    ∃ page, dlq.list offset limit = some page ∧ page.map some
      = ((dlq.order.drop offset.toNat).take limit.toNat).map dlq.entries.lookup := by
  obtain ⟨o, rfl⟩ := Int.eq_ofNat_of_zero_le hoffset
  obtain ⟨l, rfl⟩ := Int.eq_ofNat_of_zero_le hlimit
  have hwrap : wrap64 ((o : ℤ) + l) = o + l := wrap64_of_mem (by omega) hfits
  simp only [list, hwrap, Int.toNat_natCast]
  split
  · rename_i hpast
    refine ⟨[], rfl, ?_⟩
    rw [List.drop_of_length_le (by omega), List.take_nil]
    rfl
  · rename_i hstart
    -- the number of rounds is the limit, or what is left
    have hrounds : wrap64 ((if (dlq.order.length : ℤ) < o + l then (dlq.order.length : ℤ)
        else o + l) - o) = (min l (dlq.order.length - o) : ℕ) := by
      rw [wrap64_of_mem]
      · split <;> omega
      · split <;> omega
      · split <;> omega
    rw [hrounds, if_neg (Int.natCast_nonneg _).not_gt, Int.toNat_natCast]
    obtain ⟨page, hpage, hmap⟩ := dlq.listLoop_eq (min l (dlq.order.length - o)) o (by omega)
    refine ⟨page, hpage, ?_⟩
    rw [hmap, ← List.length_drop, ← List.take_take, List.take_length]

private theorem exists_pages (dlq : DeadLetterQueue) (limit : ℕ) : ∀ k : ℕ, k * limit < 2 ^ 63 →
    ∃ pages : List (List DeadLetterEntry),
      pages.map some = (List.range k).map (fun i ↦ dlq.list (i * limit : ℕ) limit) ∧
      pages.flatten.map some = (dlq.order.take (k * limit)).map dlq.entries.lookup := by
  intro k
  induction k with
  | zero =>
    intro _
    exact ⟨[], rfl, by rw [Nat.zero_mul, List.take_zero]; rfl⟩
  | succ k ih =>
    intro hfits
    rw [Nat.succ_mul] at hfits
    obtain ⟨pages, hpages, hmap⟩ := ih (by omega)
    obtain ⟨page, hpage, hentries⟩ := dlq.list_eq (Int.natCast_nonneg (k * limit))
      (Int.natCast_nonneg limit) (by exact_mod_cast hfits)
    refine ⟨pages ++ [page], ?_, ?_⟩
    · rw [List.map_append, hpages, List.range_succ, List.map_append, List.map_singleton,
        List.map_singleton, hpage]
    · rw [List.flatten_append, List.map_append, hmap, List.flatten_singleton, hentries,
        Nat.succ_mul, List.take_add, List.map_append, Int.toNat_natCast, Int.toNat_natCast]

/-- Entries that are looked up have the identifiers under which they are found. -/
theorem map_id_of_lookup {entries : List DeadLetterEntry}
    (h : entries.map some = dlq.order.map dlq.entries.lookup) :
    entries.map (fun entry ↦ entry.message.id) = dlq.order := by
  have hids := congrArg (List.map (Option.map fun entry ↦ entry.message.id)) h
  rw [List.map_map, List.map_map] at hids
  have hlookup : dlq.order.map (Option.map (fun entry ↦ entry.message.id) ∘ dlq.entries.lookup)
      = dlq.order.map some := by
    refine List.map_congr_left fun id hid ↦ ?_
    obtain ⟨entry, hentry, heq⟩ := exists_entry hid
    rw [Function.comp_apply, hentry, Option.map_some, heq]
  rw [hlookup] at hids
  refine List.map_injective_iff.mpr (Option.some_injective _) ?_
  rw [List.map_map]
  exact hids

/-! ## Calls -/

inductive Call where
  | add (msg : Message) (cause : Bytes) (now : ℤ)
  | remove (id : Bytes)
  | purge
  | list (offset limit : ℤ)

def losses (before after : DeadLetterQueue) : List Bytes :=
  before.order.filter fun id ↦ id ∉ after.entries

/-- A queue, and the journal of what came in and what went out. -/
structure Archive where
  dlq : DeadLetterQueue
  journal : List (Journal.Event Bytes)

namespace Archive

open Journal (Event)

/-- A new queue. -/
def start (maxSize : ℤ) : Archive := ⟨newDeadLetterQueue maxSize, []⟩

/-- What has been lost on the way to another state of the queue is recorded. -/
def lose (s : Archive) (dlq : DeadLetterQueue) : Archive :=
  ⟨dlq, (losses s.dlq dlq).map .removed ++ s.journal⟩

/-- One call. `Add` evicts before it stores. -/
def step (s : Archive) : Call → Option Archive
  | .add msg cause now =>
      some ⟨s.dlq.add msg cause now, .added msg.id :: (s.lose s.dlq.evict).journal⟩
  | .remove id => some ((s.dlq.remove id).elim s fun r ↦ s.lose r.2)
  | .purge => some (s.lose s.dlq.purge.2)
  | .list offset limit => (s.dlq.list offset limit).map fun _ ↦ s

/-- The slice is in the order of arrival, and the bound is kept. -/
structure Tidy (maxSize : ℤ) (s : Archive) : Prop where
  orders : Journal.Orders s.journal s.dlq.order
  len_le : s.dlq.len ≤ s.dlq.maxSize
  maxSize_eq : s.dlq.maxSize = if maxSize ≤ 0 then 50000 else maxSize

private theorem tidy_start (maxSize : ℤ) : Tidy maxSize (start maxSize) := by
  refine ⟨Journal.Orders.nil, ?_, rfl⟩
  change ((0 : ℕ) : ℤ) ≤ if maxSize ≤ 0 then 50000 else maxSize
  split <;> omega

variable {maxSize : ℤ} {s : Archive}

theorem Tidy.maxSize_pos (h : Tidy maxSize s) : 0 < s.dlq.maxSize := by
  rw [h.maxSize_eq]
  split <;> omega

theorem Tidy.lose (h : Tidy maxSize s) {dlq : DeadLetterQueue}
    (hsub : dlq.order.Sublist s.dlq.order) (hsize : dlq.maxSize = s.dlq.maxSize) :
    Tidy maxSize (s.lose dlq) := by
  refine ⟨h.orders.removed hsub fun id hid ↦ ?_, ?_, hsize.trans h.maxSize_eq⟩
  · rw [losses, List.mem_filter, decide_eq_true_eq, and_iff_right hid, not_not]
    exact dlq.mem_order_iff id
  · have hlen := hsub.length_le
    have hle := h.len_le
    rw [length_order, length_order] at hlen
    change (dlq.len : ℤ) ≤ dlq.maxSize
    omega

private theorem sublist_evict (dlq : DeadLetterQueue) : dlq.evict.order.Sublist dlq.order := by
  rw [evict]
  split
  · split
    · exact List.Sublist.refl _
    · exact List.eraseP_sublist
  · exact List.Sublist.refl _

private theorem maxSize_evict (dlq : DeadLetterQueue) : dlq.evict.maxSize = dlq.maxSize := by
  rw [evict]
  split
  · split <;> rfl
  · rfl

theorem order_ne_nil_of_full {dlq : DeadLetterQueue} (hpos : 0 < dlq.maxSize)
    (hfull : dlq.maxSize ≤ dlq.len) : dlq.order ≠ [] := by
  intro hnil
  have hlen := dlq.length_order
  rw [hnil, List.length_nil] at hlen
  omega

private theorem len_evict_lt {dlq : DeadLetterQueue} (hpos : 0 < dlq.maxSize)
    (hle : dlq.len ≤ dlq.maxSize) : dlq.evict.len < dlq.maxSize := by
  rw [evict]
  split
  · rename_i hfull
    split
    · rename_i hnil
      exact absurd hnil (order_ne_nil_of_full hpos hfull)
    · rename_i oldestID rest horder
      have hlen : (dlq.drop oldestID).order.length + 1 = dlq.len := by
        change (dlq.order.eraseP fun oid ↦ oid = oldestID).length + 1 = dlq.len
        rw [← length_order, horder, List.eraseP_cons_of_pos (by simp), List.length_cons]
      rw [length_order] at hlen
      omega
  · rename_i hroom
    exact not_le.mp hroom

theorem Tidy.store (h : Tidy maxSize s) (hroom : s.dlq.len < s.dlq.maxSize)
    (entry : DeadLetterEntry) :
    Tidy maxSize ⟨s.dlq.store entry, .added entry.message.id :: s.journal⟩ := by
  by_cases hmem : entry.message.id ∈ s.dlq.entries
  · have horder : (s.dlq.store entry).order = s.dlq.order := if_pos hmem
    refine ⟨?_, ?_, h.maxSize_eq⟩
    · rw [horder]
      exact h.orders.added_of_mem ((mem_order_iff _ _).mpr hmem)
    · change ((s.dlq.store entry).len : ℤ) ≤ s.dlq.maxSize
      rw [← length_order, horder, length_order]
      exact h.len_le
  · have horder : (s.dlq.store entry).order = s.dlq.order ++ [entry.message.id] := if_neg hmem
    refine ⟨?_, ?_, h.maxSize_eq⟩
    · rw [horder]
      exact h.orders.added_of_notMem (mt (mem_order_iff _ _).mp hmem)
    · change ((s.dlq.store entry).len : ℤ) ≤ s.dlq.maxSize
      rw [← length_order, horder, List.length_append, List.length_singleton, length_order]
      omega

theorem Tidy.step {t : Archive} {call : Call} (hstep : s.step call = some t)
    (h : Tidy maxSize s) : Tidy maxSize t := by
  cases call with
  | add msg cause now =>
    obtain rfl := Option.some_inj.mp hstep
    have hevict := h.lose (sublist_evict s.dlq) (maxSize_evict s.dlq)
    have hroom : s.dlq.evict.len < s.dlq.evict.maxSize := by
      rw [maxSize_evict]
      exact len_evict_lt h.maxSize_pos h.len_le
    exact hevict.store hroom ⟨msg.clone, now, cause, msg.retryCount⟩
  | remove id =>
    obtain rfl := Option.some_inj.mp hstep
    cases hremove : s.dlq.remove id with
    | none => exact h
    | some r =>
      obtain ⟨entry, -, rfl⟩ := Option.map_eq_some_iff.mp hremove
      exact h.lose List.eraseP_sublist rfl
  | purge =>
    obtain rfl := Option.some_inj.mp hstep
    exact h.lose (List.nil_sublist _) rfl
  | list offset limit =>
    obtain ⟨page, -, rfl⟩ := Option.map_eq_some_iff.mp hstep
    exact h

theorem tidy_of_run {calls : List Call}
    (hrun : Run step (fun _ ↦ True) (start maxSize) calls s) : Tidy maxSize s :=
  hrun.invariant (fun _ _ _ _ _ hstep h ↦ Tidy.step hstep h) (tidy_start maxSize)

/-- **The dead letter queue.** After any calls, the slice lists the keys of the map without
repetition, in the order of their first insertion since their last removal; the bound is kept; a
page has the entries at its positions, and consecutive pages list every entry once. -/
theorem invariant_of_run (maxSize : ℤ) (calls : List Call) (s : Archive)
    (hrun : Run step (fun _ ↦ True) (start maxSize) calls s) :
    s.dlq.order.Nodup ∧ (∀ id, id ∈ s.dlq.order ↔ id ∈ s.dlq.entries) ∧
      s.dlq.len ≤ s.dlq.maxSize ∧ s.dlq.maxSize = (if maxSize ≤ 0 then 50000 else maxSize) ∧
      Journal.Orders s.journal s.dlq.order ∧
      (∀ offset limit : ℤ, 0 ≤ offset → 0 ≤ limit → offset + limit < 2 ^ 63 →
        ∃ page, s.dlq.list offset limit = some page ∧ page.map some
          = ((s.dlq.order.drop offset.toNat).take limit.toNat).map s.dlq.entries.lookup) ∧
      ∀ limit k : ℕ, s.dlq.order.length ≤ k * limit → k * limit < 2 ^ 63 →
        ∃ pages : List (List DeadLetterEntry),
          pages.map some = (List.range k).map (fun i ↦ s.dlq.list (i * limit : ℕ) limit) ∧
          pages.flatten.map some = s.dlq.order.map s.dlq.entries.lookup ∧
          pages.flatten.map (fun entry ↦ entry.message.id) = s.dlq.order := by
  have htidy := tidy_of_run hrun
  refine ⟨s.dlq.order_nodup, s.dlq.mem_order_iff, htidy.len_le, htidy.maxSize_eq, htidy.orders,
    fun offset limit ↦ s.dlq.list_eq, fun limit k hall hfits ↦ ?_⟩
  obtain ⟨pages, hpages, hmap⟩ := s.dlq.exists_pages limit k hfits
  rw [List.take_of_length_le hall] at hmap
  exact ⟨pages, hpages, hmap, map_id_of_lookup hmap⟩

/-- A queue for two entries: the oldest one is added again, and evicted on the way. -/
theorem invariant_of_run_evicted :
    ∃ s, Run step (fun _ ↦ True) (start 2)
        [.add (Message.newMessage [] none 0 1 []) [] 0,
          .add (Message.newMessage [] none 0 2 []) [] 0,
          .add (Message.newMessage [] none 0 1 []) [] 0] s ∧
      s.dlq.order = [bytesOf "0-2-", bytesOf "0-1-"] ∧
      Journal.Orders s.journal s.dlq.order := by
  have hsome : (Run.exec step (fun _ ↦ True) (start 2)
      [.add (Message.newMessage [] none 0 1 []) [] 0, .add (Message.newMessage [] none 0 2 []) [] 0,
        .add (Message.newMessage [] none 0 1 []) [] 0]).isSome := by decide +kernel
  have hrun := Run.of_exec (Option.some_get hsome).symm
  refine ⟨_, hrun, hrun.of_exec_map (f := fun s ↦ s.dlq.order) (by decide +kernel), ?_⟩
  exact (invariant_of_run 2 _ _ hrun).2.2.2.2.1

end Archive

/-! ## Evictions -/

private theorem lookup_evict (dlq : DeadLetterQueue) (id : Bytes) :
    dlq.evict.entries.lookup id =
      if dlq.maxSize ≤ dlq.len ∧ dlq.order.head? = some id then none
      else dlq.entries.lookup id := by
  rw [evict]
  split
  · rename_i hfull
    simp only [hfull, true_and]
    cases horder : dlq.order with
    | nil => exact (if_neg fun h ↦ Option.some_ne_none id h.symm).symm
    | cons oldestID rest =>
      simp only [List.head?_cons, Option.some_inj]
      by_cases hid : oldestID = id
      · rw [if_pos hid, ← hid]
        exact AList.lookup_erase _ _
      · rw [if_neg hid]
        exact AList.lookup_erase_ne (Ne.symm hid)
  · rename_i hroom
    rw [if_neg fun h ↦ hroom h.1]

private theorem lookup_add_self (dlq : DeadLetterQueue) (msg : Message) (cause : Bytes) (now : ℤ) :
    (dlq.add msg cause now).entries.lookup msg.id =
      some ⟨msg.clone, now, cause, msg.retryCount⟩ :=
  AList.lookup_insert _

theorem lookup_add_of_ne {dlq : DeadLetterQueue} {msg : Message} {id : Bytes} (h : id ≠ msg.id)
    (cause : Bytes) (now : ℤ) :
    (dlq.add msg cause now).entries.lookup id =
      if dlq.maxSize ≤ dlq.len ∧ dlq.order.head? = some id then none
      else dlq.entries.lookup id :=
  (AList.lookup_insert_ne h).trans (dlq.lookup_evict id)

/-- What `Add` should do: another entry goes only for one that is new, when the queue is full, and
then it is the one in front. -/
structure EvictsOnlyIfNeeded (dlq : DeadLetterQueue) (msg : Message) (cause : Bytes) (now : ℤ) :
    Prop where
  stored : (dlq.add msg cause now).entries.lookup msg.id =
    some ⟨msg.clone, now, cause, msg.retryCount⟩
  /-- Who is missing afterwards. -/
  lost : ∀ id ≠ msg.id, id ∈ dlq.entries → id ∉ (dlq.add msg cause now).entries →
    msg.id ∉ dlq.entries ∧ dlq.maxSize ≤ dlq.len ∧ dlq.order.head? = some id
  evicted : msg.id ∉ dlq.entries → dlq.maxSize ≤ dlq.len →
    ∃ id, dlq.order.head? = some id ∧ id ∉ (dlq.add msg cause now).entries
  kept : ∀ id ≠ msg.id, id ∈ (dlq.add msg cause now).entries →
    (dlq.add msg cause now).entries.lookup id = dlq.entries.lookup id

private theorem notMem_add_iff {dlq : DeadLetterQueue} {msg : Message} {id : Bytes}
    (h : id ≠ msg.id) (hmem : id ∈ dlq.entries) (cause : Bytes) (now : ℤ) :
    id ∉ (dlq.add msg cause now).entries ↔
      dlq.maxSize ≤ dlq.len ∧ dlq.order.head? = some id := by
  rw [← AList.lookup_eq_none, lookup_add_of_ne h]
  split
  · rename_i hevict
    exact iff_of_true rfl hevict
  · rename_i hkeep
    refine iff_of_false (fun hnone ↦ ?_) hkeep
    exact AList.lookup_eq_none.mp hnone hmem

private theorem exists_oldest {dlq : DeadLetterQueue} (hne : dlq.order ≠ []) :
    ∃ oldestID, dlq.order.head? = some oldestID ∧ oldestID ∈ dlq.entries := by
  obtain ⟨oldestID, rest, horder⟩ := List.exists_cons_of_ne_nil hne
  refine ⟨oldestID, by rw [horder]; rfl, (dlq.mem_order_iff oldestID).mp ?_⟩
  rw [horder]
  exact List.mem_cons_self

theorem evictsOnlyIfNeeded_iff {dlq : DeadLetterQueue} (hpos : 0 < dlq.maxSize) (msg : Message)
    (cause : Bytes) (now : ℤ) :
    dlq.EvictsOnlyIfNeeded msg cause now ↔
      msg.id ∉ dlq.entries ∨ dlq.len < dlq.maxSize ∨ dlq.order.head? = some msg.id := by
  constructor
  · intro h
    by_contra hbad
    rw [not_or, not_or, not_not, not_lt] at hbad
    obtain ⟨hmem, hfull, hhead⟩ := hbad
    obtain ⟨oldestID, holdest, hold⟩ :=
      exists_oldest (List.ne_nil_of_mem ((dlq.mem_order_iff msg.id).mpr hmem))
    have hne : oldestID ≠ msg.id := fun heq ↦ hhead (heq ▸ holdest)
    -- the oldest entry makes room for a message that needs none
    have hgone := (notMem_add_iff hne hold cause now).mpr ⟨hfull, holdest⟩
    exact (h.lost oldestID hne hold hgone).1 hmem
  · intro hcond
    refine ⟨dlq.lookup_add_self msg cause now, ?_, ?_, ?_⟩
    · intro id hne hmem hgone
      obtain ⟨hfull, hhead⟩ := (notMem_add_iff hne hmem cause now).mp hgone
      refine ⟨?_, hfull, hhead⟩
      rcases hcond with hnew | hroom | hself
      · exact hnew
      · exact absurd hfull (not_le.mpr hroom)
      · exact absurd (Option.some_inj.mp (hhead.symm.trans hself)) hne
    · intro hnew hfull
      obtain ⟨oldestID, hhead, hold⟩ := exists_oldest (Archive.order_ne_nil_of_full hpos hfull)
      exact ⟨oldestID, hhead,
        (notMem_add_iff (ne_of_mem_of_not_mem hold hnew) hold cause now).mpr ⟨hfull, hhead⟩⟩
    · intro id hne hmem
      rw [lookup_add_of_ne hne]
      refine if_neg fun hevict ↦ ?_
      have hnone := AList.lookup_isSome.mpr hmem
      rw [lookup_add_of_ne hne, if_pos hevict] at hnone
      exact Bool.false_ne_true hnone

namespace Archive

/-- **Evictions.** After any calls the identifier in front is the oldest. Then `Add` takes out
another entry only if it has to exactly if the message is not in the queue, or the queue is not
full, or the message is the oldest one itself. -/
theorem evictsOnlyIfNeeded_of_run_iff (maxSize : ℤ) (calls : List Call) (s : Archive)
    (hrun : Run step (fun _ ↦ True) (start maxSize) calls s) (msg : Message) (cause : Bytes)
    (now : ℤ) :
    (∀ oldest, s.dlq.order.head? = some oldest → ∀ id ∈ s.dlq.entries, id ≠ oldest →
      Journal.Older s.journal oldest id) ∧
    (s.dlq.EvictsOnlyIfNeeded msg cause now ↔
      msg.id ∉ s.dlq.entries ∨ s.dlq.len < s.dlq.maxSize ∨
        s.dlq.order.head? = some msg.id) := by
  have htidy := tidy_of_run hrun
  refine ⟨fun oldest hhead id hid hne ↦ ?_,
    evictsOnlyIfNeeded_iff htidy.maxSize_pos msg cause now⟩
  obtain ⟨rest, horder⟩ := List.head?_eq_some_iff.mp hhead
  have hpairwise := htidy.orders.pairwise
  rw [horder, List.pairwise_cons] at hpairwise
  have hmem := (s.dlq.mem_order_iff id).mpr hid
  rw [horder] at hmem
  exact hpairwise.1 id ((List.mem_cons.mp hmem).resolve_left hne)

/-- A full queue for two entries, and a third message. -/
theorem evictsOnlyIfNeeded_of_run_third :
    ∃ s, Run step (fun _ ↦ True) (start 2)
        [.add (Message.newMessage [] none 0 1 []) [] 0,
          .add (Message.newMessage [] none 0 2 []) [] 0] s ∧
      s.dlq.len = 2 ∧
      s.dlq.EvictsOnlyIfNeeded (Message.newMessage [] none 0 3 []) [] 0 := by
  have hsome : (Run.exec step (fun _ ↦ True) (start 2)
      [.add (Message.newMessage [] none 0 1 []) [] 0,
        .add (Message.newMessage [] none 0 2 []) [] 0]).isSome := by decide +kernel
  have hrun := Run.of_exec (Option.some_get hsome).symm
  have hnew : bytesOf "0-3-" ∉ (Option.get _ hsome).dlq.entries := of_decide_eq_true
    (hrun.of_exec_map (f := fun s ↦ decide (bytesOf "0-3-" ∉ s.dlq.entries)) (by decide +kernel))
  refine ⟨_, hrun, hrun.of_exec_map (f := fun s ↦ s.dlq.len) (by decide +kernel), ?_⟩
  exact (evictsOnlyIfNeeded_of_run_iff 2 _ _ hrun _ [] 0).2.mpr (Or.inl hnew)

/-- Two entries in a queue for two. The second message is added again, and the first one is lost
although there is nothing to make room for. -/
theorem evicts_for_known_message :
    ∃ s, Run step (fun _ ↦ True) (start 2)
        [.add (Message.newMessage [] none 0 1 []) [] 0,
          .add (Message.newMessage [] none 0 2 []) [] 0] s ∧
      s.dlq.order = [bytesOf "0-1-", bytesOf "0-2-"] ∧
      (s.dlq.add (Message.newMessage [] none 0 2 []) [] 1).order = [bytesOf "0-2-"] ∧
      ¬s.dlq.EvictsOnlyIfNeeded (Message.newMessage [] none 0 2 []) [] 1 := by
  have hsome : (Run.exec step (fun _ ↦ True) (start 2)
      [.add (Message.newMessage [] none 0 1 []) [] 0,
        .add (Message.newMessage [] none 0 2 []) [] 0]).isSome := by decide +kernel
  have hrun := Run.of_exec (Option.some_get hsome).symm
  have horder := hrun.of_exec_map (f := fun s ↦ s.dlq.order)
    (a := [bytesOf "0-1-", bytesOf "0-2-"]) (by decide +kernel)
  have hsize := hrun.of_exec_map (f := fun s ↦ (s.dlq.len, s.dlq.maxSize)) (a := (2, 2))
    (by decide +kernel)
  obtain ⟨hlen, hmax⟩ := Prod.mk.inj hsize
  refine ⟨_, hrun, horder, hrun.of_exec_map
    (f := fun s ↦ (s.dlq.add (Message.newMessage [] none 0 2 []) [] 1).order)
    (a := [bytesOf "0-2-"]) (by decide +kernel), fun h ↦ ?_⟩
  rcases (evictsOnlyIfNeeded_iff (by rw [hmax]; decide) _ _ _).mp h with hnew | hroom | holdest
  · refine hnew ((mem_order_iff _ _).mp ?_)
    rw [horder]
    exact List.mem_cons_of_mem _ (List.mem_singleton_self _)
  · rw [hlen, hmax] at hroom
    exact lt_irrefl _ hroom
  · rw [horder] at holdest
    exact absurd holdest (by decide)

end Archive

end DeadLetterQueue

end VortexMQ
