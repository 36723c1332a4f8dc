import VortexMQ.Basic.ListPerm
import VortexMQ.Wal.Log

/-!
# The log as segments of records

What a log directory is for: each segment is a list of records, possibly followed by a partial one
that a crash has left. `SegmentLog` is this abstract picture, and `Directory.Represents` says that
the files spell it out byte by byte. A session represents a log when the directory would do so with
the session's buffer flushed; the moments at which buffers are actually flushed then drop out of
every argument.

Two facts tie the picture to `Replay`. Reading a represented directory yields the messages of the
complete records, segment by segment; and the order of the segments is that of their numbers as
long as the numbers have six digits.
-/

namespace VortexMQ

/-! ## Segment names -/

theorem segName_injective : Function.Injective segName := by
  intro m n h
  rw [segName, segName] at h
  exact Decimal.padded_injective 6 (List.append_cancel_left (List.append_cancel_right h))

private theorem segName_lt_segName {m n : ℕ} (hn : n < 10 ^ 6) (h : m < n) :
    segName m < segName n := by
  have hlen : (Decimal.padded 6 m).length = (Decimal.padded 6 n).length := by
    rw [Decimal.length_padded (by decide) (h.trans hn), Decimal.length_padded (by decide) hn]
  rw [segName, segName, List.append_assoc, List.append_assoc]
  exact List.append_left_lt (Decimal.append_lt_append hlen
    (Decimal.padded_lt_padded (by decide) hn h) _ _)

theorem isSegment_segName (n : ℕ) : Directory.IsSegment (segName n) := by
  refine ⟨?_, List.suffix_append _ _, ?_⟩
  · rw [segName, List.append_assoc]
    exact List.prefix_append _ _
  · have hpre : (bytesOf "vortexmq_").length = 9 := by decide
    have hsuf : (bytesOf ".wal").length = 4 := by decide
    rw [segName, List.length_append, List.length_append, hpre, hsuf]
    omega

theorem segName_one : segName 1 = bytesOf "vortexmq_000001.wal" := by decide

/-! ## Files -/

namespace Directory

variable {d : Directory} {name name' p : Bytes}

theorem content_insert_self (d : Directory) (name p : Bytes) :
    content (d.insert name p) name = p := by
  rw [content, AList.lookup_insert, Option.getD_some]

theorem content_insert_of_ne (h : name' ≠ name) :
    content (d.insert name p) name' = d.content name' := by
  rw [content, AList.lookup_insert_ne h, content]

theorem content_append_self (d : Directory) (name p : Bytes) :
    (d.append name p).content name = d.content name ++ p := content_insert_self _ _ _

theorem content_append_of_ne (h : name' ≠ name) :
    (d.append name p).content name' = d.content name' := content_insert_of_ne h

theorem content_append (d : Directory) (name p name' : Bytes) :
    (d.append name p).content name' = d.content name' ++ if name' = name then p else [] := by
  by_cases hn : name' = name
  · subst hn
    rw [if_pos rfl, content_append_self]
  · rw [if_neg hn, List.append_nil, content_append_of_ne hn]

theorem content_eq_nil_of_notMem (h : name ∉ d) : d.content name = [] := by
  rw [content, AList.lookup_eq_none.mpr h, Option.getD_none]

theorem content_create (d : Directory) (name name' : Bytes) :
    (d.create name).content name' = d.content name' := by
  rw [create]
  split
  · rfl
  · rename_i h
    by_cases hn : name' = name
    · subst hn
      rw [content_insert_self, content_eq_nil_of_notMem h]
    · exact content_insert_of_ne hn

theorem keys_append_perm (h : name ∈ d) (p : Bytes) : (d.append name p).keys.Perm d.keys :=
  keys_insert_of_mem_perm h

theorem glob_perm {ns : List ℕ} (h : d.keys.Perm (ns.map segName)) :
    d.glob.Perm (ns.map segName) := by
  refine (List.perm_insertionSort _ _).trans ?_
  rw [List.filter_eq_self.mpr]
  · exact h
  · intro name hname
    obtain ⟨n, -, rfl⟩ := List.mem_map.mp (h.mem_iff.mp hname)
    exact decide_eq_true (isSegment_segName n)

/-- Below a million segments, the order of the names is the order of the numbers. -/
theorem pairwise_segName {count : ℕ} (hcount : count < 10 ^ 6) :
    ((List.range' 1 count).map segName).Pairwise (· ≤ ·) := by
  refine List.Pairwise.map segName (fun m n hmn ↦ hmn) ?_
  refine (List.pairwise_lt_range' (s := 1) (n := count)).imp_of_mem ?_
  intro m n _ hn hmn
  have hn' : n < 10 ^ 6 := by
    have := List.mem_range'_1.mp hn
    omega
  exact List.le_of_lt (segName_lt_segName hn' hmn)

theorem glob_eq {count : ℕ} (h : d.keys.Perm ((List.range' 1 count).map segName))
    (hcount : count < 10 ^ 6) : d.glob = (List.range' 1 count).map segName :=
  List.Perm.eq_of_pairwise (fun _ _ _ _ ↦ List.le_antisymm) (List.pairwise_insertionSort _ _)
    (pairwise_segName hcount) (glob_perm h)

end Directory

/-! ## The abstract log -/

/-- Segments of records. Segments are numbered from one; those past `count` do not exist. -/
structure SegmentLog where
  records : ℕ → List Record
  /-- What a crash has left behind the last complete record. -/
  torn : ℕ → Bytes
  count : ℕ
  readRecord_torn : ∀ n, readRecord (torn n) = none

namespace SegmentLog

/-- Nothing has been written. -/
def empty : SegmentLog := ⟨fun _ ↦ [], fun _ ↦ [], 0, fun _ ↦ rfl⟩

variable (L : SegmentLog)

/-- The numbers of the segments. -/
def numbers : List ℕ := List.range' 1 L.count

/-- Add a record to a segment. -/
def append (id : ℕ) (r : Record) : SegmentLog :=
  { L with records := Function.update L.records id (L.records id ++ [r]) }

/-- Open a segment, which may be a new one. -/
def extend (id : ℕ) : SegmentLog := { L with count := max L.count id }

/-- Leave a partial record in a segment. -/
def tear (id : ℕ) (p : Bytes) (hp : readRecord p = none) : SegmentLog :=
  { L with
    torn := Function.update L.torn id p
    readRecord_torn := by
      intro n
      by_cases hn : n = id
      · subst hn
        rwa [Function.update_self]
      · rw [Function.update_of_ne hn]
        exact L.readRecord_torn n }

/-- The messages in a segment. -/
def messagesIn (c : Codec) (n : ℕ) : List Message :=
  (L.records n).filterMap fun r ↦ delivered c (r.op, r.payload)

/-- All messages, segment by segment. -/
def messages (c : Codec) : List Message := L.numbers.flatMap (L.messagesIn c)

variable {L}

theorem mem_numbers {n : ℕ} : n ∈ L.numbers ↔ 1 ≤ n ∧ n ≤ L.count := by
  rw [numbers, List.mem_range'_1]
  omega

theorem extend_of_le {id : ℕ} (h : id ≤ L.count) : L.extend id = L := by
  rw [extend, Nat.max_eq_left h]

theorem flatMap_numbers {β : Type*} {f : ℕ → List β} {id : ℕ} (hle : id ≤ L.count)
    (habove : ∀ n, id < n → f n = []) : L.numbers.flatMap f = (List.range' 1 id).flatMap f := by
  have hsplit : L.numbers = List.range' 1 id ++ List.range' (1 + id) (L.count - id) := by
    rw [numbers, List.range'_append_1, Nat.add_sub_cancel' hle]
  have hrest : (List.range' (1 + id) (L.count - id)).flatMap f = [] := by
    refine List.flatMap_eq_nil_iff.mpr fun n hn ↦ habove n ?_
    have := (List.mem_range'_1.mp hn).1
    omega
  rw [hsplit, List.flatMap_append, hrest, List.append_nil]

theorem flatMap_numbers_extend {β : Type*} {f : ℕ → List β} (id : ℕ)
    (habove : ∀ n, L.count < n → f n = []) :
    (L.extend id).numbers.flatMap f = L.numbers.flatMap f :=
  flatMap_numbers (L := L.extend id) (Nat.le_max_left _ _) habove

theorem flatMap_numbers_concat {β : Type*} {f g : ℕ → List β} {b : List β} {id : ℕ}
    (hpos : 1 ≤ id) (hle : id ≤ L.count) (hsame : ∀ n, n ≠ id → g n = f n)
    (hlast : g id = f id ++ b) (habove : ∀ n, id < n → f n = []) :
    L.numbers.flatMap g = L.numbers.flatMap f ++ b := by
  obtain ⟨k, rfl⟩ : ∃ k, id = k + 1 := ⟨id - 1, (Nat.sub_add_cancel hpos).symm⟩
  have hg : ∀ n, k + 1 < n → g n = [] := fun n hn ↦ (hsame n hn.ne').trans (habove n hn)
  have hbelow : (List.range' 1 k).flatMap g = (List.range' 1 k).flatMap f := by
    refine List.flatMap_congr fun n hn ↦ hsame n ?_
    have := List.mem_range'_1.mp hn
    omega
  rw [flatMap_numbers hle hg, flatMap_numbers hle habove, List.range'_1_concat, Nat.add_comm 1 k,
    List.flatMap_append, List.flatMap_append, List.flatMap_singleton, List.flatMap_singleton,
    hbelow, hlast, List.append_assoc]

@[simp] theorem records_append_self (id : ℕ) (r : Record) :
    (L.append id r).records id = L.records id ++ [r] := Function.update_self ..

theorem records_append_of_ne {id n : ℕ} (h : n ≠ id) (r : Record) :
    (L.append id r).records n = L.records n := Function.update_of_ne h ..

theorem messagesIn_append_self (c : Codec) (id : ℕ) (r : Record) :
    (L.append id r).messagesIn c id
      = L.messagesIn c id ++ (delivered c (r.op, r.payload)).toList := by
  rw [messagesIn, records_append_self, List.filterMap_append, messagesIn]
  cases h : delivered c (r.op, r.payload) <;> simp [h]

theorem messagesIn_append_of_ne (c : Codec) {id n : ℕ} (h : n ≠ id) (r : Record) :
    (L.append id r).messagesIn c n = L.messagesIn c n := by
  rw [messagesIn, records_append_of_ne h, messagesIn]

end SegmentLog

/-! ## Representation -/

/-- The files of the directory are the segments of the log. -/
structure Directory.Represents (d : Directory) (L : SegmentLog) : Prop where
  keys : d.keys.Perm (L.numbers.map segName)
  content : ∀ n, d.content (segName n) = recordCode.encodeAll (L.records n) ++ L.torn n

namespace Directory.Represents

variable {d d' : Directory} {L : SegmentLog} {id : ℕ}

theorem mem_iff (h : d.Represents L) : segName id ∈ d ↔ 1 ≤ id ∧ id ≤ L.count := by
  rw [AList.mem_keys, h.keys.mem_iff, List.mem_map_of_injective segName_injective,
    SegmentLog.mem_numbers]

/-- Only the names and the contents matter, not how the directory came about. -/
theorem congr (h : d.Represents L) (hkeys : d'.keys.Perm d.keys)
    (hcontent : ∀ n, d'.content (segName n) = d.content (segName n)) : d'.Represents L :=
  ⟨hkeys.trans h.keys, fun n ↦ (hcontent n).trans (h.content n)⟩

theorem empty : Directory.Represents ∅ SegmentLog.empty := ⟨List.Perm.refl _, fun _ ↦ rfl⟩

theorem append (h : d.Represents L) (hmem : segName id ∈ d) (htorn : L.torn id = []) (r : Record) :
    (d.append (segName id) r.bytes).Represents (L.append id r) := by
  refine ⟨(keys_append_perm hmem _).trans h.keys, fun n ↦ ?_⟩
  by_cases hn : n = id
  · subst hn
    have htorn' : (L.append n r).torn n = [] := htorn
    rw [content_append_self, h.content, htorn, htorn', L.records_append_self, List.append_nil,
      List.append_nil, recordCode.encodeAll_append, recordCode.encodeAll_singleton]
    rfl
  · rw [content_append_of_ne (segName_injective.ne hn), L.records_append_of_ne hn]
    exact h.content n

theorem tear (h : d.Represents L) (hmem : segName id ∈ d) (htorn : L.torn id = []) {p : Bytes}
    (hp : readRecord p = none) : (d.append (segName id) p).Represents (L.tear id p hp) := by
  refine ⟨(keys_append_perm hmem _).trans h.keys, fun n ↦ ?_⟩
  by_cases hn : n = id
  · subst hn
    have htorn' : (L.tear n p hp).torn n = p := Function.update_self ..
    rw [content_append_self, h.content, htorn, htorn', List.append_nil]
    rfl
  · have htorn' : (L.tear id p hp).torn n = L.torn n := Function.update_of_ne hn ..
    rw [content_append_of_ne (segName_injective.ne hn), htorn']
    exact h.content n

theorem create (h : d.Represents L) (hpos : 1 ≤ id) (hle : id ≤ L.count + 1) :
    (d.create (segName id)).Represents (L.extend id) := by
  refine ⟨?_, fun n ↦ (content_create _ _ _).trans (h.content n)⟩
  rcases Nat.lt_or_ge L.count id with hlt | hge
  · obtain rfl : id = L.count + 1 := Nat.le_antisymm hle hlt
    have hnot : segName (L.count + 1) ∉ d := by
      rw [h.mem_iff]
      omega
    have hnumbers : (L.extend (L.count + 1)).numbers = L.numbers ++ [L.count + 1] := by
      rw [SegmentLog.numbers, SegmentLog.numbers, SegmentLog.extend,
        Nat.max_eq_right (Nat.le_succ _), List.range'_1_concat, Nat.add_comm 1]
    rw [Directory.create, if_neg hnot, keys_insert_of_notMem hnot, hnumbers, List.map_append]
    exact (h.keys.cons _).trans (List.perm_append_singleton _ _).symm
  · rw [SegmentLog.extend_of_le hge, Directory.create, if_pos (h.mem_iff.mpr ⟨hpos, hge⟩)]
    exact h.keys

/-! ### Reading -/

theorem glob_perm (h : d.Represents L) : d.glob.Perm (L.numbers.map segName) :=
  Directory.glob_perm h.keys

theorem deliveredFrom_eq (h : d.Represents L) (c : Codec) (n : ℕ) :
    deliveredFrom c (d.content (segName n)) = L.messagesIn c n := by
  rw [h.content, deliveredFrom_encodeAll_append c _ (L.readRecord_torn n)]
  rfl

/-- **Replay of a represented directory**, in order. -/
theorem replay_eq (h : d.Represents L) (hcount : L.count < 10 ^ 6) (c : Codec) :
    replay c d = ((L.messages c).length, L.messages c) := by
  have hmessages : (d.glob.flatMap fun file ↦ deliveredFrom c (d.content file)) = L.messages c := by
    rw [Directory.glob_eq h.keys hcount, List.flatMap_map]
    change L.numbers.flatMap _ = _
    exact List.flatMap_congr fun n _ ↦ h.deliveredFrom_eq c n
  rw [VortexMQ.replay_eq, hmessages]

theorem mem_replay_iff (h : d.Represents L) (c : Codec) (m : Message) :
    m ∈ (replay c d).2 ↔ ∃ n, m ∈ L.messagesIn c n ∧ 1 ≤ n ∧ n ≤ L.count := by
  rw [VortexMQ.replay_eq, List.mem_flatMap]
  constructor
  · rintro ⟨file, hfile, hm⟩
    obtain ⟨n, hn, rfl⟩ := List.mem_map.mp (h.glob_perm.mem_iff.mp hfile)
    exact ⟨n, h.deliveredFrom_eq c n ▸ hm, SegmentLog.mem_numbers.mp hn⟩
  · rintro ⟨n, hm, hn⟩
    refine ⟨segName n, h.glob_perm.mem_iff.mpr ?_, (h.deliveredFrom_eq c n).symm ▸ hm⟩
    exact List.mem_map_of_mem (SegmentLog.mem_numbers.mpr hn)

end Directory.Represents

end VortexMQ
