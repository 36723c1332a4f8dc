import VortexMQ.Queue.TimingWheel

/-!
# The calendar of a timing wheel

What a wheel is for: a calendar that lists, for every number `n`, the messages that `n` more ticks
leave waiting and the next one delivers. An entry is found under `n` if its bucket is `n` slots
ahead and its rounds are the full turns in `n`.

In these terms `Add` writes a message in front of one list, and a tick delivers the list under zero
and moves the others down by one. The rest of the source shows through in one place: whenever the
wheel passes a bucket it reverses what it keeps, so a list is reversed each time it is moved down
from a multiple of the number of slots.
-/

namespace VortexMQ

namespace TimingWheel

variable {α : Type} (tw : TimingWheel α)

/-- The messages that are delivered by the tick after the next `n`, in that order. -/
def due (n : ℕ) : List α :=
  ((tw.bucket ((tw.currentSlot + n) % tw.slots)).filter
    fun entry ↦ entry.rounds.toNat = n / tw.slots).map TimerEntry.msg

/-- What becomes of a list that is moved down from `n`. -/
def turn (n : ℕ) (msgs : List α) : List α := if tw.slots ∣ n then msgs.reverse else msgs

variable {tw}

private theorem slots_pos : 0 < tw.slots := Nat.zero_lt_of_lt tw.currentSlot_lt

theorem mem_messages_of_mem_due {n : ℕ} {msg : α} (h : msg ∈ tw.due n) : msg ∈ tw.messages := by
  have hlt : (tw.currentSlot + n) % tw.slots < tw.buckets.length :=
    (Nat.mod_lt _ slots_pos).trans_eq tw.length_buckets.symm
  obtain ⟨entry, hentry, rfl⟩ := List.mem_map.mp h
  rw [tw.bucket_eq hlt] at hentry
  exact List.mem_map_of_mem
    (List.mem_flatten_of_mem (List.getElem_mem hlt) (List.mem_of_mem_filter hentry))

/-! ## One bucket replaced -/

theorem getD_set {buckets : List (List (TimerEntry α))} {slot : ℕ} (h : slot < buckets.length)
    (b : List (TimerEntry α)) (i : ℕ) :
    ((buckets.set slot b)[i]?).getD [] = if slot = i then b else (buckets[i]?).getD [] := by
  rw [List.getElem?_set, if_pos h]
  split <;> rfl

/-! ## `Add` -/

theorem ticks_eq {delay : ℤ} (h : 0 < delay) :
    tw.ticks delay = max 1 (delay / tw.interval).toNat := by
  rw [ticks, Int.tdiv_eq_ediv_of_nonneg h.le]
  split <;> omega

/-- The bucket that holds the entries for `n` is the one `Add` inserts into. -/
theorem targetSlot_eq_iff {delay : ℤ} {n : ℕ} :
    tw.targetSlot delay = (tw.currentSlot + n) % tw.slots ↔
      tw.ticks delay % tw.slots = n % tw.slots := by
  rw [targetSlot, Nat.add_mod_mod]
  exact ⟨fun h ↦ Nat.ModEq.add_left_cancel' tw.currentSlot h,
    fun h ↦ Nat.ModEq.add_left tw.currentSlot h⟩

/-- **`Add`** writes the message in front of one list. -/
theorem due_insert (msg : α) (delay : ℤ) (n : ℕ) :
    (tw.insert msg delay).due n
      = if n = tw.ticks delay then msg :: tw.due n else tw.due n := by
  have hlt : tw.targetSlot delay < tw.buckets.length :=
    (tw.targetSlot_lt delay).trans_eq tw.length_buckets.symm
  have hbucket : (tw.insert msg delay).bucket ((tw.currentSlot + n) % tw.slots)
      = if tw.targetSlot delay = (tw.currentSlot + n) % tw.slots then
          ⟨msg, (tw.ticks delay / tw.slots : ℕ)⟩ :: tw.bucket (tw.targetSlot delay)
        else tw.bucket ((tw.currentSlot + n) % tw.slots) := getD_set hlt _ _
  rw [due]
  change (((tw.insert msg delay).bucket ((tw.currentSlot + n) % tw.slots)).filter
    fun entry ↦ entry.rounds.toNat = n / tw.slots).map TimerEntry.msg = _
  rw [hbucket]
  by_cases hslot : tw.targetSlot delay = (tw.currentSlot + n) % tw.slots
  · rw [if_pos hslot, hslot, List.filter_cons]
    simp only [Int.toNat_natCast, decide_eq_true_eq]
    -- the remainders agree, so the quotients decide
    have hmod := targetSlot_eq_iff.mp hslot
    have hiff : tw.ticks delay / tw.slots = n / tw.slots ↔ n = tw.ticks delay := by
      constructor
      · intro hdiv
        rw [← Nat.div_add_mod n tw.slots, ← hdiv, ← hmod, Nat.div_add_mod]
      · intro h
        rw [h]
    by_cases hn : n = tw.ticks delay
    · rw [if_pos hn, if_pos (hiff.mpr hn), List.map_cons]
      rfl
    · rw [if_neg hn, if_neg fun h ↦ hn (hiff.mp h)]
      rfl
  · have hn : n ≠ tw.ticks delay := by
      rintro rfl
      exact hslot (targetSlot_eq_iff.mpr rfl)
    rw [if_neg hslot, if_neg hn]
    rfl

/-! ## `advance` -/

theorem expireLoop_eq : ∀ (b : List (TimerEntry α)) (expired : List α)
    (remaining : List (TimerEntry α)),
    expireLoop b expired remaining
      = (expired ++ (b.filter fun entry ↦ entry.rounds ≤ 0).map TimerEntry.msg,
        ((b.filter fun entry ↦ ¬entry.rounds ≤ 0).map
          fun entry ↦ { entry with rounds := entry.rounds - 1 }).reverse ++ remaining) := by
  intro b
  induction b with
  | nil => intro expired remaining; simp [expireLoop]
  | cons entry next ih =>
    intro expired remaining
    rw [expireLoop]
    by_cases h : entry.rounds ≤ 0
    · rw [if_pos h, ih, List.filter_cons_of_pos (by simpa using h),
        List.filter_cons_of_neg (by simpa using h), List.map_cons, List.append_assoc,
        List.singleton_append]
    · rw [if_neg h, ih, List.filter_cons_of_neg (by simpa using h),
        List.filter_cons_of_pos (by simpa using h), List.map_cons, List.reverse_cons,
        List.append_assoc, List.singleton_append]

/-- **A tick** delivers the list under zero. -/
theorem advance_fst : tw.advance.1 = tw.due 0 := by
  have hslot : (tw.currentSlot + 0) % tw.slots = tw.currentSlot :=
    Nat.mod_eq_of_lt tw.currentSlot_lt
  have hexpired : tw.advance.1
      = ((tw.bucket tw.currentSlot).filter fun entry ↦ entry.rounds ≤ 0).map TimerEntry.msg :=
    congrArg Prod.fst (expireLoop_eq (tw.bucket tw.currentSlot) [] [])
  rw [hexpired, due, hslot, Nat.zero_div]
  simp only [Int.toNat_eq_zero]

/-- **A tick** moves the other lists down. -/
theorem due_advance (n : ℕ) : tw.advance.2.due n = tw.turn (n + 1) (tw.due (n + 1)) := by
  have hlt : tw.currentSlot < tw.buckets.length :=
    tw.currentSlot_lt.trans_eq tw.length_buckets.symm
  have hslot : ((tw.currentSlot + 1) % tw.slots + n) % tw.slots
      = (tw.currentSlot + (n + 1)) % tw.slots := by
    rw [Nat.mod_add_mod, Nat.add_assoc, Nat.add_comm 1 n]
  have hbucket : tw.advance.2.bucket ((tw.currentSlot + (n + 1)) % tw.slots)
      = if tw.currentSlot = (tw.currentSlot + (n + 1)) % tw.slots then
          (expireLoop (tw.bucket tw.currentSlot) [] []).2
        else tw.bucket ((tw.currentSlot + (n + 1)) % tw.slots) := getD_set hlt _ _
  have hsame : tw.currentSlot = (tw.currentSlot + (n + 1)) % tw.slots ↔ tw.slots ∣ n + 1 := by
    rw [← Nat.add_modEq_left_iff (a := tw.currentSlot), Nat.ModEq,
      Nat.mod_eq_of_lt tw.currentSlot_lt, eq_comm]
  rw [due]
  change ((tw.advance.2.bucket (((tw.currentSlot + 1) % tw.slots + n) % tw.slots)).filter
    fun entry ↦ entry.rounds.toNat = n / tw.slots).map TimerEntry.msg = _
  rw [hslot, hbucket, turn, due]
  by_cases hdvd : tw.slots ∣ n + 1
  · -- the wheel passes the bucket: what it keeps is reversed, with one round less
    have hcur := hsame.mpr hdvd
    rw [if_pos hcur, if_pos hdvd, ← hcur, expireLoop_eq, List.append_nil, List.filter_reverse,
      List.map_reverse, List.filter_map, List.filter_filter, List.map_map,
      Nat.succ_div_of_dvd hdvd]
    congr 2
    refine List.filter_congr fun entry _ ↦ ?_
    rw [Function.comp_apply, ← Bool.decide_and, decide_eq_decide]
    change (entry.rounds - 1).toNat = _ ∧ _ ↔ _
    generalize n / tw.slots = r
    omega
  · rw [if_neg fun h ↦ hdvd (hsame.mp h), if_neg hdvd, Nat.succ_div_of_not_dvd hdvd]

end TimingWheel

end VortexMQ
