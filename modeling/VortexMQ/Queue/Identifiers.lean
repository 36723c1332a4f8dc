import VortexMQ.Basic.Run
import VortexMQ.Queue.Message

/-!
# Message identifiers

`NewMessage` makes an identifier of the millisecond, a counter modulo 100000, and two random bytes.
Nothing can be expected of the random bytes, so identifiers differ because the counter runs through
100000 values before it repeats, and within a millisecond there are not so many messages.

But the clock and the counter are read one after the other, and calls run concurrently. A call that
has read the clock may be overtaken by others before it takes its number, and then the number does
not belong to the millisecond.
-/

namespace VortexMQ

namespace Message

/-- The millisecond in the identifier. -/
def millis (m : Message) : ℤ := m.timestamp.tdiv millisecond

theorem notMem_ofNat (n : ℕ) : 45 ∉ Decimal.ofNat n := fun h ↦
  absurd (Decimal.isDigit_of_mem_ofNat 45 h) (by decide)

theorem ofNat_append_inj {m n : ℕ} {u v : Bytes}
    (h : Decimal.ofNat m ++ 45 :: u = Decimal.ofNat n ++ 45 :: v) : m = n ∧ u = v := by
  obtain ⟨hdigits, hrest⟩ :=
    append_cons_inj_of_notMem_left (notMem_ofNat m) (notMem_ofNat n) h
  exact ⟨Decimal.ofNat_injective hdigits, hrest⟩

/-- The first hyphen behind the millisecond ends it; one in front is its sign. -/
theorem ofInt_append_inj {x y : ℤ} {u v : Bytes}
    (h : Decimal.ofInt x ++ 45 :: u = Decimal.ofInt y ++ 45 :: v) : x = y ∧ u = v := by
  have hhead : ∀ {m : ℕ} {w w' : Bytes}, Decimal.ofNat m ++ w ≠ 45 :: w' := by
    intro m w w' h
    obtain ⟨c, ds, hds⟩ := List.exists_cons_of_ne_nil (Decimal.ofNat_ne_nil m)
    rw [hds, List.cons_append] at h
    exact notMem_ofNat m (hds ▸ (List.cons.inj h).1 ▸ List.mem_cons_self)
  rw [Decimal.ofInt, Decimal.ofInt] at h
  split at h
  · split at h
    · obtain ⟨habs, hrest⟩ := ofNat_append_inj (List.cons.inj h).2
      exact ⟨by omega, hrest⟩
    · exact absurd h.symm hhead
  · split at h
    · exact absurd h hhead
    · obtain ⟨habs, hrest⟩ := ofNat_append_inj h
      exact ⟨by omega, hrest⟩

/-- An identifier can be read back, up to the reduction of the counter. -/
theorem newID_inj {now now' : ℤ} {seq seq' : UInt64} {rand rand' : Bytes}
    (h : newID now seq rand = newID now' seq' rand') :
    now.tdiv millisecond = now'.tdiv millisecond ∧
      seq.toNat % 100000 = seq'.toNat % 100000 := by
  simp only [newID, List.append_assoc] at h
  obtain ⟨hmillis, hrest⟩ := ofInt_append_inj h
  exact ⟨hmillis, (ofNat_append_inj hrest).1⟩

end Message

/-- A call of `NewMessage` that has read the clock. -/
structure Making where
  topic : Bytes
  payload : Option Bytes
  now : ℤ

/-- The clock, the counter, the calls in progress, and the messages that have been made. -/
structure MessageFactory where
  clock : ℤ
  globalSeq : UInt64
  tasks : ℕ → Option Making
  calls : ℕ
  made : List Message

namespace MessageFactory

inductive Label where
  /-- Time passes. -/
  | tick (now : ℤ)
  /-- A call reads the clock. -/
  | begin (topic : Bytes) (payload : Option Bytes)
  /-- A call takes its number and its random bytes. -/
  | finish (n : ℕ) (rand : Bytes)

/-- A process, at some time. -/
def start (clock : ℤ) : MessageFactory := ⟨clock, 0, fun _ ↦ none, 0, []⟩

/-- The clock does not go backwards. -/
def step (s : MessageFactory) : Label → Option MessageFactory
  | .tick now => if s.clock ≤ now then some { s with clock := now } else none
  | .begin topic payload =>
      some { s with
        tasks := Function.update s.tasks s.calls (some ⟨topic, payload, s.clock⟩)
        calls := s.calls + 1 }
  | .finish n rand =>
      (s.tasks n).map fun call ↦
        { s with
          globalSeq := s.globalSeq + 1
          tasks := Function.update s.tasks n none
          made := s.made ++
            [Message.newMessage call.topic call.payload call.now (s.globalSeq + 1) rand] }

/-- A call takes its number in the millisecond in which it has read the clock. -/
def Prompt (s : MessageFactory) : Label → Prop
  | .finish n _ =>
      ∀ call ∈ s.tasks n, call.now.tdiv millisecond = s.clock.tdiv millisecond
  | _ => True

instance (s : MessageFactory) : DecidablePred s.Prompt
  | .tick _ => inferInstanceAs (Decidable True)
  | .begin _ _ => inferInstanceAs (Decidable True)
  | .finish n _ => inferInstanceAs
      (Decidable (∀ call ∈ s.tasks n, call.now.tdiv millisecond = s.clock.tdiv millisecond))

/-- Messages are numbered one after the other, and their milliseconds do not decrease. -/
structure Numbered (s : MessageFactory) : Prop where
  globalSeq_eq : s.globalSeq = UInt64.ofNat s.made.length
  made_eq : ∀ i m, s.made[i]? = some m →
    ∃ rand, m.id = Message.newID m.timestamp (UInt64.ofNat (i + 1)) rand
  sorted : s.made.Pairwise fun m m' ↦ m.millis ≤ m'.millis
  le_clock : ∀ m ∈ s.made, m.millis ≤ s.clock.tdiv millisecond

private theorem numbered_start (clock : ℤ) : (start clock).Numbered where
  globalSeq_eq := rfl
  made_eq _ _ h := nomatch h
  sorted := List.Pairwise.nil
  le_clock _ h := absurd h List.not_mem_nil

theorem Numbered.step {s t : MessageFactory} {l : Label} (hprompt : s.Prompt l)
    (hstep : s.step l = some t) (h : s.Numbered) : t.Numbered := by
  cases l with
  | tick now =>
    obtain ⟨hle, heq⟩ := Option.ite_none_right_eq_some.mp hstep
    obtain rfl := Option.some_inj.mp heq
    exact { h with
      le_clock := fun m hm ↦ (h.le_clock m hm).trans (Int.tdiv_le_tdiv (by decide) hle) }
  | begin topic payload =>
    obtain rfl := Option.some_inj.mp hstep
    exact ⟨h.globalSeq_eq, h.made_eq, h.sorted, h.le_clock⟩
  | finish n rand =>
    obtain ⟨call, hcall, rfl⟩ := Option.map_eq_some_iff.mp hstep
    have hmillis := hprompt call hcall
    have hseq : s.globalSeq + 1 = UInt64.ofNat (s.made.length + 1) := by
      rw [h.globalSeq_eq, UInt64.ofNat_add]
      rfl
    constructor
    · rw [List.length_append]
      exact hseq
    · intro i m hm
      rcases Nat.lt_trichotomy i s.made.length with hi | rfl | hi
      · rw [List.getElem?_append_left hi] at hm
        exact h.made_eq i m hm
      · rw [List.getElem?_concat_length, Option.some_inj] at hm
        exact ⟨rand, hm ▸ hseq ▸ rfl⟩
      · rw [List.getElem?_eq_none (by rw [List.length_append]; exact hi)] at hm
        exact nomatch hm
    · refine List.pairwise_append.mpr ⟨h.sorted, List.pairwise_singleton _ _, fun m hm m' hm' ↦ ?_⟩
      obtain rfl := List.mem_singleton.mp hm'
      exact (h.le_clock m hm).trans hmillis.ge
    · intro m hm
      rcases List.mem_append.mp hm with hm | hm
      · exact h.le_clock m hm
      · obtain rfl := List.mem_singleton.mp hm
        exact hmillis.le

/-- Between two messages of one millisecond there are only messages of that millisecond. -/
theorem Numbered.sub_lt {s : MessageFactory} (h : s.Numbered) {i j : ℕ}
    (hi : i < s.made.length) (hj : j < s.made.length) (hij : i < j)
    (hmillis : s.made[i].millis = s.made[j].millis) :
    j - i < (s.made.filter fun m ↦ m.millis = s.made[i].millis).length := by
  have hbetween : ∀ k (hk : k < s.made.length), i ≤ k → k ≤ j →
      s.made[k].millis = s.made[i].millis := by
    intro k hk hik hkj
    have hsorted := List.pairwise_iff_getElem.mp h.sorted
    apply le_antisymm
    · rcases hkj.eq_or_lt with rfl | hlt
      · exact hmillis.ge
      · exact (hsorted k j hk hj hlt).trans hmillis.ge
    · rcases hik.eq_or_lt with rfl | hlt
      · exact le_rfl
      · exact hsorted i k hi hk hlt
  have hall : ∀ m ∈ (s.made.drop i).take (j - i + 1),
      decide (m.millis = s.made[i].millis) = true := by
    intro m hm
    obtain ⟨k, hk, rfl⟩ := List.mem_take_iff_getElem.mp hm
    rw [List.length_drop] at hk
    rw [List.getElem_drop]
    exact decide_eq_true (hbetween (i + k) (by omega) (by omega) (by omega))
  have hsub : ((s.made.drop i).take (j - i + 1)).Sublist s.made :=
    (List.take_sublist _ _).trans (List.drop_sublist _ _)
  have hlen := (hsub.filter fun m ↦ m.millis = s.made[i].millis).length_le
  rw [List.filter_eq_self.mpr hall,
    List.length_take_of_le (by rw [List.length_drop]; omega)] at hlen
  exact hlen

/-- **Identifiers are unique**, as long as every call takes its number in the millisecond in which
it has read the clock, there are fewer than `2 ^ 64` messages, and at most 100000 in a millisecond.
-/
theorem ids_nodup_of_prompt (clock : ℤ) (ls : List Label) (s : MessageFactory)
    (hrun : Run step (fun _ ↦ True) (start clock) ls s)
    (hprompt : Run.Guarded step Prompt (start clock) ls) (hfew : s.made.length < 2 ^ 64)
    (hrate : ∀ ms : ℤ, (s.made.filter fun m ↦ m.millis = ms).length ≤ 100000) :
    (s.made.map Message.id).Nodup := by
  have hnumbered : s.Numbered :=
    hrun.invariant_of_guarded (fun _ _ _ hp hs h ↦ h.step hp hs) hprompt (numbered_start clock)
  refine List.pairwise_map.mpr (List.pairwise_iff_getElem.mpr fun i j hi hj hij hid ↦ ?_)
  obtain ⟨rand, hidi⟩ := hnumbered.made_eq i _ (List.getElem?_eq_getElem hi)
  obtain ⟨rand', hidj⟩ := hnumbered.made_eq j _ (List.getElem?_eq_getElem hj)
  obtain ⟨hmillis, hseq⟩ := Message.newID_inj (hidi.symm.trans (hid.trans hidj))
  have hdistance := (hnumbered.sub_lt hi hj hij hmillis).trans_le (hrate _)
  have hfits : ∀ k ≤ s.made.length, (UInt64.ofNat k).toNat = k := fun k hk ↦
    UInt64.toNat_ofNat_of_lt' (hk.trans_lt hfew)
  rw [hfits (i + 1) hi, hfits (j + 1) hj] at hseq
  omega

/-- Two messages in one millisecond, with the same random bytes. -/
theorem ids_nodup_of_prompt_two :
    ∃ s, Run step (fun _ ↦ True) (start 0)
        [.begin [] none, .finish 0 [7, 7], .begin [] none, .finish 1 [7, 7]] s ∧
      s.made.map Message.id = [bytesOf "0-1-0707", bytesOf "0-2-0707"] ∧
      (s.made.map Message.id).Nodup := by
  have hsome : (Run.exec step (fun _ ↦ True) (start 0)
      [.begin [] none, .finish 0 [7, 7], .begin [] none, .finish 1 [7, 7]]).isSome := by
    decide +kernel
  have hrun := Run.of_exec (Option.some_get hsome).symm
  have hcheck : Run.checkGuard step (fun s l ↦ decide (s.Prompt l)) (start 0)
      [.begin [] none, .finish 0 [7, 7], .begin [] none, .finish 1 [7, 7]] = true := by
    decide +kernel
  have hprompt := Run.guarded_of_checkGuard hcheck
  simp only [decide_eq_true_eq] at hprompt
  have hlen := hrun.of_exec_map (f := fun s ↦ s.made.length) (a := 2) (by decide +kernel)
  refine ⟨_, hrun, hrun.of_exec_map (f := fun s ↦ s.made.map Message.id) (by decide +kernel),
    ids_nodup_of_prompt 0 _ _ hrun hprompt (hlen.trans_lt (by decide)) fun ms ↦ ?_⟩
  exact (List.length_filter_le _ _).trans (hlen.trans_le (by decide))

private theorem exists_run_messages : ∀ (n : ℕ) (s : MessageFactory), ∃ ls t,
    Run step (fun _ ↦ True) s ls t ∧ t.globalSeq = s.globalSeq + UInt64.ofNat n ∧
      (∀ k < s.calls, t.tasks k = s.tasks k) ∧
      ∃ more, t.made = s.made ++ more ∧ more.length = n ∧ ∀ m ∈ more, m.timestamp = s.clock := by
  intro n
  induction n with
  | zero =>
    intro s
    refine ⟨[], s, .nil trivial, (UInt64.add_zero _).symm, fun k _ ↦ rfl, [], ?_, rfl, ?_⟩
    · exact (List.append_nil _).symm
    · exact fun m hm ↦ absurd hm List.not_mem_nil
  | succ n ih =>
    intro s
    let msg := Message.newMessage [] none s.clock (s.globalSeq + 1) []
    let s₁ : MessageFactory := { s with
      tasks := Function.update s.tasks s.calls (some ⟨[], none, s.clock⟩)
      calls := s.calls + 1 }
    let s₂ : MessageFactory := { s₁ with
      globalSeq := s.globalSeq + 1
      tasks := Function.update s₁.tasks s.calls none
      made := s.made ++ [msg] }
    have hfinish : s₁.step (.finish s.calls []) = some s₂ := by
      change (Function.update s.tasks s.calls _ s.calls).map _ = _
      rw [Function.update_self]
      rfl
    obtain ⟨ls, t, hrun, hseq, htasks, more, hmade, hlen, htime⟩ := ih s₂
    refine ⟨.begin [] none :: .finish s.calls [] :: ls, t,
      .cons trivial rfl (.cons trivial hfinish hrun), ?_, ?_, msg :: more, ?_, ?_, ?_⟩
    · rw [hseq, UInt64.ofNat_add, UInt64.add_comm (UInt64.ofNat n), ← UInt64.add_assoc]
      rfl
    · intro k hk
      rw [htasks k (Nat.lt_succ_of_lt hk)]
      change Function.update (Function.update s.tasks s.calls _) s.calls none k = _
      rw [Function.update_of_ne hk.ne, Function.update_of_ne hk.ne]
    · rw [hmade, List.append_assoc]
      rfl
    · rw [List.length_cons, hlen]
    · intro m hm
      rcases List.mem_cons.mp hm with rfl | hm
      · rfl
      · exact htime m hm

/-- A call reads the clock and is overtaken: by a second one, which takes the number 1, and then by
99999 more in the next millisecond. The number 100001 that it takes at last is the number 1 again.
-/
theorem ids_collide :
    ∃ ls s, Run step (fun _ ↦ True) (start 1000000) ls s ∧ s.made.length < 2 ^ 64 ∧
      (∀ ms : ℤ, (s.made.filter fun m ↦ m.millis = ms).length ≤ 100000) ∧
      ¬(s.made.map Message.id).Nodup := by
  let early (seq : UInt64) : Message := Message.newMessage [] none 1000000 seq [7, 7]
  let s₀ : MessageFactory :=
    ⟨2000000, 1, Function.update (Function.update (Function.update (fun _ ↦ none) 0
      (some ⟨[], none, 1000000⟩)) 1 (some ⟨[], none, 1000000⟩)) 1 none, 2, [early 1]⟩
  have hstart : Run step (fun _ ↦ True) (start 1000000)
      [.begin [] none, .begin [] none, .finish 1 [7, 7], .tick 2000000] s₀ :=
    .cons trivial rfl (.cons trivial rfl (.cons trivial rfl (.cons trivial rfl (.nil trivial))))
  obtain ⟨ls, t, hrun, hseq, htasks, more, hmade, hlen, htime⟩ := exists_run_messages 99999 s₀
  have htask : t.tasks 0 = some ⟨[], none, 1000000⟩ := htasks 0 (by decide)
  have hlast : t.globalSeq + 1 = 100001 := by
    rw [hseq]
    decide
  have hfinish : t.step (.finish 0 [7, 7]) = some { t with
      globalSeq := t.globalSeq + 1
      tasks := Function.update t.tasks 0 none
      made := early 1 :: (more ++ [early 100001]) } := by
    rw [step, htask, Option.map_some, hmade, hlast]
    rfl
  refine ⟨_, _, hstart.append (hrun.append (.cons trivial hfinish (.nil trivial))), ?_, ?_, ?_⟩
  · rw [List.length_cons, List.length_append, hlen]
    decide
  · intro ms
    rw [List.filter_cons, List.filter_append]
    by_cases hms : ms = 2
    · -- only the messages that overtake are in this millisecond
      subst hms
      rw [if_neg (by decide), List.filter_cons_of_neg (by decide), List.filter_nil,
        List.append_nil]
      exact (List.length_filter_le _ _).trans (hlen.trans_le (by decide))
    · have hmore : more.filter (fun m ↦ m.millis = ms) = [] := by
        refine List.filter_eq_nil_iff.mpr fun m hm ↦ ?_
        rw [decide_eq_true_eq, Message.millis, htime m hm]
        exact Ne.symm hms
      rw [hmore, List.nil_append]
      have hlate := List.length_filter_le (fun m ↦ decide (m.millis = ms)) [early 100001]
      rw [List.length_singleton] at hlate
      split
      · rw [List.length_cons]
        omega
      · omega
  · rw [List.map_cons, List.nodup_cons]
    rintro ⟨hnot, -⟩
    refine hnot (List.mem_map.mpr ⟨early 100001, List.mem_append_right _ List.mem_cons_self, ?_⟩)
    decide +kernel

end MessageFactory

end VortexMQ
