import VortexMQ.Queue.Broker
import VortexMQ.Queue.Calendar
import VortexMQ.Queue.TopicSystem

/-!
# When delayed messages are delivered

A timing wheel that is not stopped sees calls of `Add` and ticks, in any order, and each of them
passes some messages to `onExpire`. A message with a positive delay is passed once, by the tick that
its delay in full intervals says, plus one. What else is in the wheel has no influence on that.

Two consequences. The extra tick makes up for rounding the delay down only if it comes late enough,
so a message can be early. And of two messages that go into one list of the calendar the second is
ahead, unless the list is turned around an odd number of times.
-/

namespace VortexMQ

/-- What happens to a wheel before it is stopped. -/
inductive WheelOp (α : Type) where
  | add (msg : α) (delay : ℤ)
  | advance

namespace WheelOp

variable {α : Type}

/-- The messages passed to `onExpire`, in order, and the wheel afterwards. -/
def apply (tw : TimingWheel α) : WheelOp α → List α × TimingWheel α
  | .add msg delay => ((tw.add msg delay).1.toList, (tw.add msg delay).2)
  | .advance => tw.advance

def isAdvance : WheelOp α → Bool
  | .add _ _ => false
  | .advance => true

/-- The message that is brought in. -/
def added : WheelOp α → List α
  | .add msg _ => [msg]
  | .advance => []

/-- The number of ticks. -/
def advances (ops : List (WheelOp α)) : ℕ := ops.countP isAdvance

theorem advances_cons (op : WheelOp α) (ops : List (WheelOp α)) :
    advances (op :: ops) = advances ops + if op.isAdvance then 1 else 0 :=
  List.countP_cons

end WheelOp

open WheelOp (advances)

namespace TimingWheel

variable {α : Type}

/-- The messages passed to `onExpire`, operation by operation. -/
def fired : TimingWheel α → List (WheelOp α) → List (List α)
  | _, [] => []
  | tw, op :: ops => (op.apply tw).1 :: fired (op.apply tw).2 ops

/-- The wheel after some operations. -/
def after : TimingWheel α → List (WheelOp α) → TimingWheel α
  | tw, [] => tw
  | tw, op :: ops => after (op.apply tw).2 ops

/-- The parts of a wheel that do not move. -/
def frame (tw : TimingWheel α) : ℤ × ℕ × Bool := (tw.interval, tw.slots, tw.closed)

theorem frame_apply (tw : TimingWheel α) (op : WheelOp α) : (op.apply tw).2.frame = tw.frame := by
  cases op with
  | add msg delay =>
    rw [WheelOp.apply, add]
    split
    · rfl
    · split <;> rfl
  | advance => rfl

theorem frame_after : ∀ (ops : List (WheelOp α)) (tw : TimingWheel α),
    (tw.after ops).frame = tw.frame := by
  intro ops
  induction ops with
  | nil => intro tw; rfl
  | cons op ops ih => intro tw; exact (ih _).trans (tw.frame_apply op)

private theorem fired_append : ∀ (ops ops' : List (WheelOp α)) (tw : TimingWheel α),
    tw.fired (ops ++ ops') = tw.fired ops ++ (tw.after ops).fired ops' := by
  intro ops ops'
  induction ops with
  | nil => intro tw; rfl
  | cons op ops ih =>
    intro tw
    rw [List.cons_append, fired, ih, fired, after, List.cons_append]

theorem add_eq {tw : TimingWheel α} (hopen : tw.closed = false) {delay : ℤ} (hdelay : 0 < delay)
    (msg : α) : tw.add msg delay = (none, tw.insert msg delay) := by
  rw [add, if_neg hdelay.not_ge, hopen, if_neg Bool.false_ne_true]

/-! ## One message more -/

/-- The second wheel has what the first has, and one message more, under `n`. A negative `n` means
that the message has been delivered. -/
structure Extra (msg : α) (n : ℤ) (tw tw' : TimingWheel α) : Prop where
  frame : tw'.frame = tw.frame
  due : ∀ k : ℕ, (tw'.due k).Perm ((if n = k then [msg] else []) ++ tw.due k)

namespace Extra

variable {msg : α} {n : ℤ} {tw tw' : TimingWheel α}

private theorem interval (h : Extra msg n tw tw') : tw'.interval = tw.interval :=
  congrArg Prod.fst h.frame

theorem slots (h : Extra msg n tw tw') : tw'.slots = tw.slots :=
  congrArg (fun f ↦ f.2.1) h.frame

private theorem closed (h : Extra msg n tw tw') : tw'.closed = tw.closed :=
  congrArg (fun f ↦ f.2.2) h.frame

private theorem ticks (h : Extra msg n tw tw') (delay : ℤ) : tw'.ticks delay = tw.ticks delay := by
  rw [TimingWheel.ticks, TimingWheel.ticks, h.interval]

private theorem insert (h : Extra msg n tw tw') (msg' : α) (delay : ℤ) :
    Extra msg n (tw.insert msg' delay) (tw'.insert msg' delay) := by
  refine ⟨h.frame, fun k ↦ ?_⟩
  rw [due_insert, due_insert, h.ticks]
  split
  · exact ((h.due k).cons msg').trans List.perm_middle.symm
  · exact h.due k

private theorem advance (h : Extra msg n tw tw') :
    Extra msg (n - 1) tw.advance.2 tw'.advance.2 := by
  refine ⟨h.frame, fun k ↦ ?_⟩
  have hturn : ∀ (tw : TimingWheel α) (msgs : List α), (tw.turn (k + 1) msgs).Perm msgs := by
    intro tw msgs
    rw [turn]
    split
    · exact List.reverse_perm msgs
    · rfl
  have hiff : n - 1 = k ↔ n = (k + 1 : ℕ) := by push_cast; omega
  rw [due_advance, due_advance]
  simp only [hiff]
  exact (hturn tw' _).trans ((h.due (k + 1)).trans (List.Perm.append_left _ (hturn tw _).symm))

/-- **One operation**: the message is passed by the tick that finds it under zero. -/
theorem apply (h : Extra msg n tw tw') (op : WheelOp α) :
    ((op.apply tw').1.Perm
        ((if op.isAdvance ∧ n = 0 then [msg] else []) ++ (op.apply tw).1)) ∧
      Extra msg (n - if op.isAdvance then 1 else 0) (op.apply tw).2 (op.apply tw').2 := by
  cases op with
  | add msg' delay =>
    simp only [WheelOp.isAdvance, Bool.false_eq_true, false_and, if_false, List.nil_append,
      sub_zero, WheelOp.apply, add, h.closed]
    split
    · exact ⟨List.Perm.refl _, h⟩
    · split
      · exact ⟨List.Perm.refl _, h⟩
      · exact ⟨List.Perm.refl _, h.insert msg' delay⟩
  | advance =>
    simp only [WheelOp.isAdvance, true_and, if_true, WheelOp.apply, advance_fst]
    exact ⟨h.due 0, h.advance⟩

/-- **All operations.** -/
theorem fired : ∀ {ops : List (WheelOp α)} {n : ℤ} {tw tw' : TimingWheel α},
    Extra msg n tw tw' → ∀ {i : ℕ} {op : WheelOp α}, ops[i]? = some op →
    ∃ before after, (tw.fired ops)[i]? = some before ∧ (tw'.fired ops)[i]? = some after ∧
      after.Perm
        ((if op.isAdvance ∧ n = advances (ops.take i) then [msg] else []) ++ before) := by
  intro ops
  induction ops with
  | nil => intro n tw tw' _ i op hop; exact absurd hop (Option.some_ne_none op).symm
  | cons op' ops ih =>
    intro n tw tw' h i op hop
    obtain ⟨hperm, hnext⟩ := h.apply op'
    cases i with
    | zero =>
      obtain rfl := Option.some_inj.mp hop
      exact ⟨_, _, rfl, rfl, hperm⟩
    | succ i =>
      obtain ⟨before, after, hbefore, hafter, hlater⟩ := ih hnext hop
      refine ⟨before, after, hbefore, hafter, ?_⟩
      have hiff : (n - if op'.isAdvance then 1 else 0) = advances (ops.take i) ↔
          n = advances ((op' :: ops).take (i + 1)) := by
        rw [List.take_succ_cons, WheelOp.advances_cons]
        push_cast
        omega
      simpa only [hiff] using hlater

end Extra

private theorem extra_insert (tw : TimingWheel α) (msg : α) (delay : ℤ) :
    Extra msg (tw.ticks delay) tw (tw.insert msg delay) := by
  refine ⟨rfl, fun k ↦ ?_⟩
  rw [due_insert]
  by_cases hk : k = tw.ticks delay
  · rw [if_pos hk, if_pos (by rw [hk])]
    rfl
  · rw [if_neg hk, if_neg fun h ↦ hk (Int.ofNat_inj.mp h).symm]
    rfl

theorem fired_add {tw : TimingWheel α} (hopen : tw.closed = false) (msg : α) {delay : ℤ}
    (hdelay : 0 < delay) {ops : List (WheelOp α)} {i : ℕ} {op : WheelOp α}
    (hop : ops[i]? = some op) :
    ∃ before after, (tw.fired ops)[i]? = some before ∧
      ((tw.add msg delay).2.fired ops)[i]? = some after ∧
      after.Perm ((if op.isAdvance ∧ advances (ops.take i) = tw.ticks delay then [msg] else [])
        ++ before) := by
  rw [add_eq hopen hdelay]
  obtain ⟨before, after, hbefore, hafter, hperm⟩ := (tw.extra_insert msg delay).fired hop
  refine ⟨before, after, hbefore, hafter, ?_⟩
  simpa only [Int.ofNat_inj, eq_comm (a := tw.ticks delay)] using hperm

/-- **A delayed message is delivered exactly once, on its tick.** Whatever is in the wheel and
whatever is added to it later, every operation passes to `onExpire` what it would have passed
without the message, and the message is passed in addition by one of them: the tick that has as many
ticks before it since the `Add` as there are full intervals in the delay, and at least one. -/
theorem fires_once (tw : TimingWheel α) (hopen : tw.closed = false) (msg : α) {delay : ℤ}
    (hdelay : 0 < delay) (ops : List (WheelOp α)) :
    (tw.add msg delay).1 = none ∧ ∀ {i : ℕ} {op : WheelOp α}, ops[i]? = some op →
      ∃ before after, (tw.fired ops)[i]? = some before ∧
        ((tw.add msg delay).2.fired ops)[i]? = some after ∧
        after.Perm ((if op.isAdvance ∧ advances (ops.take i) = max 1 (delay / tw.interval).toNat
          then [msg] else []) ++ before) := by
  refine ⟨congrArg Prod.fst (add_eq hopen hdelay msg), fun hop ↦ ?_⟩
  rw [← ticks_eq hdelay]
  exact fired_add hopen msg hdelay hop

/-- A wheel of two slots: a message with a delay of three and a half intervals passes the others by
and comes with the fourth tick. -/
theorem fires_once_second_turn :
    ∃ before after, ((newTimingWheel 10 2 : TimingWheel ℕ).fired
        [.advance, .add 8 20, .advance, .add 9 0, .advance, .advance])[5]? = some before ∧
      (((newTimingWheel 10 2 : TimingWheel ℕ).add 7 35).2.fired
        [.advance, .add 8 20, .advance, .add 9 0, .advance, .advance])[5]? = some after ∧
      after.Perm (7 :: before) :=
  (fires_once (newTimingWheel 10 2) rfl 7 (by decide : (0 : ℤ) < 35)
    [.advance, .add 8 20, .advance, .add 9 0, .advance, .advance]).2 (i := 5) rfl

/-! ## The order of two messages -/

/-- What a wheel shows to somebody who looks only at some of the messages. -/
def Shows (p : α → Bool) (f : ℕ → List α) (tw : TimingWheel α) : Prop :=
  ∀ k, (tw.due k).filter p = f k

variable {p : α → Bool} {f : ℕ → List α} {tw : TimingWheel α}

namespace Shows

private theorem add (h : Shows p f tw) {msg : α} (hmsg : p msg = false) (delay : ℤ) :
    ((WheelOp.add msg delay).apply tw).1.filter p = [] ∧
      Shows p f ((WheelOp.add msg delay).apply tw).2 := by
  have hnone : [msg].filter p = [] := by
    rw [List.filter_cons_of_neg (by rw [hmsg]; exact Bool.false_ne_true), List.filter_nil]
  rw [WheelOp.apply, TimingWheel.add]
  split
  · exact ⟨hnone, h⟩
  · split
    · exact ⟨rfl, h⟩
    · refine ⟨rfl, fun k ↦ ?_⟩
      rw [due_insert]
      split
      · rw [List.filter_cons_of_neg (by rw [hmsg]; exact Bool.false_ne_true)]
        exact h k
      · exact h k

/-- A tick delivers what is under zero and turns some of the rest around. -/
theorem advance (h : Shows p f tw) :
    tw.advance.1.filter p = f 0 ∧
      Shows p (fun k ↦ tw.turn (k + 1) (f (k + 1))) tw.advance.2 := by
  refine ⟨?_, fun k ↦ ?_⟩
  · rw [advance_fst]
    exact h 0
  · change (tw.advance.2.due k).filter p = tw.turn (k + 1) (f (k + 1))
    rw [due_advance, turn, turn]
    split
    · rw [List.filter_reverse, h]
    · exact h (k + 1)

end Shows

private theorem iterate_turn (n : ℕ) (r : ℕ) (msgs : List α) (hr : r ≤ n / tw.slots) :
    List.reverse^[n / tw.slots - r] (tw.turn (n + 1) msgs)
      = List.reverse^[(n + 1) / tw.slots - r] msgs := by
  rw [turn]
  by_cases hdvd : tw.slots ∣ n + 1
  · rw [if_pos hdvd, Nat.succ_div_of_dvd hdvd, ← Function.iterate_succ_apply,
      Nat.sub_add_comm hr]
  · rw [if_neg hdvd, Nat.succ_div_of_not_dvd hdvd]

/-- **What is seen of a whole run**, if nothing that is looked at is added. -/
theorem Shows.fired : ∀ {ops : List (WheelOp α)} {f : ℕ → List α} {tw : TimingWheel α},
    Shows p f tw → (∀ op ∈ ops, ∀ msg ∈ op.added, p msg = false) →
    (tw.fired ops).flatten.filter p
        = (List.range (advances ops)).flatMap (fun i ↦ List.reverse^[i / tw.slots] (f i)) ∧
      Shows p (fun k ↦ List.reverse^[(k + advances ops) / tw.slots - k / tw.slots]
        (f (k + advances ops))) (tw.after ops) := by
  intro ops
  induction ops with
  | nil =>
    intro f tw h _
    refine ⟨rfl, fun k ↦ ?_⟩
    change (tw.due k).filter p = List.reverse^[k / tw.slots - k / tw.slots] (f k)
    rw [Nat.sub_self]
    exact h k
  | cons op ops ih =>
    intro f tw h hops
    have hrest : ∀ op ∈ ops, ∀ msg ∈ op.added, p msg = false :=
      fun op' h' ↦ hops op' (List.mem_cons_of_mem _ h')
    rw [TimingWheel.fired, List.flatten_cons, List.filter_append, WheelOp.advances_cons]
    cases op with
    | add msg delay =>
      obtain ⟨hout, hshows⟩ := h.add (hops _ List.mem_cons_self msg List.mem_cons_self) delay
      obtain ⟨hlater, hend⟩ := ih hshows hrest
      have hslots : ((WheelOp.add msg delay).apply tw).2.slots = tw.slots :=
        congrArg (fun f ↦ f.2.1) (tw.frame_apply _)
      rw [hslots] at hlater hend
      rw [hout, List.nil_append]
      exact ⟨hlater, hend⟩
    | advance =>
      obtain ⟨hout, hshows⟩ := h.advance
      obtain ⟨hlater, hend⟩ := ih hshows hrest
      constructor
      · rw [WheelOp.apply, hout, hlater, WheelOp.isAdvance, if_pos rfl, List.range_succ_eq_map,
          List.flatMap_cons, List.flatMap_map, Nat.zero_div]
        refine congrArg (f 0 ++ ·) (List.flatMap_congr fun i _ ↦ ?_)
        exact tw.iterate_turn i 0 (f (i + 1)) (Nat.zero_le _)
      · intro k
        refine (hend k).trans ?_
        exact tw.iterate_turn (k + advances ops) (k / tw.slots) _
          (Nat.div_le_div_right (Nat.le_add_right _ _))

theorem flatMap_range_pair {g : ℕ → List α} {a b : ℕ} (hab : a < b)
    (h : ∀ i, i ≠ a → i ≠ b → g i = []) : ∀ n, (List.range n).flatMap g
      = (if a < n then g a else []) ++ (if b < n then g b else []) := by
  intro n
  induction n with
  | zero => rfl
  | succ n ih =>
    rw [List.range_succ, List.flatMap_append, List.flatMap_singleton, ih]
    rcases Nat.lt_trichotomy n a with hn | rfl | hn
    · rw [h n (by omega) (by omega)]
      simp only [show ¬a < n by omega, show ¬b < n by omega, show ¬a < n + 1 by omega,
        show ¬b < n + 1 by omega, if_false, List.append_nil]
    · simp only [Nat.lt_irrefl, show ¬b < n by omega, show n < n + 1 by omega,
        show ¬b < n + 1 by omega, if_false, if_true, List.append_nil, List.nil_append]
    · by_cases hb : n = b
      · subst hb
        simp only [Nat.lt_irrefl, hn, show a < n + 1 by omega, show n < n + 1 by omega, if_false,
          if_true, List.append_nil]
      · rw [h n (by omega) hb]
        simp only [hn, show a < n + 1 by omega, show b < n + 1 ↔ b < n by omega, if_true,
          List.append_nil]

theorem iterate_reverse_of_length_le_one (r : ℕ) {msgs : List α} (h : msgs.length ≤ 1) :
    List.reverse^[r] msgs = msgs := by
  apply Function.iterate_fixed
  match msgs with
  | [] => rfl
  | [msg] => rfl
  | _ :: _ :: _ => exact absurd h (by simp)

/-- One of two messages. -/
def either [DecidableEq α] (first second msg : α) : Bool := msg = first ∨ msg = second

/-- The calls with one of the two messages are one with the first and then one with the second. -/
def KeepsOrder [DecidableEq α] (first second : α) (calls : List α) : Prop :=
  calls.filter (either first second) = [first, second]

section Order

variable {first second : α} {n j : ℕ}

/-- What is to be seen of the two messages when the second has been added, `j` ticks after the
first. -/
def leftOver (first second : α) (n j k : ℕ) : List α :=
  if k = n then second :: (if k + j = n then [first] else [])
  else if k + j = n then [first] else []

private theorem flatMap_leftOver (tw : TimingWheel α) {m : ℕ} (hm : n < m) :
    (List.range m).flatMap (fun i ↦ List.reverse^[i / tw.slots] (leftOver first second n j i))
      = if j = 0 then List.reverse^[n / tw.slots] [second, first]
        else if j ≤ n then [first, second] else [second] := by
  have hnil : ∀ i, i ≠ n → i + j ≠ n →
      List.reverse^[i / tw.slots] (leftOver first second n j i) = [] := by
    intro i hi hj
    rw [leftOver, if_neg hi, if_neg hj, iterate_reverse_of_length_le_one _ (Nat.zero_le _)]
  have hsecond : j ≠ 0 →
      List.reverse^[n / tw.slots] (leftOver first second n j n) = [second] := by
    intro hj
    rw [leftOver, if_pos rfl, if_neg (by omega), iterate_reverse_of_length_le_one _ le_rfl]
  by_cases hzero : j = 0
  · subst hzero
    rw [flatMap_range_pair (Nat.lt_succ_self n) (fun i hi _ ↦ hnil i hi hi), if_pos hm,
      hnil (n + 1) (by omega) (by omega), ite_self, List.append_nil, leftOver, if_pos rfl,
      if_pos (Nat.add_zero n), if_pos rfl]
  rw [if_neg hzero]
  by_cases hle : j ≤ n
  · have hfirst : List.reverse^[(n - j) / tw.slots] (leftOver first second n j (n - j))
        = [first] := by
      rw [leftOver, if_neg (by omega), if_pos (by omega),
        iterate_reverse_of_length_le_one _ le_rfl]
    rw [flatMap_range_pair (show n - j < n by omega) (fun i hi hi' ↦ hnil i hi' (by omega)),
      if_pos (by omega), if_pos hm, hfirst, hsecond hzero, if_pos hle]
    rfl
  · rw [flatMap_range_pair (Nat.lt_succ_self n) (fun i hi _ ↦ hnil i hi (by omega)), if_pos hm,
      hnil (n + 1) (by omega) (by omega), ite_self, List.append_nil, hsecond hzero, if_neg hle]

/-- The call that is made with the first message before the second is added. -/
theorem flatMap_first (tw : TimingWheel α) :
    (List.range j).flatMap (fun i ↦ List.reverse^[i / tw.slots] (if i = n then [first] else []))
      = if n < j then [first] else [] := by
  have hnil : ∀ i, i ≠ n →
      List.reverse^[i / tw.slots] (if i = n then [first] else []) = [] := by
    intro i hi
    rw [if_neg hi, iterate_reverse_of_length_le_one _ (Nat.zero_le _)]
  rw [flatMap_range_pair (Nat.lt_succ_self n) (fun i hi _ ↦ hnil i hi), hnil (n + 1) (by omega),
    ite_self, List.append_nil, if_pos rfl, iterate_reverse_of_length_le_one _ le_rfl]

variable [DecidableEq α] {delay : ℤ}

private theorem either_first : either first second first = true := decide_eq_true (Or.inl rfl)

private theorem either_second : either first second second = true := decide_eq_true (Or.inr rfl)

private theorem shows_first (delay : ℤ) (hfirst : first ∉ tw.messages)
    (hsecond : second ∉ tw.messages) :
    Shows (either first second) (fun k ↦ if k = tw.ticks delay then [first] else [])
      (tw.insert first delay) := by
  intro k
  have hnone : (tw.due k).filter (either first second) = [] := by
    refine List.filter_eq_nil_iff.mpr fun msg hmsg ↦ ?_
    have hmem := mem_messages_of_mem_due hmsg
    rw [either, decide_eq_true_eq]
    rintro (rfl | rfl)
    · exact hfirst hmem
    · exact hsecond hmem
  change ((tw.insert first delay).due k).filter _ = if k = tw.ticks delay then [first] else []
  rw [due_insert]
  split
  · rw [List.filter_cons_of_pos either_first, hnone]
  · exact hnone

private theorem shows_second (delay : ℤ) {r : ℕ → ℕ}
    (h : Shows (either first second)
      (fun k ↦ List.reverse^[r k] (if k + j = tw.ticks delay then [first] else [])) tw) :
    Shows (either first second) (leftOver first second (tw.ticks delay) j)
      (tw.insert second delay) := by
  intro k
  have hk : (tw.due k).filter (either first second)
      = if k + j = tw.ticks delay then [first] else [] := by
    rw [h k]
    apply iterate_reverse_of_length_le_one
    split
    · exact le_rfl
    · exact Nat.zero_le _
  rw [due_insert, leftOver]
  split
  · rw [List.filter_cons_of_pos either_second, hk]
  · exact hk

private theorem filter_fired (hopen : tw.closed = false) (hfirst : first ∉ tw.messages)
    (hsecond : second ∉ tw.messages) (hdelay : 0 < delay) {mid rest : List (WheelOp α)}
    (hmid : ∀ op ∈ mid, ∀ msg ∈ op.added, either first second msg = false)
    (hrest : ∀ op ∈ rest, ∀ msg ∈ op.added, either first second msg = false)
    (hlong : tw.ticks delay < advances rest) :
    (tw.fired (.add first delay :: (mid ++ .add second delay :: rest))).flatten.filter
        (either first second)
      = if advances mid = 0 then List.reverse^[tw.ticks delay / tw.slots] [second, first]
        else [first, second] := by
  obtain ⟨hcalls, hstate⟩ := (shows_first delay hfirst hsecond).fired hmid
  set tw₁ := (tw.insert first delay).after mid with htw₁
  have hframe : tw₁.frame = tw.frame := frame_after mid (tw.insert first delay)
  have hticks : tw₁.ticks delay = tw.ticks delay := by
    rw [ticks, ticks, show tw₁.interval = tw.interval from congrArg Prod.fst hframe]
  have hslots : tw₁.slots = tw.slots := congrArg (fun f ↦ f.2.1) hframe
  have hopen₁ : tw₁.closed = false := (congrArg (fun f ↦ f.2.2) hframe).trans hopen
  rw [show (tw.insert first delay).slots = tw.slots from rfl, ← hticks] at hstate hcalls
  obtain ⟨hlater, -⟩ := (shows_second delay hstate).fired hrest
  rw [show (tw₁.insert second delay).slots = tw.slots from hslots,
    flatMap_leftOver tw (hticks.symm ▸ hlong)] at hlater
  have hsplit : tw.fired (.add first delay :: (mid ++ .add second delay :: rest))
      = [] :: ((tw.insert first delay).fired mid
        ++ [] :: (tw₁.insert second delay).fired rest) := by
    rw [fired, WheelOp.apply, add_eq hopen hdelay, fired_append, ← htw₁, fired, WheelOp.apply,
      add_eq hopen₁ hdelay]
    rfl
  rw [hsplit, List.flatten_cons, List.nil_append, List.flatten_append, List.flatten_cons,
    List.nil_append, List.filter_append, hcalls, hlater, flatMap_first, hticks]
  by_cases hzero : advances mid = 0
  · rw [if_pos hzero, if_pos hzero, if_neg (by omega), List.nil_append]
  · rw [if_neg hzero, if_neg hzero]
    by_cases hle : advances mid ≤ tw.ticks delay
    · rw [if_neg hle.not_gt, if_pos hle, List.nil_append]
    · rw [if_pos (not_le.mp hle), if_neg hle, List.singleton_append]

/-- **The order of two messages with the same delay** is kept if a tick comes between them, or if
the delay takes an odd number of turns of the wheel; otherwise it is reversed. -/
theorem keepsOrder_iff (tw : TimingWheel α) (hopen : tw.closed = false) (hne : first ≠ second)
    (hfirst : first ∉ tw.messages) (hsecond : second ∉ tw.messages) (hdelay : 0 < delay)
    (mid rest : List (WheelOp α))
    (hothers : ∀ op ∈ mid ++ rest, ∀ msg ∈ op.added, msg ≠ first ∧ msg ≠ second)
    (hlong : max 1 (delay / tw.interval).toNat < advances rest) :
    KeepsOrder first second
        (tw.fired (.add first delay :: (mid ++ .add second delay :: rest))).flatten ↔
      0 < advances mid ∨ Odd (max 1 (delay / tw.interval).toNat / tw.slots) := by
  have hmiss : ∀ ops : List (WheelOp α), ops ⊆ mid ++ rest →
      ∀ op ∈ ops, ∀ msg ∈ op.added, either first second msg = false := by
    intro ops hops op hop msg hmsg
    obtain ⟨h, h'⟩ := hothers op (hops hop) msg hmsg
    exact decide_eq_false (not_or_intro h h')
  rw [← ticks_eq hdelay] at hlong ⊢
  rw [KeepsOrder, filter_fired hopen hfirst hsecond hdelay
    (hmiss mid (List.subset_append_left _ _)) (hmiss rest (List.subset_append_right _ _)) hlong]
  by_cases hzero : advances mid = 0
  · rw [if_pos hzero, hzero, or_iff_right (lt_irrefl 0)]
    rcases Nat.even_or_odd (tw.ticks delay / tw.slots) with heven | hodd
    · rw [List.reverse_involutive.iterate_even heven]
      refine iff_of_false (fun h ↦ hne (List.cons.inj h).1.symm) (Nat.not_odd_iff_even.mpr heven)
    · rw [List.reverse_involutive.iterate_odd hodd]
      exact iff_of_true rfl hodd
  · rw [if_neg hzero]
    exact iff_of_true rfl (Or.inl (Nat.pos_of_ne_zero hzero))

end Order

/-- A wheel of two slots and a delay of three intervals: one turn. -/
theorem keepsOrder_iff_one_turn :
    KeepsOrder 1 2 ((newTimingWheel 10 2 : TimingWheel ℕ).fired
      (.add 1 35 :: ([.add 7 0] ++ .add 2 35 :: List.replicate 4 .advance))).flatten :=
  (keepsOrder_iff (newTimingWheel 10 2) rfl (by decide) (by decide) (by decide) (by decide)
    [.add 7 0] (List.replicate 4 .advance) (by decide) (by decide)).mpr
    (Or.inr (by decide))

/-- Two messages in a new topic, with a delay of 100ms: the second comes out first. -/
theorem second_comes_first :
    ((newTimingWheel (50 * millisecond) 3600 : TimingWheel ℕ).fired
        (.add 1 (100 * millisecond) :: ([] ++ .add 2 (100 * millisecond) ::
          List.replicate 3 .advance))).flatten = [2, 1] ∧
      ¬KeepsOrder 1 2 ((newTimingWheel (50 * millisecond) 3600 : TimingWheel ℕ).fired
        (.add 1 (100 * millisecond) :: ([] ++ .add 2 (100 * millisecond) ::
          List.replicate 3 .advance))).flatten := by
  have hcalls : ((newTimingWheel (50 * millisecond) 3600 : TimingWheel ℕ).fired
      (.add 1 (100 * millisecond) :: ([] ++ .add 2 (100 * millisecond) ::
        List.replicate 3 .advance))).flatten = [2, 1] := by decide +kernel
  rw [hcalls]
  exact ⟨rfl, by unfold KeepsOrder; decide⟩

end TimingWheel

/-! ## The wheel of a topic -/

/-- From one state of a topic to another, its wheel has seen calls of `Add` and `n` ticks. -/
def Topic.Turns (n : ℕ) (t t' : Topic) : Prop :=
  ∃ ops : List (WheelOp Message), t'.tw = t.tw.after ops ∧ advances ops = n

section Turns

variable {t t' : Topic} {L : Ledger} {r : Section}

theorem Topic.Turns.of_eq (h : t'.tw = t.tw) : t.Turns 0 t' := ⟨[], h, rfl⟩

theorem Topic.turns_schedule (t : Topic) (msg : Message) (delay : ℤ) :
    t.Turns 0 (t.schedule msg delay) := by
  refine ⟨[.add msg delay], ?_, rfl⟩
  rw [schedule]
  split
  · rename_i m tw h
    exact (congrArg Prod.snd h).symm
  · rename_i tw h
    exact (congrArg Prod.snd h).symm

theorem Topic.turns_route (t : Topic) (msg : Message) (now : ℤ) (route : ConsumerGroup.Route) :
    t.Turns 0 (t.route msg now route) := by
  cases route with
  | deadLetter => exact .of_eq rfl
  | retry delay => exact t.turns_schedule msg delay

/-- The ticks in a call. -/
def Call.ticks : Call → ℕ
  | .advance => 1
  | _ => 0

theorem Topic.turns_start {c : Call} (hstart : t.start L c = some r) : t.Turns c.ticks r.1 := by
  cases c with
  | publish | sweepConsumerTimeouts | close =>
    rw [Topic.start] at hstart
    split at hstart
    · exact absurd hstart (by simp)
    · split at hstart <;> cases hstart <;> exact .of_eq rfl
  | publishDelayed msg delay now =>
    obtain rfl := Option.some_inj.mp hstart
    exact (t.countPublished msg).turns_schedule _ delay
  | consume =>
    rw [Topic.start] at hstart
    cases hcon : t.consume with
    | none =>
      rw [hcon] at hstart
      obtain rfl := Option.some_inj.mp hstart
      exact .of_eq rfl
    | some x =>
      rw [hcon] at hstart
      obtain rfl := Option.some_inj.mp hstart
      rw [consume, pop, Option.map_map, Option.map_eq_some_iff] at hcon
      obtain ⟨msg, -, rfl⟩ := hcon
      exact .of_eq rfl
  | consumeGroup groupName consumerID =>
    rw [Topic.start] at hstart
    split at hstart
    · exact absurd hstart (by simp)
    · obtain rfl := Option.some_inj.mp hstart
      apply Turns.of_eq
      rw [getOrCreateGroup]
      split <;> rfl
  | ack | nack =>
    rw [Topic.start] at hstart
    split at hstart
    · exact absurd hstart (by simp)
    · obtain rfl := Option.some_inj.mp hstart
      exact .of_eq rfl
  | advance =>
    obtain rfl := Option.some_inj.mp hstart
    exact ⟨[.advance], rfl, rfl⟩
  | replayDeadLetter msgID | dlqRemove msgID =>
    rw [Topic.start] at hstart
    split at hstart <;> cases hstart <;> exact .of_eq rfl
  | dlqPurge =>
    obtain rfl := Option.some_inj.mp hstart
    exact .of_eq rfl

theorem Task.turns_resume {task : Task} {now : ℤ} {order : List Message}
    (hresume : task.resume t L now order = some r) (hstop : task ≠ .closeWheel) :
    t.Turns 0 r.1 := by
  cases task with
  | publish msg front =>
    obtain rfl := Option.some_inj.mp hresume
    exact .of_eq (t.fields_push msg front).2.2.1
  | popWait =>
    rw [Task.resume, Topic.pop, Option.map_map, Option.map_eq_some_iff] at hresume
    obtain ⟨x, -, rfl⟩ := hresume
    exact .of_eq rfl
  | checkout =>
    rw [Task.resume, Topic.checkout, Option.map_map, Option.map_eq_some_iff] at hresume
    obtain ⟨x, -, rfl⟩ := hresume
    exact .of_eq rfl
  | ack groupName msgID =>
    rw [Task.resume, Topic.ack, Option.map_map, Option.map_eq_some_iff] at hresume
    obtain ⟨cg, -, rfl⟩ := hresume
    apply Topic.Turns.of_eq
    rw [Function.comp_apply]
    split <;> rfl
  | nack groupName msgID reason =>
    rw [Task.resume, Option.map_eq_some_iff] at hresume
    obtain ⟨cg, -, rfl⟩ := hresume
    split <;> exact .of_eq rfl
  | fail msg reason =>
    rw [Task.resume, Option.map_eq_some_iff] at hresume
    obtain ⟨route, -, rfl⟩ := hresume
    exact t.turns_route _ now route
  | sweep groups timedOut =>
    cases timedOut with
    | nil =>
      cases groups with
      | nil =>
        obtain rfl := Option.some_inj.mp hresume
        exact .of_eq rfl
      | cons groupName groups =>
        rw [Task.resume, Option.map_eq_some_iff] at hresume
        obtain ⟨t', hsweep, rfl⟩ := hresume
        rw [Topic.sweepGroup, Option.bind_eq_some_iff] at hsweep
        obtain ⟨cg, -, hsweep⟩ := hsweep
        rw [Option.ite_none_right_eq_some, Option.some_inj] at hsweep
        exact .of_eq (hsweep.2 ▸ rfl)
    | cons msg timedOut =>
      rw [Task.resume] at hresume
      obtain rfl := Option.some_inj.mp hresume
      exact t.turns_route _ now _
  | expire msgs =>
    cases msgs <;> obtain rfl := Option.some_inj.mp hresume <;> exact .of_eq rfl
  | replay | closeRing =>
    obtain rfl := Option.some_inj.mp hresume
    exact .of_eq rfl
  | closeWheel => exact absurd rfl hstop

end Turns

namespace TimingWheel

private theorem after_append {α : Type} : ∀ (ops ops' : List (WheelOp α)) (tw : TimingWheel α),
    tw.after (ops ++ ops') = (tw.after ops).after ops' := by
  intro ops ops'
  induction ops with
  | nil => intro tw; rfl
  | cons op ops ih => intro tw; exact ih _

end TimingWheel

/-- The ticks in a step. -/
def TopicLabel.ticks : TopicLabel → ℕ
  | .call c => c.ticks
  | _ => 0

theorem TopicState.turns_step {s s' : TopicState} {l : TopicLabel} (hstep : s.step l = some s')
    (hopen : s'.topic.tw.closed = false) : s.topic.Turns l.ticks s'.topic := by
  cases l with
  | call c =>
    rw [step, Option.map_eq_some_iff] at hstep
    obtain ⟨r, hstart, rfl⟩ := hstep
    exact Topic.turns_start hstart
  | resume i now order =>
    rw [step, Option.bind_eq_some_iff] at hstep
    obtain ⟨task, -, hstep⟩ := hstep
    rw [Option.map_eq_some_iff] at hstep
    obtain ⟨r, hresume, rfl⟩ := hstep
    refine Task.turns_resume hresume ?_
    rintro rfl
    obtain rfl := Option.some_inj.mp hresume
    exact Bool.false_ne_true hopen.symm
  | giveUp i =>
    rw [step, Option.bind_eq_some_iff] at hstep
    obtain ⟨task, -, hstep⟩ := hstep
    split at hstep
    · obtain rfl := Option.some_inj.mp hstep
      exact .of_eq rfl
    · exact absurd hstep (Option.some_ne_none _).symm

/-- **All that happens to a topic** until its wheel is stopped comes to the wheel as calls of `Add`
and as many ticks as there are. -/
theorem TopicState.turns_run {s t : TopicState} {ls : List TopicLabel}
    (hrun : Run step (fun s ↦ s.topic.tw.closed = false) s ls t) :
    s.topic.Turns (ls.map TopicLabel.ticks).sum t.topic := by
  refine hrun.history (I := fun ls t ↦ s.topic.Turns (ls.map TopicLabel.ticks).sum t.topic)
    (fun ls u l t _ hopen hstep hI ↦ ?_) (.of_eq rfl)
  obtain ⟨ops, hops, hcount⟩ := hI
  obtain ⟨ops', hops', hcount'⟩ := turns_step hstep hopen
  refine ⟨ops ++ ops', ?_, ?_⟩
  · rw [TimingWheel.after_append, ← hops, hops']
  · rw [advances, List.countP_append, List.map_append, List.sum_append]
    exact congrArg₂ (· + ·) hcount (hcount'.trans (List.sum_singleton).symm)

/-! ## Delivery times -/

namespace Topic

/-- The message as `PublishDelayed` stamps it. -/
def delayed (msg : Message) (delay now : ℤ) : Message :=
  { msg with deliverAt := wrap64 (now + delay) }

private theorem tw_publishDelayed (t : Topic) (hopen : t.tw.closed = false) (msg : Message)
    {delay : ℤ} (hdelay : 0 < delay) (now : ℤ) :
    (t.publishDelayed msg delay now).tw = (t.tw.add (delayed msg delay now) delay).2 := by
  have hadd := TimingWheel.add_eq hopen hdelay (delayed msg delay now)
  have hcount : (t.countPublished msg).tw.add { msg with deliverAt := wrap64 (now + delay) } delay
      = _ := hadd
  rw [publishDelayed, schedule, hcount, hadd]

/-- The `i`-th operation on the wheel since the call of `PublishDelayed` pushes the message to the
ring: it passes to `onExpire` what it would have passed anyway, and the message. -/
def EntersAt (t : Topic) (msg : Message) (delay now : ℤ) (ops : List (WheelOp Message)) (i : ℕ) :
    Prop :=
  ∃ before after, (t.tw.fired ops)[i]? = some before ∧
    ((t.publishDelayed msg delay now).tw.fired ops)[i]? = some after ∧
    after.Perm (delayed msg delay now :: before)

/-- The time of a tick, if the ticks come at `phase + k * interval` and the `k`-th is the first
since the call. -/
def tickTime (t : Topic) (phase k : ℤ) (ops : List (WheelOp Message)) (i : ℕ) : ℤ :=
  phase + (k + advances (ops.take i)) * t.tw.interval

/-- Sooner or later the message is in the ring, not before the time it is to be delivered and at
most two intervals after it. -/
def OnTime (t : Topic) (msg : Message) (delay now phase k : ℤ) : Prop :=
  ∃ n, ∀ ops : List (WheelOp Message), n ≤ advances ops → ∃ i, ops[i]? = some .advance ∧
    t.EntersAt msg delay now ops i ∧ now + delay ≤ t.tickTime phase k ops i ∧
    t.tickTime phase k ops i ≤ now + delay + 2 * t.tw.interval

variable {t : Topic} {msg : Message} {delay now : ℤ}

/-- The message enters with the tick that has its number of ticks before it. -/
theorem entersAt_iff (hopen : t.tw.closed = false) (hdelay : 0 < delay)
    {ops : List (WheelOp Message)} {i : ℕ} {op : WheelOp Message} (hop : ops[i]? = some op) :
    t.EntersAt msg delay now ops i ↔
      op.isAdvance ∧ advances (ops.take i) = t.tw.ticks delay := by
  obtain ⟨before, after, hbefore, hafter, hperm⟩ :=
    TimingWheel.fired_add hopen (delayed msg delay now) hdelay hop
  rw [← t.tw_publishDelayed hopen msg hdelay now] at hafter
  constructor
  · rintro ⟨before', after', hbefore', hafter', hperm'⟩
    obtain rfl := Option.some_inj.mp (hbefore.symm.trans hbefore')
    obtain rfl := Option.some_inj.mp (hafter.symm.trans hafter')
    by_contra hnot
    rw [if_neg hnot] at hperm
    have hlen := (hperm.symm.trans hperm').length_eq
    rw [List.nil_append, List.length_cons] at hlen
    omega
  · intro h
    rw [if_pos h] at hperm
    exact ⟨before, after, hbefore, hafter, hperm⟩

private theorem exists_advance : ∀ {ops : List (WheelOp Message)} {n : ℕ}, n < advances ops →
    ∃ i, ops[i]? = some .advance ∧ advances (ops.take i) = n := by
  intro ops
  induction ops with
  | nil => intro n h; exact absurd h (Nat.not_lt_zero n)
  | cons op ops ih =>
    intro n h
    rw [WheelOp.advances_cons] at h
    cases op with
    | add msg delay =>
      obtain ⟨i, hi, hcount⟩ := ih h
      refine ⟨i + 1, hi, ?_⟩
      rw [List.take_succ_cons, WheelOp.advances_cons, hcount]
      rfl
    | advance =>
      cases n with
      | zero => exact ⟨0, rfl, rfl⟩
      | succ n =>
        obtain ⟨i, hi, hcount⟩ := ih (Nat.lt_of_succ_lt_succ h)
        refine ⟨i + 1, hi, ?_⟩
        rw [List.take_succ_cons, WheelOp.advances_cons, hcount]
        rfl

/-- The ticks waited for take at most one interval more than the delay. -/
theorem ticks_mul_le (tw : TimingWheel Message) (hdelay : 0 < delay) :
    tw.ticks delay * tw.interval ≤ delay + tw.interval := by
  have hpos := tw.interval_pos
  rw [TimingWheel.ticks_eq hdelay]
  rcases le_total 1 (delay / tw.interval).toNat with h | h
  · rw [max_eq_right h, Int.toNat_of_nonneg (Int.ediv_nonneg hdelay.le hpos.le)]
    exact (Int.ediv_mul_le delay hpos.ne').trans (by omega)
  · rw [max_eq_left h, Nat.cast_one, one_mul]
    omega

theorem onTime_iff_ticks (hopen : t.tw.closed = false) (hdelay : 0 < delay) {phase k : ℤ}
    (hlast : phase + (k - 1) * t.tw.interval ≤ now) :
    t.OnTime msg delay now phase k ↔
      now + delay ≤ phase + (k + t.tw.ticks delay) * t.tw.interval := by
  have htime : ∀ {ops : List (WheelOp Message)} {i : ℕ},
      advances (ops.take i) = t.tw.ticks delay →
      t.tickTime phase k ops i = phase + (k + t.tw.ticks delay) * t.tw.interval := by
    intro ops i h
    rw [tickTime, h]
  constructor
  · rintro ⟨n, h⟩
    have hcount : advances (List.replicate n (WheelOp.advance : WheelOp Message)) = n :=
      List.countP_replicate.trans (if_pos rfl)
    obtain ⟨i, hi, henters, hearly, -⟩ := h (List.replicate n .advance) hcount.ge
    rw [htime ((entersAt_iff hopen hdelay hi).mp henters).2] at hearly
    exact hearly
  · intro hcond
    refine ⟨t.tw.ticks delay + 1, fun ops hops ↦ ?_⟩
    obtain ⟨i, hi, hcount⟩ := exists_advance hops
    refine ⟨i, hi, (entersAt_iff hopen hdelay hi).mpr ⟨rfl, hcount⟩, ?_, ?_⟩
    · rw [htime hcount]
      exact hcond
    · have hle := ticks_mul_le t.tw hdelay
      rw [htime hcount]
      linarith

/-- **A delayed message is on time** exactly if the tick it waits for comes late enough: the first
tick after the call, which is the `k`-th, and from there the full intervals in the delay, at least
one of them. It is never more than two intervals late. -/
theorem onTime_iff (t : Topic) (hopen : t.tw.closed = false) (msg : Message) (hdelay : 0 < delay)
    (now phase k : ℤ) (hlast : phase + (k - 1) * t.tw.interval ≤ now) :
    t.OnTime msg delay now phase k ↔
      now + delay ≤ phase + (k + max 1 (delay / t.tw.interval)) * t.tw.interval := by
  have hticks : max 1 (delay / t.tw.interval) = t.tw.ticks delay := by
    rw [TimingWheel.ticks_eq hdelay]
    omega
  rw [hticks]
  exact onTime_iff_ticks hopen hdelay hlast

/-- A delay of two full intervals. -/
theorem onTime_iff_two_intervals :
    (default (bytesOf "q")).OnTime (Message.newMessage (bytesOf "q") none 0 1 [])
      (100 * millisecond) (20 * millisecond) 0 1 :=
  (onTime_iff (default (bytesOf "q")) rfl _ (by decide) (20 * millisecond) 0 1 (by decide)).mpr
    (by decide)

/-- A call with a delay of 95ms, 5ms before a tick: the message is in the ring with the second tick,
55ms after the call. -/
theorem delivered_early :
    (((default (bytesOf "q")).publishDelayed (Message.newMessage (bytesOf "q") none 0 1 [])
        (95 * millisecond) (45 * millisecond)).runAdvance.runAdvance.ring.items.map
        Message.deliverAt) = [140 * millisecond] ∧
      ¬(default (bytesOf "q")).OnTime (Message.newMessage (bytesOf "q") none 0 1 [])
        (95 * millisecond) (45 * millisecond) 0 1 := by
  refine ⟨by decide +kernel, fun h ↦ ?_⟩
  have hcond := (onTime_iff_ticks (t := default (bytesOf "q")) rfl (by decide) (by decide)).mp h
  exact absurd hcond (by decide +kernel)

end Topic

end VortexMQ
