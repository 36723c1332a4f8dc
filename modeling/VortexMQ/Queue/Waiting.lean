import VortexMQ.Basic.Run
import VortexMQ.Queue.RingRefinement

/-!
# Waiting at the ring

`PopWait` of `internal/queue/ring.go`. A caller that finds an open ring empty goes to sleep on the
condition variable; once woken it waits for the lock and looks again. The critical sections of the
ring are the steps, and any number of callers can be asleep or woken at the same time.

A `Signal` wakes one sleeper and the label says which. The broadcast of a timer may come at any
time: what follows does not depend on when timers are started, or whether they are stopped in time.

A woken caller is not bound to find a message, since another caller may be faster. What makes up for
it is a count: as long as anybody sleeps, there are at least as many woken callers as messages.
-/

namespace VortexMQ

/-- A caller inside `PopWait`, with its deadline if its timeout was not zero. -/
structure Waiter where
  deadline : Option ℤ
  deriving DecidableEq

namespace RingBuffer

variable {α : Type}

/-- A caller of `PopWait` that has the lock: it returns with an answer, or goes to sleep. -/
def popWait (rb : RingBuffer α) (w : Waiter) (now : ℤ) :
    Option (Option α × Bool) × RingBuffer α :=
  if rb.head = rb.tail ∧ rb.closed = false then
    match w.deadline with
    | none => (none, rb)
    | some deadline => if deadline - now ≤ 0 then (some (none, false), rb) else (none, rb)
  else (some rb.pop.1, rb.pop.2)

end RingBuffer

/-! ## The system -/

/-- A ring and the callers of `PopWait` that have not returned. -/
structure WaitState (α : Type) where
  ring : RingBuffer α
  /-- In `cond.Wait`. -/
  sleeping : List Waiter
  /-- Woken, but not yet in possession of the lock. -/
  woken : List Waiter

inductive WaitLabel (α : Type) where
  /-- `Push`; its `Signal` wakes the given sleeper. -/
  | push (msg : α) (wakes : ℕ)
  | pushFront (msg : α) (wakes : ℕ)
  | pop
  | popBatch (max : ℤ)
  /-- A caller enters `PopWait`. -/
  | popWait (timeout now : ℤ)
  /-- A woken caller gets the lock. -/
  | resume (i : ℕ) (now : ℤ)
  /-- The function of a timer runs. -/
  | timer
  | close

namespace WaitState

variable {α : Type}

def init (rb : RingBuffer α) : WaitState α := ⟨rb, [], []⟩

/-- `Signal`: wake one sleeper, if there is one. -/
def signal (s : WaitState α) (i : ℕ) : Option (WaitState α) :=
  if s.sleeping = [] then some s
  else (s.sleeping[i]?).map fun w ↦
    { s with sleeping := s.sleeping.eraseIdx i, woken := s.woken ++ [w] }

/-- `Broadcast`: wake everybody. -/
def broadcast (s : WaitState α) : WaitState α :=
  { s with sleeping := [], woken := s.woken ++ s.sleeping }

/-- A caller of `PopWait` has the lock. -/
def turn (s : WaitState α) (w : Waiter) (now : ℤ) : WaitState α :=
  match s.ring.popWait w now with
  | (none, rb) => { s with ring := rb, sleeping := s.sleeping ++ [w] }
  | (some _, rb) => { s with ring := rb }

/-- The end of both pushes: nobody is woken for a message that was refused. -/
def afterPush (s : WaitState α) (r : Bool × RingBuffer α) (wakes : ℕ) : Option (WaitState α) :=
  if r.1 then signal { s with ring := r.2 } wakes else some { s with ring := r.2 }

def step (s : WaitState α) : WaitLabel α → Option (WaitState α)
  | .push msg wakes => s.afterPush (s.ring.push msg) wakes
  | .pushFront msg wakes => s.afterPush (s.ring.pushFront msg) wakes
  | .pop => some { s with ring := s.ring.pop.2 }
  | .popBatch max => (s.ring.popBatch max).map fun r ↦ { s with ring := r.2 }
  | .popWait timeout now =>
      some (s.turn ⟨if timeout = 0 then none else some (now + timeout)⟩ now)
  | .resume i now =>
      (s.woken[i]?).map fun w ↦ turn { s with woken := s.woken.eraseIdx i } w now
  | .timer => some s.broadcast
  | .close => some (broadcast { s with ring := s.ring.close })

/-! ## The invariant -/

/-- As long as anybody sleeps, every message has a woken caller to fetch it; nobody sleeps at a
closed ring. -/
structure Attended (s : WaitState α) (d : Deque α) : Prop where
  refines : s.ring.Refines d
  awake : s.sleeping ≠ [] → d.items.length ≤ s.woken.length
  closed : d.closed = true → s.sleeping = []

variable {s s' : WaitState α} {d : Deque α}

private theorem attended_broadcast (h : s.ring.Refines d) : s.broadcast.Attended d :=
  ⟨h, fun hne ↦ absurd rfl hne, fun _ ↦ rfl⟩

private theorem attended_signal {i : ℕ} (h : s.ring.Refines d) (hopen : d.closed = false)
    (hawake : s.sleeping ≠ [] → d.items.length ≤ s.woken.length + 1)
    (hs' : s.signal i = some s') : s'.Attended d := by
  have hclosed : d.closed = true → s'.sleeping = [] := fun hc ↦
    absurd (hopen.symm.trans hc) Bool.false_ne_true
  rw [signal] at hs'
  split at hs'
  · rename_i hnil
    obtain rfl := Option.some_inj.mp hs'
    exact ⟨h, fun hne ↦ absurd hnil hne, hclosed⟩
  · rename_i hne
    obtain ⟨w, -, rfl⟩ := Option.map_eq_some_iff.mp hs'
    refine ⟨h, fun _ ↦ ?_, hclosed⟩
    rw [List.length_append, List.length_singleton]
    exact hawake hne

theorem Attended.afterPush {d' : Deque α} {ok : Bool} {rb : RingBuffer α} {i : ℕ}
    (h : s.Attended d) (hrb : rb.Refines d') (hclosed : d'.closed = d.closed) (hok : ok = !d.closed)
    (hlen : d'.items.length ≤ d.items.length + 1) (hs' : s.afterPush (ok, rb) i = some s') :
    ∃ d'', s'.Attended d'' := by
  rw [WaitState.afterPush] at hs'
  cases hc : d.closed with
  | false =>
    rw [hok, hc, Bool.not_false, if_pos rfl] at hs'
    refine ⟨d', attended_signal (s := { s with ring := rb }) hrb (hclosed.trans hc) ?_ hs'⟩
    intro hne
    exact hlen.trans (Nat.add_le_add_right (h.awake hne) 1)
  | true =>
    rw [hok, hc, Bool.not_true, if_neg Bool.false_ne_true] at hs'
    obtain rfl := Option.some_inj.mp hs'
    have hnil := h.closed hc
    exact ⟨d', hrb, fun hne ↦ absurd hnil hne, fun _ ↦ hnil⟩

theorem Attended.shrink {d' : Deque α} {rb : RingBuffer α} (h : s.Attended d)
    (hrb : rb.Refines d') (hclosed : d'.closed = d.closed)
    (hlen : d'.items.length ≤ d.items.length) : Attended { s with ring := rb } d' :=
  ⟨hrb, fun hne ↦ hlen.trans (h.awake hne), fun hc ↦ h.closed (hclosed.symm.trans hc)⟩

/-- A caller with the lock. If there is a message it takes one, whatever its deadline; it sleeps
only when there is none. The woken callers are one fewer, which is why `hawake` speaks of one less.
-/
theorem attended_turn {w : Waiter} {now : ℤ} (h : s.ring.Refines d)
    (hawake : s.sleeping ≠ [] → d.items.length ≤ s.woken.length + 1)
    (hclosed : d.closed = true → s.sleeping = []) : ∃ d', (s.turn w now).Attended d' := by
  have hempty : s.ring.head = s.ring.tail ↔ d.items = [] := h.repr.head_eq_tail_iff
  rw [turn, RingBuffer.popWait]
  by_cases hwait : s.ring.head = s.ring.tail ∧ s.ring.closed = false
  · have hnil : d.items.length ≤ s.woken.length := by
      rw [hempty.mp hwait.1]
      exact Nat.zero_le _
    have hopen : d.closed = false := h.closed_eq.symm.trans hwait.2
    have hsleep : Attended { s with sleeping := s.sleeping ++ [w] } d :=
      ⟨h, fun _ ↦ hnil, fun hc ↦ absurd (hopen.symm.trans hc) Bool.false_ne_true⟩
    refine ⟨d, ?_⟩
    rw [if_pos hwait]
    cases w.deadline with
    | none => exact hsleep
    | some deadline =>
      by_cases hdue : deadline - now ≤ 0
      · simp only [if_pos hdue]
        exact ⟨h, fun _ ↦ hnil, hclosed⟩
      · simp only [if_neg hdue]
        exact hsleep
  · rw [if_neg hwait]
    refine ⟨d.popFront.2, h.pop.2, fun hne ↦ ?_, hclosed⟩
    have hle := hawake hne
    rw [Deque.popFront, List.length_tail]
    exact Nat.sub_le_of_le_add hle

theorem Attended.step {l : WaitLabel α} (h : s.Attended d) (hs' : s.step l = some s') :
    ∃ d', s'.Attended d' := by
  cases l with
  | push msg wakes =>
    obtain ⟨hok, hrb⟩ := h.refines.push msg
    exact h.afterPush hrb d.closed_pushBack (hok.trans d.accepted_pushBack) d.length_pushBack_le hs'
  | pushFront msg wakes =>
    obtain ⟨hok, hrb⟩ := h.refines.pushFront msg
    exact h.afterPush hrb d.closed_pushFront (hok.trans d.accepted_pushFront)
      d.length_pushFront_le hs'
  | pop =>
    obtain rfl := Option.some_inj.mp hs'
    refine ⟨_, h.shrink h.refines.pop.2 rfl ?_⟩
    rw [Deque.popFront, List.length_tail]
    exact Nat.sub_le _ _
  | popBatch max =>
    obtain ⟨r, hr, rfl⟩ := Option.map_eq_some_iff.mp hs'
    obtain ⟨rb, hbatch, hrb⟩ := h.refines.popBatch max
    obtain rfl := Option.some_inj.mp (hbatch.symm.trans hr)
    obtain ⟨hlen, hclosed⟩ := Deque.popFronts_le (min max d.items.length).toNat d
    exact ⟨_, h.shrink hrb hclosed hlen⟩
  | popWait timeout now =>
    obtain rfl := Option.some_inj.mp hs'
    exact attended_turn h.refines (fun hne ↦ (h.awake hne).trans (Nat.le_succ _)) h.closed
  | resume i now =>
    obtain ⟨w, hw, rfl⟩ := Option.map_eq_some_iff.mp hs'
    obtain ⟨hi, -⟩ := List.getElem?_eq_some_iff.mp hw
    refine attended_turn (s := { s with woken := s.woken.eraseIdx i }) h.refines (fun hne ↦ ?_)
      h.closed
    have hle := h.awake hne
    rw [List.length_eraseIdx_of_lt hi]
    omega
  | timer =>
    obtain rfl := Option.some_inj.mp hs'
    exact ⟨d, attended_broadcast h.refines⟩
  | close =>
    obtain rfl := Option.some_inj.mp hs'
    exact ⟨d.close, attended_broadcast (s := { s with ring := s.ring.close }) h.refines.close⟩

/-- **No wake-up is lost.** In every interleaving, whenever a caller of `PopWait` sleeps there are
at least as many woken callers on their way to the lock as there are messages; in particular nobody
sleeps next to a message that no woken caller is going to look at. Once the ring is closed nobody
sleeps at all. -/
theorem length_le_woken_of_run {rb : RingBuffer α} {cap : UInt64} {labels : List (WaitLabel α)}
    (hnew : RingBuffer.newRingBuffer cap = some rb)
    (hrun : Run step (fun _ ↦ True) (init rb) labels s) :
    (s.sleeping ≠ [] → s.ring.len ≤ s.woken.length) ∧
      (s.ring.len ≠ 0 → s.sleeping ≠ [] → s.woken ≠ []) ∧
      (s.ring.closed = true → s.sleeping = []) := by
  obtain ⟨d₀, hd₀⟩ := RingBuffer.exists_refines_of_new hnew
  have hinit : ∃ d, (init rb).Attended d :=
    ⟨d₀, hd₀, fun hne ↦ absurd rfl hne, fun _ ↦ rfl⟩
  have hpres : ∀ ⦃u l v⦄, True → True → step u l = some v →
      (∃ d, u.Attended d) → ∃ d : Deque α, v.Attended d := by
    rintro u l v - - hstep ⟨d, hd⟩
    exact hd.step hstep
  obtain ⟨d, hd⟩ := hrun.invariant hpres hinit
  have hlen : s.ring.len = d.items.length := hd.refines.repr.len_eq
  refine ⟨fun hne ↦ ?_, fun hmsg hne hnil ↦ ?_, fun hclosed ↦ ?_⟩
  · rw [hlen]
    exact Int.ofNat_le.mpr (hd.awake hne)
  · have hle := hd.awake hne
    rw [hnil, List.length_nil, Nat.le_zero] at hle
    rw [hlen, hle] at hmsg
    exact hmsg rfl
  · exact hd.closed (hd.refines.closed_eq.symm.trans hclosed)

/-- Two callers sleep and a push wakes the second of them: the message has its caller. -/
theorem length_le_woken_of_run_push :
    ∃ rb s, RingBuffer.newRingBuffer 4 = some rb ∧
      Run step (fun _ ↦ True) (init (α := ℕ) rb) [.popWait 0 0, .popWait 5 0, .push 7 1] s ∧
      s.sleeping = [⟨none⟩] ∧ s.ring.len = 1 ∧ s.woken ≠ [] := by
  let rb : RingBuffer ℕ := (RingBuffer.newRingBuffer 4).get (by decide +kernel)
  have hnew : RingBuffer.newRingBuffer 4 = some rb := (Option.some_get _).symm
  have hsome : (Run.exec step (fun _ ↦ True) (init rb)
      [.popWait 0 0, .popWait 5 0, .push 7 1]).isSome := by decide +kernel
  have hrun := Run.of_exec (Option.some_get hsome).symm
  have hsleeping := hrun.of_exec_map (f := WaitState.sleeping) (a := [⟨none⟩]) (by decide +kernel)
  have hlen := hrun.of_exec_map (f := fun s ↦ s.ring.len) (a := 1) (by decide +kernel)
  refine ⟨rb, _, hnew, hrun, hsleeping, hlen, ?_⟩
  refine (length_le_woken_of_run hnew hrun).2.1 ?_ ?_
  · rw [hlen]
    exact one_ne_zero
  · rw [hsleeping]
    exact List.cons_ne_nil _ _

end WaitState

end VortexMQ
