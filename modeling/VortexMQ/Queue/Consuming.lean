import VortexMQ.Queue.PublishRace
import VortexMQ.Queue.Waiting

/-!
# Waiting for a message

One call of `Broker.Consume` next to any number of calls of `Publish` and `PublishFront`. `Consume`
looks up its topic and only then enters `PopWait`, and no lock is held in between. The publishers
are those of `VortexMQ.Queue.PublishRace`; nobody else takes messages, and nobody closes the broker.

A publisher is not done when its message is in the ring: the call returns to its caller at some
later time. `inTime` records whether one has returned after `Consume` was called and before its
deadline.

`Consume` does not create the topic, as `ConsumeGroup` does. Where there is none it returns at once,
and a publish that comes to the topic while it should be waiting is not seen.
-/

namespace VortexMQ

/-- The deadline has been reached. -/
def Waiter.Due (w : Waiter) (now : ℤ) : Prop := ∃ deadline ∈ w.deadline, deadline ≤ now

instance (w : Waiter) (now : ℤ) : Decidable (w.Due now) :=
  inferInstanceAs (Decidable (∃ deadline ∈ w.deadline, deadline ≤ now))

theorem Waiter.Due.mono {w : Waiter} {now now' : ℤ} (h : w.Due now) (hle : now ≤ now') :
    w.Due now' :=
  let ⟨deadline, hdeadline, hdue⟩ := h
  ⟨deadline, hdeadline, hdue.trans hle⟩

namespace Ring

variable {α : Type} (r : Ring α)

theorem head_eq_tail_iff : r.buf.head = r.buf.tail ↔ r.items = [] := by
  obtain ⟨d, hd⟩ := r.valid
  rw [items_eq hd]
  exact hd.repr.head_eq_tail_iff

/-- `PopWait` with the lock in hand: an answer, or nothing if the caller goes to sleep. -/
def popWait (w : Waiter) (now : ℤ) : Option (Option α) × Ring α :=
  ((r.buf.popWait w now).1.map Prod.fst, ⟨(r.buf.popWait w now).2, by
    rw [RingBuffer.popWait]
    split
    · split
      · exact r.valid
      · split
        · exact r.valid
        · exact r.valid
    · exact r.pop.2.valid⟩)

variable {r}

private theorem popWait_of_ne_nil (w : Waiter) (now : ℤ) (h : r.items ≠ []) :
    r.popWait w now = (some r.pop.1, r.pop.2) := by
  have hwait : ¬(r.buf.head = r.buf.tail ∧ r.buf.closed = false) := fun hwait ↦
    h (r.head_eq_tail_iff.mp hwait.1)
  have hbuf : r.buf.popWait w now = (some r.buf.pop.1, r.buf.pop.2) := if_neg hwait
  simp only [popWait, hbuf, Option.map_some]
  rfl

private theorem popWait_of_nil (w : Waiter) (now : ℤ) (h : r.items = []) :
    r.popWait w now = (if r.closed = true ∨ w.Due now then some none else none, r) := by
  have hempty := r.head_eq_tail_iff.mpr h
  cases hclosed : r.buf.closed with
  | true =>
    have hbuf : r.buf.popWait w now = (some (none, false), r.buf) := by
      rw [RingBuffer.popWait, if_neg (by rw [hclosed]; simp), RingBuffer.pop, if_pos hempty]
    simp only [popWait, hbuf, Option.map_some, closed, hclosed, true_or, if_true]
  | false =>
    have hbuf : r.buf.popWait w now = (if w.Due now then some (none, false) else none, r.buf) := by
      rw [RingBuffer.popWait, if_pos ⟨hempty, hclosed⟩]
      cases hw : w.deadline with
      | none =>
        have hdue : ¬w.Due now := by simp [Waiter.Due, hw]
        rw [if_neg hdue]
      | some deadline =>
        have hdue : w.Due now ↔ deadline - now ≤ 0 := by
          simp [Waiter.Due, hw]
        simp only [hdue]
        split <;> rfl
    simp only [popWait, hbuf, closed, hclosed, Bool.false_eq_true, false_or]
    split <;> rfl

end Ring

theorem PublishSystem.topics_pushStep (s : PublishSystem) (n : ℕ) (task : PublishTask) (t : Topic) :
    (s.pushStep n task t).broker.topics =
      s.broker.topics.insert task.msg.topic (t.push task.msg task.front).2 := by
  rw [pushStep]
  split <;> rfl

/-! ## The system -/

/-- How far the call of `Consume` has come. -/
inductive ConsumeStage where
  /-- Not called yet. -/
  | idle
  /-- `GetTopic` has found the topic, and `PopWait` comes next. -/
  | found
  /-- In `cond.Wait`. -/
  | sleeping
  /-- Woken, but not yet in possession of the lock. -/
  | woken
  | returned (answer : Option Message)
  deriving DecidableEq

structure ConsumeSystem where
  publishers : PublishSystem
  clock : ℤ
  stage : ConsumeStage
  /-- The deadline, counted from the call of `Consume` and set again by `PopWait`. -/
  waiter : Waiter
  /-- The publishers that have returned to their callers. -/
  completed : List ℕ
  /-- One of them has been successful on the topic, and has returned after `Consume` was called and
  before its deadline. -/
  inTime : Bool

inductive ConsumeLabel where
  /-- Time passes. -/
  | tick (now : ℤ)
  | call (call : PublishCall)
  | log (n : ℕ) (fault : Option (ℕ × Bytes))
  | check (n : ℕ)
  | push (n : ℕ)
  /-- A publisher returns to its caller. -/
  | complete (n : ℕ)
  /-- `Consume` is called, and looks up its topic. -/
  | begin
  /-- It enters `PopWait`. -/
  | popWait
  /-- It gets the lock again. -/
  | resume
  /-- The function of a timer runs. -/
  | timer

namespace ConsumeSystem

/-- A broker, before any of the calls. -/
def start (b : Broker) (clock : ℤ) : ConsumeSystem where
  publishers := .start b
  clock := clock
  stage := .idle
  waiter := ⟨none⟩
  completed := []
  inTime := false

def withPublishers (s : ConsumeSystem) (p : PublishSystem) : ConsumeSystem :=
  { s with publishers := p }

/-- `Signal` and `Broadcast`: there is only one who can be asleep. -/
def wake (s : ConsumeSystem) : ConsumeSystem :=
  if s.stage = .sleeping then { s with stage := .woken } else s

/-- The call is given so much time from now. -/
def setDeadline (s : ConsumeSystem) (timeout : ℤ) : ConsumeSystem :=
  { s with waiter := ⟨if timeout = 0 then none else some (s.clock + timeout)⟩ }

/-- The call has the lock of the ring. If it finds a message it counts it and returns. -/
def turn (s : ConsumeSystem) (topicName : Bytes) (t : Topic) : ConsumeSystem :=
  match t.ring.popWait s.waiter s.clock with
  | (none, _) => { s with stage := .sleeping }
  | (some none, _) => { s with stage := .returned none }
  | (some (some msg), ring) =>
      let b := s.publishers.broker
      let t' := Topic.countConsumed { t with ring := ring } msg
      { s with
        publishers := { s.publishers with
          broker := { b.setTopic topicName t' with totalConsumed := b.totalConsumed + 1 } }
        stage := .returned (some msg) }

/-- A publisher has put its message into the topic. -/
def Succeeded (s : ConsumeSystem) (topicName : Bytes) (n : ℕ) : Prop :=
  ∃ p ∈ s.publishers.returned, p.1 = n ∧ ∃ msg ∈ p.2.toOption, msg.topic = topicName

instance (s : ConsumeSystem) (topicName : Bytes) (n : ℕ) : Decidable (s.Succeeded topicName n) :=
  inferInstanceAs (Decidable
    (∃ p ∈ s.publishers.returned, p.1 = n ∧ ∃ msg ∈ p.2.toOption, msg.topic = topicName))

/-- The topic of a call stays the same, as topics are never removed; so the call looks it up again
where the source keeps a pointer. -/
def step (c : Codec) (topicName : Bytes) (timeout : ℤ) (s : ConsumeSystem) :
    ConsumeLabel → Option ConsumeSystem
  | .tick now => if s.clock ≤ now then some { s with clock := now } else none
  | .call call => (s.publishers.step c (.call call)).map s.withPublishers
  | .log n fault => (s.publishers.step c (.log n fault)).map s.withPublishers
  | .check n => (s.publishers.step c (.check n)).map s.withPublishers
  | .push n =>
      (s.publishers.taskAt n .push).bind fun task ↦
        (s.publishers.broker.topics.lookup task.msg.topic).map fun t ↦
          let s' := s.withPublishers (s.publishers.pushStep n task t)
          -- only an accepted message is signalled, and only to those who wait for its topic
          if task.msg.topic = topicName ∧ (t.push task.msg task.front).1 then s'.wake else s'
  | .complete n =>
      if n ∈ s.completed ∨ n ∉ s.publishers.returned.map Prod.fst then none
      else some { s with
        completed := n :: s.completed
        inTime := s.inTime || decide (s.Succeeded topicName n ∧ s.stage ≠ .idle ∧
          ¬s.waiter.Due s.clock) }
  | .begin =>
      if s.stage = .idle then
        some { s.setDeadline timeout with
          stage := if (s.publishers.broker.getTopic topicName).isSome then .found
            else .returned none }
      else none
  | .popWait =>
      if s.stage = .found then
        (s.publishers.broker.getTopic topicName).map ((s.setDeadline timeout).turn topicName)
      else none
  | .resume =>
      if s.stage = .woken then (s.publishers.broker.getTopic topicName).map (s.turn topicName)
      else none
  | .timer => some s.wake

/-- The call has returned a message; or it is about to take the lock, and when it gets it, it
returns a message. -/
def Served (c : Codec) (topicName : Bytes) (timeout : ℤ) (s : ConsumeSystem) : Prop :=
  (∃ msg, s.stage = .returned (some msg)) ∨
    ∃ l ∈ [ConsumeLabel.popWait, .resume], ∃ s' msg,
      s.step c topicName timeout l = some s' ∧ s'.stage = .returned (some msg)

/-- When `Consume` is called its topic is there. -/
def TopicExists (topicName : Bytes) (s : ConsumeSystem) : ConsumeLabel → Prop
  | .begin => (s.publishers.broker.getTopic topicName).isSome = true
  | _ => True

instance (topicName : Bytes) (s : ConsumeSystem) : DecidablePred (s.TopicExists topicName)
  | .begin => inferInstanceAs (Decidable ((s.publishers.broker.getTopic topicName).isSome = true))
  | .tick _ | .call _ | .log _ _ | .check _ | .push _ | .complete _ | .popWait | .resume | .timer =>
    inferInstanceAs (Decidable True)

/-! ## What the call cannot miss -/

def ring (s : ConsumeSystem) (topicName : Bytes) : Option (Ring Message) :=
  (s.publishers.broker.topics.lookup topicName).map Topic.ring

def Fed (topicName : Bytes) (s : ConsumeSystem) : Prop :=
  ∃ r, s.ring topicName = some r ∧ r.closed = false ∧
    (r.items = [] → ∃ msg, s.stage = .returned (some msg))

/-- The call sleeps only at an empty ring, and comes back with nothing only after its deadline or
from a closed ring. A message that has gone in stays in until the call takes it. -/
structure Attentive (topicName : Bytes) (s : ConsumeSystem) : Prop where
  found : s.stage ≠ .idle → (s.ring topicName).isSome = true
  asleep : s.stage = .sleeping → ∀ r ∈ s.ring topicName, r.items = []
  unanswered : s.stage = .returned none →
    s.waiter.Due s.clock ∨ ∀ r ∈ s.ring topicName, r.closed = true
  pushed : ∀ n msg, (n, .ok msg) ∈ s.publishers.returned → msg.topic = topicName → s.Fed topicName
  inTime : s.inTime = true → s.stage ≠ .idle ∧ s.stage ≠ .returned none ∧ s.Fed topicName

variable {c : Codec} {topicName : Bytes} {timeout : ℤ} {s s' : ConsumeSystem}

theorem ring_eq {t : Topic} (h : s.publishers.broker.topics.lookup topicName = some t) :
    s.ring topicName = some t.ring :=
  congrArg (Option.map Topic.ring) h

private theorem attentive_start (b : Broker) (clock : ℤ) : (start b clock).Attentive topicName where
  found h := absurd rfl h
  asleep h := nomatch h
  unanswered h := nomatch h
  pushed _ _ h := absurd h List.not_mem_nil
  inTime h := nomatch h

theorem turn_of_nil (s : ConsumeSystem) (topicName : Bytes) {t : Topic}
    (hnil : t.ring.items = []) :
    s.turn topicName t =
      { s with stage := if t.ring.closed = true ∨ s.waiter.Due s.clock then .returned none
        else .sleeping } := by
  rw [turn, Ring.popWait_of_nil _ _ hnil]
  by_cases hback : t.ring.closed = true ∨ s.waiter.Due s.clock
  · rw [if_pos hback, if_pos hback]
  · rw [if_neg hback, if_neg hback]

theorem turn_of_ne_nil (s : ConsumeSystem) (topicName : Bytes) {t : Topic}
    (hne : t.ring.items ≠ []) :
    ∃ msg, t.ring.pop.1 = some msg ∧ (s.turn topicName t).stage = .returned (some msg) ∧
      (s.turn topicName t).ring topicName = some t.ring.pop.2 ∧
      (s.turn topicName t).publishers.broker =
        { s.publishers.broker.setTopic topicName
            (Topic.countConsumed { t with ring := t.ring.pop.2 } msg) with
          totalConsumed := s.publishers.broker.totalConsumed + 1 } := by
  obtain ⟨msg, msgs, hitems⟩ := List.exists_cons_of_ne_nil hne
  have hhead := t.ring.pop_eq.1
  rw [hitems, List.head?_cons] at hhead
  rw [turn, Ring.popWait_of_ne_nil _ _ hne, hhead]
  exact ⟨msg, rfl, rfl, ring_eq (t := Topic.countConsumed { t with ring := t.ring.pop.2 } msg)
    (AList.lookup_insert _), rfl⟩

private theorem turn_frame (s : ConsumeSystem) (topicName : Bytes) (t : Topic) :
    (s.turn topicName t).publishers.returned = s.publishers.returned ∧
      (s.turn topicName t).inTime = s.inTime := by
  rw [turn]
  split <;> exact ⟨rfl, rfl⟩

section Steps

variable (c : Codec) (timeout : ℤ)

private theorem step_begin (hstage : s.stage = .idle) :
    s.step c topicName timeout .begin = some { s.setDeadline timeout with
      stage := if (s.publishers.broker.getTopic topicName).isSome then .found
        else .returned none } :=
  if_pos hstage

theorem step_popWait {t : Topic} (hstage : s.stage = .found)
    (hfind : s.publishers.broker.getTopic topicName = some t) :
    s.step c topicName timeout .popWait = some ((s.setDeadline timeout).turn topicName t) := by
  rw [step, if_pos hstage, hfind, Option.map_some]

theorem step_resume {t : Topic} (hstage : s.stage = .woken)
    (hfind : s.publishers.broker.getTopic topicName = some t) :
    s.step c topicName timeout .resume = some (s.turn topicName t) := by
  rw [step, if_pos hstage, hfind, Option.map_some]

end Steps

/-- Left alone, the call does what `Broker.consume` says. -/
theorem exists_run_consume {b b' : Broker} {answer : Option Message} (c : Codec) (clock : ℤ)
    (htimeout : 0 ≤ timeout) (h : b.consume topicName timeout = some (answer, b')) :
    ∃ ls s, Run (step c topicName timeout) (fun _ ↦ True) (start b clock) ls s ∧
      s.stage = .returned answer ∧ s.publishers.broker = b' := by
  have hbegin := @step_begin topicName (start b clock) c timeout rfl
  rw [Broker.consume] at h
  cases hfind : b.getTopic topicName with
  | none =>
    rw [hfind, Option.some_inj, Prod.mk.injEq] at h
    obtain ⟨rfl, rfl⟩ := h
    refine ⟨[.begin], _, .cons trivial hbegin (.nil trivial), ?_, rfl⟩
    exact if_neg (by rw [start, PublishSystem.start, hfind]; exact Bool.false_ne_true)
  | some t =>
    rw [hfind] at h
    obtain ⟨r, hr, heq⟩ := Option.map_eq_some_iff.mp h
    obtain ⟨r', hpop, rfl⟩ := Option.map_eq_some_iff.mp hr
    rw [if_pos (by rw [start, PublishSystem.start, hfind]; rfl)] at hbegin
    let s₀ : ConsumeSystem := { (start b clock).setDeadline timeout with stage := .found }
    have hrun : Run (step c topicName timeout) (fun _ ↦ True) (start b clock) [.begin, .popWait]
        (s₀.turn topicName t) :=
      .cons trivial hbegin (.cons trivial (step_popWait c timeout rfl hfind) (.nil trivial))
    rw [Topic.popWait, Topic.pop] at hpop
    by_cases hnil : t.ring.items = []
    · rw [t.ring.pop_eq.1, hnil, List.head?_nil, Option.map_none] at hpop
      obtain ⟨hends, hpop⟩ := Option.ite_none_right_eq_some.mp hpop
      obtain rfl := Option.some_inj.mp hpop
      obtain ⟨rfl, rfl⟩ := Prod.mk.inj heq
      by_cases hback : t.ring.closed = true ∨ s₀.waiter.Due s₀.clock
      · refine ⟨_, _, hrun, ?_⟩
        rw [s₀.turn_of_nil topicName hnil, if_pos hback]
        exact ⟨rfl, rfl⟩
      · -- the call sleeps until its timer runs
        have hne : timeout ≠ 0 := hends.resolve_left fun hclosed ↦ hback (Or.inl hclosed)
        let s₁ : ConsumeSystem := { s₀ with clock := clock + timeout, stage := .woken }
        have hdue : s₁.waiter.Due s₁.clock := ⟨clock + timeout, if_neg hne, le_rfl⟩
        rw [s₀.turn_of_nil topicName hnil, if_neg hback] at hrun
        have hsleep : Run (step c topicName timeout) (fun _ ↦ True)
            { s₀ with stage := .sleeping } [.tick (clock + timeout), .timer, .resume]
            (s₁.turn topicName t) :=
          .cons trivial (if_pos (Int.le_add_of_nonneg_right htimeout)) (.cons trivial rfl
            (.cons trivial (step_resume c timeout rfl hfind) (.nil trivial)))
        refine ⟨_, _, hrun.append hsleep, ?_⟩
        rw [s₁.turn_of_nil topicName hnil, if_pos (Or.inr hdue)]
        exact ⟨rfl, rfl⟩
    · obtain ⟨msg, hmsg, hstage, -, hbroker⟩ := s₀.turn_of_ne_nil topicName hnil
      rw [hmsg, Option.map_some] at hpop
      obtain rfl := Option.some_inj.mp hpop
      obtain ⟨rfl, rfl⟩ := Prod.mk.inj heq
      exact ⟨_, _, hrun, hstage, hbroker⟩

namespace Attentive

theorem withPublishers (h : s.Attentive topicName) {p : PublishSystem}
    (hring : ∀ r ∈ s.ring topicName, (s.withPublishers p).ring topicName = some r)
    (hreturned : ∀ n msg, (n, .ok msg) ∈ p.returned → msg.topic = topicName →
      (n, .ok msg) ∈ s.publishers.returned) : (s.withPublishers p).Attentive topicName := by
  have hback : ∀ {r r'}, r ∈ s.ring topicName → r' ∈ (s.withPublishers p).ring topicName →
      r' = r := fun hr hr' ↦ Option.some_inj.mp (hr'.symm.trans (hring _ hr))
  have hfed : s.Fed topicName → (s.withPublishers p).Fed topicName := by
    rintro ⟨r, hr, hopen, htaken⟩
    exact ⟨r, hring r hr, hopen, htaken⟩
  have hfound : s.stage ≠ .idle → ∃ r, r ∈ s.ring topicName := fun hstage ↦
    Option.isSome_iff_exists.mp (h.found hstage)
  constructor
  · intro hstage
    obtain ⟨r, hr⟩ := hfound hstage
    exact Option.isSome_iff_exists.mpr ⟨r, hring r hr⟩
  · intro hstage r' hr'
    obtain ⟨r, hr⟩ := hfound (hstage ▸ nofun)
    rw [hback hr hr']
    exact h.asleep hstage r hr
  · intro hstage
    obtain ⟨r, hr⟩ := hfound (hstage ▸ nofun)
    refine (h.unanswered hstage).imp_right fun hclosed r' hr' ↦ ?_
    rw [hback hr hr']
    exact hclosed r hr
  · intro n msg hn htopic
    exact hfed (h.pushed n msg (hreturned n msg hn htopic) htopic)
  · intro htime
    obtain ⟨hidle, hnone, hs⟩ := h.inTime htime
    exact ⟨hidle, hnone, hfed hs⟩

private theorem wake (h : s.Attentive topicName) : s.wake.Attentive topicName := by
  rw [ConsumeSystem.wake]
  split
  · rename_i hstage
    have hfed : s.Fed topicName → Fed topicName { s with stage := .woken } := by
      rintro ⟨r, hr, hopen, htaken⟩
      refine ⟨r, hr, hopen, fun hnil ↦ ?_⟩
      obtain ⟨msg, hmsg⟩ := htaken hnil
      exact nomatch hstage.symm.trans hmsg
    exact {
      found := fun _ ↦ h.found (hstage ▸ nofun)
      asleep := nofun
      unanswered := nofun
      pushed := fun n msg hn htopic ↦ hfed (h.pushed n msg hn htopic)
      inTime := fun htime ↦ ⟨nofun, nofun, hfed (h.inTime htime).2.2⟩ }
  · exact h

private theorem fed (h : s.Attentive topicName) {p : PublishSystem} {r : Ring Message}
    (hr : (s.withPublishers p).ring topicName = some r) (hopen : r.closed = false)
    (hne : r.items ≠ []) (hwas : ∀ r ∈ s.ring topicName, r.closed = false) :
    (s.withPublishers p).wake.Attentive topicName := by
  have hwake : ∀ u : ConsumeSystem, u.wake.ring topicName = u.ring topicName ∧
      u.wake.stage ≠ .sleeping ∧ (u.wake.stage = .idle → u.stage = .idle) ∧
      (u.wake.stage = .returned none → u.stage = .returned none) ∧
      u.wake.waiter = u.waiter ∧ u.wake.clock = u.clock ∧ u.wake.inTime = u.inTime := by
    intro u
    rw [ConsumeSystem.wake]
    split
    · exact ⟨rfl, nofun, nofun, nofun, rfl, rfl, rfl⟩
    · rename_i hstage
      exact ⟨rfl, hstage, id, id, rfl, rfl, rfl⟩
  obtain ⟨hring, hsleep, hidle, hnone, hwaiter, hclock, htime⟩ := hwake (s.withPublishers p)
  have hfed : (s.withPublishers p).wake.Fed topicName :=
    ⟨r, hring.trans hr, hopen, fun hnil ↦ absurd hnil hne⟩
  constructor
  · exact fun _ ↦ Option.isSome_iff_exists.mpr ⟨r, hring.trans hr⟩
  · exact fun hstage ↦ absurd hstage hsleep
  · intro hstage
    have hstage' : s.stage = .returned none := hnone hstage
    rcases h.unanswered hstage' with hdue | hclosed
    · rw [hwaiter, hclock]
      exact Or.inl hdue
    · obtain ⟨r', hr'⟩ := Option.isSome_iff_exists.mp (h.found (hstage' ▸ nofun))
      exact absurd ((hwas r' hr').symm.trans (hclosed r' hr')) Bool.false_ne_true
  · exact fun _ _ _ _ ↦ hfed
  · intro hs
    obtain ⟨hidle', hnone', -⟩ := h.inTime (htime.symm.trans hs)
    exact ⟨fun hstage ↦ hidle' (hidle hstage), fun hstage ↦ hnone' (hnone hstage), hfed⟩

private theorem of_not_fed (h : s.Attentive topicName) (hnot : ¬s.Fed topicName)
    (hfound : (s.ring topicName).isSome = true) (hnil : ∀ r ∈ s.ring topicName, r.items = [])
    {stage : ConsumeStage} (hunanswered : stage = .returned none →
      s.waiter.Due s.clock ∨ ∀ r ∈ s.ring topicName, r.closed = true) :
    Attentive topicName { s with stage := stage } where
  found _ := hfound
  asleep _ := hnil
  unanswered := hunanswered
  pushed n msg hn htopic := absurd (h.pushed n msg hn htopic) hnot
  inTime htime := absurd (h.inTime htime).2.2 hnot

private theorem turn (h : s.Attentive topicName) {t : Topic}
    (hlookup : s.publishers.broker.topics.lookup topicName = some t)
    (hstage : s.stage = .found ∨ s.stage = .woken) : (s.turn topicName t).Attentive topicName := by
  have hring := ring_eq hlookup
  have hpending : s.Fed topicName → t.ring.closed = false ∧ t.ring.items ≠ [] := by
    rintro ⟨r, hr, hopen, htaken⟩
    obtain rfl := Option.some_inj.mp (hring.symm.trans hr)
    refine ⟨hopen, fun hnil ↦ ?_⟩
    obtain ⟨msg, hmsg⟩ := htaken hnil
    rcases hstage with hstage | hstage <;> exact nomatch hstage.symm.trans hmsg
  by_cases hnil : t.ring.items = []
  · have hnot : ¬s.Fed topicName := fun hfed ↦ (hpending hfed).2 hnil
    have hfound : (s.ring topicName).isSome = true := Option.isSome_iff_exists.mpr ⟨_, hring⟩
    have hempty : ∀ r ∈ s.ring topicName, r.items = [] := by
      intro r hr
      obtain rfl := Option.some_inj.mp (hring.symm.trans hr)
      exact hnil
    rw [s.turn_of_nil topicName hnil]
    by_cases hback : t.ring.closed = true ∨ s.waiter.Due s.clock
    · rw [if_pos hback]
      refine h.of_not_fed hnot hfound hempty fun _ ↦ hback.symm.imp_right fun hclosed r hr ↦ ?_
      obtain rfl := Option.some_inj.mp (hring.symm.trans hr)
      exact hclosed
    · rw [if_neg hback]
      exact h.of_not_fed hnot hfound hempty nofun
  · obtain ⟨msg, -, hmsg, hring', -⟩ := s.turn_of_ne_nil topicName hnil
    have hfed : s.Fed topicName → (s.turn topicName t).Fed topicName := fun hfed ↦
      ⟨_, hring', (t.ring.pop_eq.2.2).trans (hpending hfed).1, fun _ ↦ ⟨msg, hmsg⟩⟩
    obtain ⟨hreturned, htime⟩ := s.turn_frame topicName t
    exact {
      found := fun _ ↦ Option.isSome_iff_exists.mpr ⟨_, hring'⟩
      asleep := fun hsleep ↦ nomatch hmsg.symm.trans hsleep
      unanswered := fun hnone ↦ nomatch hmsg.symm.trans hnone
      pushed := fun n m hn htopic ↦ hfed (h.pushed n m (hreturned ▸ hn) htopic)
      inTime := fun hs ↦
        ⟨hmsg ▸ nofun, hmsg ▸ nofun, hfed (h.inTime (htime.symm.trans hs)).2.2⟩ }

private theorem call (h : s.Attentive topicName) (call : PublishCall) :
    (s.withPublishers (s.publishers.lookupStep call)).Attentive topicName := by
  refine h.withPublishers (fun r hr ↦ ?_) fun _ _ hn _ ↦ hn
  obtain ⟨t, ht, rfl⟩ := Option.map_eq_some_iff.mp hr
  refine ring_eq ?_
  change (s.publishers.broker.getOrCreateTopic call.message.topic).2.topics.lookup _ = some t
  rw [Broker.getOrCreateTopic]
  split
  · exact ht
  · rename_i hnone
    have hne : topicName ≠ call.message.topic := by
      rintro rfl
      exact Option.some_ne_none _ (ht.symm.trans hnone)
    rw [Broker.setTopic, AList.lookup_insert_ne hne]
    exact ht

/-- A publisher that fails, or goes on to its next stage, has not touched the ring. -/
theorem advance (h : s.Attentive topicName) {p : PublishSystem}
    (htopics : p.broker.topics = s.publishers.broker.topics)
    (hreturned : p.returned = s.publishers.returned) (n : ℕ) (task : PublishTask)
    (stage : PublishStage) (err : Bytes) :
    (s.withPublishers (p.advance n task stage)).Attentive topicName ∧
      (s.withPublishers (p.finish n (.error err))).Attentive topicName := by
  have hring : ∀ r ∈ s.ring topicName, (p.broker.topics.lookup topicName).map Topic.ring = some r :=
    fun r hr ↦ htopics ▸ hr
  refine ⟨h.withPublishers hring fun m msg hm _ ↦ hreturned ▸ hm,
    h.withPublishers hring fun m msg hm _ ↦ ?_⟩
  rcases PublishSystem.mem_returned_finish hm with hm | ⟨-, hok⟩
  · exact hreturned ▸ hm
  · exact nomatch hok

private theorem log (h : s.Attentive topicName) {n : ℕ} {task : PublishTask}
    {fault : Option (ℕ × Bytes)} {p : PublishSystem}
    (hp : s.publishers.logStep c n task fault = some p) :
    (s.withPublishers p).Attentive topicName := by
  obtain ⟨⟨result, b, walErr⟩, hr, rfl⟩ := Option.map_eq_some_iff.mp hp
  have htopics := (PublishSystem.writePublish_frame hr).1.1
  cases result with
  | error err =>
    exact (h.advance (p := { s.publishers with broker := b, walErr := walErr }) htopics rfl
      n task .log err).2
  | ok _ => exact (h.advance (p := { s.publishers with
      broker := b, walErr := walErr, logged := _ }) htopics rfl n task .check []).1

private theorem check (h : s.Attentive topicName) {n : ℕ} {task : PublishTask} {t : Topic}
    {p : PublishSystem} (hp : s.publishers.checkStep n task t = some p) :
    (s.withPublishers p).Attentive topicName := by
  obtain ⟨hadvance, hfail⟩ := h.advance rfl rfl n task .push Broker.errRejected
  rw [PublishSystem.checkStep] at hp
  split at hp
  · exact nomatch hp
  split at hp
  · exact Option.some_inj.mp hp ▸ hfail
  · exact Option.some_inj.mp hp ▸ hadvance

/-- A publisher pushes its message, to this topic or another, and it is accepted or not. -/
theorem push (h : s.Attentive topicName) (n : ℕ) {task : PublishTask} {t : Topic}
    (hlookup : s.publishers.broker.topics.lookup task.msg.topic = some t) :
    (if task.msg.topic = topicName ∧ (t.push task.msg task.front).1 then
      (s.withPublishers (s.publishers.pushStep n task t)).wake
      else s.withPublishers (s.publishers.pushStep n task t)).Attentive topicName := by
  have htopics := PublishSystem.topics_pushStep s.publishers n task t
  have hother : topicName ≠ task.msg.topic → ∀ r ∈ s.ring topicName,
      (s.withPublishers (s.publishers.pushStep n task t)).ring topicName = some r := by
    intro hne r hr
    rw [ring, ConsumeSystem.withPublishers, htopics, AList.lookup_insert_ne hne]
    exact hr
  cases hclosed : t.ring.closed with
  | true =>
    have hrefused := Topic.push_of_closed hclosed task.msg task.front
    rw [if_neg (by simp [hrefused])]
    refine h.withPublishers (fun r hr ↦ ?_) fun m msg hm _ ↦ ?_
    · by_cases htopic : topicName = task.msg.topic
      · subst htopic
        obtain rfl := Option.some_inj.mp (hr.symm.trans (ring_eq hlookup))
        rw [ring, ConsumeSystem.withPublishers, htopics, AList.lookup_insert, hrefused]
        rfl
      · exact hother htopic r hr
    · rw [PublishSystem.pushStep, hrefused, if_neg Bool.false_ne_true] at hm
      rcases PublishSystem.mem_returned_finish hm with hm | ⟨-, hm⟩
      · exact hm
      · exact nomatch hm
  | false =>
    have hok : (t.push task.msg task.front).1 = true := by rw [t.ok_push, hclosed]; rfl
    by_cases htopic : task.msg.topic = topicName
    · subst htopic
      have hopen : (t.push task.msg task.front).2.ring.closed = false :=
        (congrArg Prod.snd (t.flags_push task.msg task.front)).trans hclosed
      rw [if_pos ⟨rfl, hok⟩]
      refine h.fed ?_ hopen (List.ne_nil_of_mem (Topic.mem_items_push hclosed _ _)) fun r hr ↦ ?_
      · rw [ring, ConsumeSystem.withPublishers, htopics, AList.lookup_insert, Option.map_some]
      · obtain rfl := Option.some_inj.mp (hr.symm.trans (ring_eq hlookup))
        exact hclosed
    · rw [if_neg fun hand ↦ htopic hand.1]
      refine h.withPublishers (hother (Ne.symm htopic)) fun m msg hm hmsg ↦ ?_
      rw [PublishSystem.pushStep, hok, if_pos rfl] at hm
      rcases PublishSystem.mem_returned_finish hm with hm | ⟨-, hm⟩
      · exact hm
      · rw [Except.ok.inj hm] at hmsg
        exact absurd hmsg htopic

/-- A publisher returns to its caller. Before the deadline the call has not given up, unless the
ring is closed, and then there is no success. -/
theorem complete (h : s.Attentive topicName) (n : ℕ) (completed : List ℕ) :
    Attentive topicName { s with
      completed := completed
      inTime := s.inTime || decide (s.Succeeded topicName n ∧ s.stage ≠ .idle ∧
        ¬s.waiter.Due s.clock) } := by
  refine ⟨h.found, h.asleep, h.unanswered, h.pushed, fun htime ↦ ?_⟩
  rcases (Bool.or_eq_true _ _).mp htime with htime | htime
  · exact h.inTime htime
  obtain ⟨⟨⟨m, result⟩, hmem, rfl, msg, hmsg, htopic⟩, hidle, hdue⟩ := of_decide_eq_true htime
  have hresult : result = .ok msg := by
    cases result with
    | error err => exact nomatch hmsg
    | ok msg' => exact congrArg _ (Option.some_inj.mp hmsg)
  subst hresult
  have hfed := h.pushed m msg hmem htopic
  refine ⟨hidle, fun hnone ↦ ?_, hfed⟩
  obtain ⟨r, hr, hopen, -⟩ := hfed
  rcases h.unanswered hnone with hdue' | hclosed
  · exact hdue hdue'
  · exact Bool.false_ne_true (hopen.symm.trans (hclosed r hr))

private theorem begin (h : s.Attentive topicName) (hstage : s.stage = .idle)
    (hfound : (s.ring topicName).isSome = true) (waiter : Waiter) :
    Attentive topicName { s with stage := .found, waiter := waiter } := by
  have hfed : s.Fed topicName → Fed topicName { s with stage := .found, waiter := waiter } := by
    rintro ⟨r, hr, hopen, htaken⟩
    refine ⟨r, hr, hopen, fun hnil ↦ ?_⟩
    obtain ⟨msg, hmsg⟩ := htaken hnil
    exact nomatch hstage.symm.trans hmsg
  exact {
    found := fun _ ↦ hfound
    asleep := nofun
    unanswered := nofun
    pushed := fun n msg hn htopic ↦ hfed (h.pushed n msg hn htopic)
    inTime := fun htime ↦ absurd hstage (h.inTime htime).1 }

private theorem step {l : ConsumeLabel} (hguard : s.TopicExists topicName l)
    (hstep : s.step c topicName timeout l = some s') (h : s.Attentive topicName) :
    s'.Attentive topicName := by
  cases l with
  | tick now =>
    obtain ⟨hle, heq⟩ := Option.ite_none_right_eq_some.mp hstep
    obtain rfl := Option.some_inj.mp heq
    exact ⟨h.found, h.asleep, fun hnone ↦ (h.unanswered hnone).imp_left fun hdue ↦ hdue.mono hle,
      h.pushed, h.inTime⟩
  | call call =>
    obtain ⟨p, hp, rfl⟩ := Option.map_eq_some_iff.mp hstep
    obtain ⟨-, heq⟩ := Option.ite_none_left_eq_some.mp hp
    obtain rfl := Option.some_inj.mp heq
    exact h.call call
  | log n fault =>
    obtain ⟨p, hp, rfl⟩ := Option.map_eq_some_iff.mp hstep
    obtain ⟨task, -, hp⟩ := Option.bind_eq_some_iff.mp hp
    exact h.log hp
  | check n =>
    obtain ⟨p, hp, rfl⟩ := Option.map_eq_some_iff.mp hstep
    obtain ⟨task, -, hp⟩ := Option.bind_eq_some_iff.mp hp
    obtain ⟨t, -, hp⟩ := Option.bind_eq_some_iff.mp hp
    exact h.check hp
  | push n =>
    obtain ⟨task, -, hp⟩ := Option.bind_eq_some_iff.mp hstep
    obtain ⟨t, hlookup, rfl⟩ := Option.map_eq_some_iff.mp hp
    exact h.push n hlookup
  | complete n =>
    obtain ⟨-, heq⟩ := Option.ite_none_left_eq_some.mp hstep
    obtain rfl := Option.some_inj.mp heq
    exact h.complete n _
  | begin =>
    obtain ⟨hidle, heq⟩ := Option.ite_none_right_eq_some.mp hstep
    rw [if_pos (show (s.publishers.broker.getTopic topicName).isSome = true from hguard)] at heq
    obtain rfl := Option.some_inj.mp heq
    refine h.begin hidle ?_ _
    rw [ring, Option.isSome_map]
    exact hguard
  | popWait =>
    obtain ⟨hfound, hmap⟩ := Option.ite_none_right_eq_some.mp hstep
    obtain ⟨t, hlookup, rfl⟩ := Option.map_eq_some_iff.mp hmap
    have hset : (s.setDeadline timeout).Attentive topicName :=
      ⟨h.found, h.asleep, fun hnone ↦ (nomatch hfound.symm.trans hnone), h.pushed, h.inTime⟩
    exact hset.turn hlookup (Or.inl hfound)
  | resume =>
    obtain ⟨hwoken, hmap⟩ := Option.ite_none_right_eq_some.mp hstep
    obtain ⟨t, hlookup, rfl⟩ := Option.map_eq_some_iff.mp hmap
    exact h.turn hlookup (Or.inr hwoken)
  | timer =>
    obtain rfl := Option.some_inj.mp hstep
    exact h.wake

/-- Once a publisher has returned in time, the call can only come back with a message. -/
theorem served (h : s.Attentive topicName) (htime : s.inTime = true) :
    s.Served c topicName timeout := by
  obtain ⟨hidle, hnone, r, hr, -, htaken⟩ := h.inTime htime
  by_cases hanswered : ∃ msg, s.stage = .returned (some msg)
  · exact Or.inl hanswered
  have hne : r.items ≠ [] := fun hnil ↦ hanswered (htaken hnil)
  obtain ⟨t, hlookup, rfl⟩ := Option.map_eq_some_iff.mp hr
  right
  cases hstage : s.stage with
  | idle => exact absurd hstage hidle
  | found =>
    obtain ⟨msg, -, hmsg, -⟩ := (s.setDeadline timeout).turn_of_ne_nil topicName hne
    exact ⟨.popWait, List.mem_cons_self, _, msg, step_popWait c timeout hstage hlookup, hmsg⟩
  | sleeping => exact absurd (h.asleep hstage _ hr) hne
  | woken =>
    obtain ⟨msg, -, hmsg, -⟩ := s.turn_of_ne_nil topicName hne
    exact ⟨.resume, List.mem_cons_of_mem _ List.mem_cons_self, _, msg,
      step_resume c timeout hstage hlookup, hmsg⟩
  | returned answer =>
    cases answer with
    | none => exact absurd hstage hnone
    | some msg => exact absurd ⟨msg, hstage⟩ hanswered

end Attentive

private theorem not_served_of_returned (h : s.stage = .returned none) :
    ¬s.Served c topicName timeout := by
  rintro (⟨msg, hmsg⟩ | ⟨l, hl, s', msg, hstep, -⟩)
  · exact nomatch h.symm.trans hmsg
  · rcases List.mem_pair.mp hl with rfl | rfl
    · exact nomatch h.symm.trans (Option.ite_none_right_eq_some.mp hstep).1
    · exact nomatch h.symm.trans (Option.ite_none_right_eq_some.mp hstep).1

/-- **A blocking pop sees what is published while it waits**, if its topic is there when it is
called. In every interleaving, once a publish to the topic has returned after the call began and
before its deadline, the call has returned a message or is going to. -/
theorem served_of_topicExists (c : Codec) (b : Broker) (topicName : Bytes) (timeout clock : ℤ)
    (ls : List ConsumeLabel) (s : ConsumeSystem)
    (hrun : Run (step c topicName timeout) (fun _ ↦ True) (start b clock) ls s)
    (hexists : Run.Guarded (step c topicName timeout) (TopicExists topicName) (start b clock) ls)
    (htime : s.inTime = true) : s.Served c topicName timeout := by
  have hattentive : s.Attentive topicName :=
    hrun.invariant_of_guarded (fun _ _ _ hguard hstep h ↦ h.step hguard hstep) hexists
      (attentive_start b clock)
  exact hattentive.served htime

/-- The call sleeps, a message is published, and the call is woken before its deadline. -/
def patient : List ConsumeLabel :=
  [.call (Broker.firstCall false), .begin, .popWait, .tick 1, .log 0 none, .check 0, .push 0,
    .complete 0]

theorem served_of_topicExists_patient :
    ∃ s, Run (step MessageJson.codec (bytesOf "q") 5) (fun _ ↦ True)
        (start (Broker.newBroker none 0) 0) patient s ∧
      s.stage = .woken ∧ s.Served MessageJson.codec (bytesOf "q") 5 := by
  have hsome : (Run.exec (step MessageJson.codec (bytesOf "q") 5) (fun _ ↦ True)
      (start (Broker.newBroker none 0) 0) patient).isSome := by decide +kernel
  have hrun := Run.of_exec (Option.some_get hsome).symm
  have hcheck : Run.checkGuard (step MessageJson.codec (bytesOf "q") 5)
      (fun s l ↦ decide (s.TopicExists (bytesOf "q") l)) (start (Broker.newBroker none 0) 0)
      patient = true := by decide +kernel
  have hexists := Run.guarded_of_checkGuard hcheck
  simp only [decide_eq_true_eq] at hexists
  have htime := hrun.of_exec_map (f := inTime) (a := true) (by decide +kernel)
  exact ⟨_, hrun, hrun.of_exec_map (f := stage) (by decide +kernel),
    served_of_topicExists _ _ _ _ _ _ _ hrun hexists htime⟩

/-- The same calls, but nobody has used the topic before. -/
def impatient : List ConsumeLabel :=
  [.begin, .call (Broker.firstCall false), .log 0 none, .check 0, .push 0, .complete 0]

/-- **Not seen.** A call that is to wait for as long as it takes returns at once with nothing, as
its topic does not exist yet, and then a message is published. -/
theorem unused_topic_not_waited_for :
    ∃ s, Run (step MessageJson.codec (bytesOf "q") 0) (fun _ ↦ True)
        (start (Broker.newBroker none 0) 0) impatient s ∧
      s.inTime = true ∧ s.stage = .returned none ∧
      ¬s.Served MessageJson.codec (bytesOf "q") 0 := by
  have hsome : (Run.exec (step MessageJson.codec (bytesOf "q") 0) (fun _ ↦ True)
      (start (Broker.newBroker none 0) 0) impatient).isSome := by decide +kernel
  have hrun := Run.of_exec (Option.some_get hsome).symm
  have hstage := hrun.of_exec_map (f := stage) (a := .returned none) (by decide +kernel)
  exact ⟨_, hrun, hrun.of_exec_map (f := inTime) (by decide +kernel), hstage,
    not_served_of_returned hstage⟩

end ConsumeSystem

end VortexMQ
