import VortexMQ.Queue.Broker
import VortexMQ.Queue.Lives
import VortexMQ.Wal.MessageJson

/-!
# The retry budget

How often a message has failed is written on the message itself. The two failing paths, `Nack` and
`SweepTimeouts`, count and route independently, and both do so after they have taken the message
from its pending list. Between the two sections the count on the message is one behind; everywhere
else it is the number of failed checkouts in the message's life.

Where a message is determines how its tally and its count are related. This is `Tally.Fits`, which
every move of a life keeps.
-/

namespace VortexMQ

/-! ## The messages concerned -/

/-- A message as `NewMessage` builds it, or as `Replay` reads it back from its record. -/
def Message.Issued (m : Message) : Prop :=
  ∃ (st : Stamp) (topic : Bytes) (payload : Option Bytes),
    m = st.message topic payload ∨
      MessageJson.unmarshal (MessageJson.marshal (st.message topic payload)) = some m

theorem Message.Issued.counters {m : Message} (h : m.Issued) :
    m.retryCount = 0 ∧ m.maxRetries = 3 := by
  obtain ⟨st, topic, payload, rfl | hread⟩ := h
  · exact ⟨rfl, rfl⟩
  · have hportable :
        (Message.newMessage (toValidUtf8 topic) payload st.now st.seq st.rand).Portable :=
      Message.portable_newMessage (utf8_toValidUtf8 topic) st.inRange payload st.seq st.rand
    have heq := MessageJson.unmarshal_marshal_topic (m := st.message topic payload) hportable
    obtain rfl := Option.some_inj.mp (hread.symm.trans heq)
    exact ⟨rfl, rfl⟩

/-- The label publishes issued messages only. -/
def TopicLabel.PublishesIssued : TopicLabel → Prop
  | .call (.publish msg _) => msg.Issued
  | .call (.publishDelayed msg _ _) => msg.Issued
  | _ => True

/-! ## Stages -/

/-- How far a message has come between two deliveries. -/
inductive Stage where
  | waiting
  | checkedOut
  /-- Taken from its pending list, but not yet counted and routed. -/
  | failing
  | dead

def Spot.stage : Spot → Stage
  | .ring | .wheel => .waiting
  | .pel _ => .checkedOut
  | .dlq => .dead
  | .hands (.fail _ _) | .hands (.sweep _ _) => .failing
  | .hands _ => .waiting

@[simp] theorem Spot.stage_ofDelay (delay : ℤ) : (Spot.ofDelay delay).stage = .waiting := by
  rw [Spot.ofDelay]
  split <;> rfl

def Stage.uncounted : Stage → ℕ
  | .failing => 1
  | .waiting | .checkedOut | .dead => 0

def Stage.inProgress : Stage → ℕ
  | .checkedOut => 1
  | .waiting | .failing | .dead => 0

def Stage.Budget (retryCount maxRetries : ℤ) : Stage → Prop
  | .dead => retryCount = maxRetries
  | .waiting | .checkedOut | .failing => retryCount < maxRetries

/-- The tally agrees with the count on the message. -/
structure Tally.Fits (n : Tally) (m : Message) (stage : Stage) : Prop where
  maxRetries : m.maxRetries = 3
  nonneg : 0 ≤ m.retryCount
  failures : n.failures = m.retryCount + stage.uncounted
  checkouts : n.checkouts = n.failures + stage.inProgress
  budget : stage.Budget m.retryCount m.maxRetries

namespace Tally.Fits

variable {n : Tally} {m : Message}

theorem born {m : Message} (hretry : m.retryCount = 0) (hmax : m.maxRetries = 3) :
    (⟨0, 0⟩ : Tally).Fits m .waiting := by
  refine ⟨hmax, hretry.ge, ?_, rfl, ?_⟩
  · rw [hretry]
    rfl
  · rw [Stage.Budget, hretry, hmax]
    decide

private theorem checkout {m' : Message} (h : n.Fits m .waiting)
    (hretry : m'.retryCount = m.retryCount)
    (hmax : m'.maxRetries = m.maxRetries) : (Effect.checkout.apply n).Fits m' .checkedOut := by
  refine ⟨hmax.trans h.maxRetries, hretry ▸ h.nonneg, hretry ▸ h.failures, ?_, ?_⟩
  · exact congrArg (· + 1) h.checkouts
  · rw [hretry, hmax]
    exact h.budget

private theorem failure (h : n.Fits m .checkedOut) : (Effect.failure.apply n).Fits m .failing := by
  refine ⟨h.maxRetries, h.nonneg, ?_, h.checkouts, h.budget⟩
  change ((n.failures + 1 : ℕ) : ℤ) = m.retryCount + 1
  rw [Nat.cast_add_one, h.failures, Stage.uncounted, Nat.cast_zero, add_zero]

theorem retryCount_fail (h : n.Fits m .failing) (cause : Bytes) :
    (ConsumerGroup.fail m cause).retryCount = m.retryCount + 1 := by
  have hbudget : m.retryCount < m.maxRetries := h.budget
  have hmax := h.maxRetries
  have hnonneg := h.nonneg
  exact wrap64_of_mem (by omega) (by omega)

theorem dead (h : n.Fits m .failing) {cause : Bytes}
    (hout : (ConsumerGroup.fail m cause).maxRetries ≤ (ConsumerGroup.fail m cause).retryCount) :
    n.Fits (ConsumerGroup.fail m cause) .dead := by
  have hcount := h.retryCount_fail cause
  have hbudget : m.retryCount < m.maxRetries := h.budget
  have hnonneg := h.nonneg
  have hmax : (ConsumerGroup.fail m cause).maxRetries = m.maxRetries := rfl
  refine ⟨h.maxRetries, by omega, ?_, h.checkouts, ?_⟩
  · rw [hcount]
    exact h.failures.trans (add_zero _).symm
  · change (ConsumerGroup.fail m cause).retryCount = (ConsumerGroup.fail m cause).maxRetries
    omega

theorem retry (h : n.Fits m .failing) {cause : Bytes}
    (hleft : (ConsumerGroup.fail m cause).retryCount < (ConsumerGroup.fail m cause).maxRetries) :
    n.Fits (ConsumerGroup.fail m cause) .waiting := by
  have hcount := h.retryCount_fail cause
  have hnonneg := h.nonneg
  refine ⟨h.maxRetries, by omega, ?_, h.checkouts, hleft⟩
  rw [hcount]
  exact h.failures.trans (add_zero _).symm

private theorem nackRoute (h : n.Fits m .failing) {cause : Bytes} {r : ConsumerGroup.Route}
    (hroute : ConsumerGroup.nackRoute (ConsumerGroup.fail m cause) = some r) :
    n.Fits (ConsumerGroup.fail m cause) r.spot.stage := by
  rw [ConsumerGroup.nackRoute] at hroute
  split at hroute
  · rename_i hout
    obtain rfl := Option.some_inj.mp hroute
    exact h.dead hout
  · rename_i hleft
    rw [Option.map_eq_some_iff] at hroute
    obtain ⟨delay, -, rfl⟩ := hroute
    rw [ConsumerGroup.Route.spot, Spot.stage_ofDelay]
    exact h.retry (not_le.mp hleft)

private theorem sweepRoute (h : n.Fits m .failing) (cause : Bytes) :
    n.Fits (ConsumerGroup.fail m cause)
      (ConsumerGroup.sweepRoute (ConsumerGroup.fail m cause)).spot.stage := by
  rw [ConsumerGroup.sweepRoute]
  split
  · rename_i hout
    exact h.dead hout
  · rename_i hleft
    rw [ConsumerGroup.Route.spot, Spot.stage_ofDelay]
    exact h.retry (not_le.mp hleft)

private theorem retryCount_eq {stage : Stage} (h : n.Fits m stage) (hstage : stage ≠ .failing) :
    m.retryCount = n.failures := by
  rw [h.failures]
  cases stage with
  | waiting | checkedOut | dead => exact (add_zero _).symm
  | failing => exact absurd rfl hstage

private theorem retryCount_add_one_eq {stage : Stage} (h : n.Fits m stage)
    (hstage : stage = .failing) : m.retryCount + 1 = n.failures := by
  subst hstage
  exact h.failures.symm

private theorem checkouts_le {stage : Stage} (h : n.Fits m stage) :
    (n.checkouts : ℤ) ≤ m.maxRetries := by
  have hcheckouts : (n.checkouts : ℤ) = m.retryCount + stage.uncounted + stage.inProgress := by
    rw [h.checkouts, Nat.cast_add, h.failures]
  rw [hcheckouts]
  have hbudget := h.budget
  cases stage <;> simp only [Stage.Budget, Stage.uncounted, Stage.inProgress] at hbudget ⊢ <;> omega

variable {t : Topic} {p q : Spot} {m' : Message} {e : Effect}

private theorem callMoves {c : Call} (hmoves : CallMoves t c p m e q m') (h : n.Fits m p.stage) :
    (e.apply n).Fits m' q.stage := by
  cases hmoves with
  | advance => exact h
  | replayDeadLetter => exact born rfl h.maxRetries

private theorem taskMoves {now : ℤ} {order : List Message} {task : Task}
    (hmoves : TaskMoves t now order task p m e q m') (h : n.Fits m p.stage) :
    (e.apply n).Fits m' q.stage := by
  cases hmoves with
  | publish | popWait | sweepNext | expire | expireNext | replay => exact h
  | checkout => exact h.checkout rfl rfl
  | nack | sweepTake => exact h.failure
  | fail hroute => exact h.nackRoute hroute
  | sweepFail => exact h.sweepRoute _

end Tally.Fits

/-- **The count on a message tells its story.** -/
theorem Life.fits {s₀ s : TopicState} {labels : List TopicLabel} {p : Spot} {m : Message}
    {n : Tally} (hlife : Life s₀ labels s p m n) (hissued : ∀ l ∈ labels, l.PublishesIssued) :
    n.Fits m p.stage := by
  induction hlife with
  | born _ _ hborn _ =>
    have hl := hissued _ (List.mem_append_right _ List.mem_cons_self)
    cases hborn with
    | publish =>
      obtain ⟨hretry, hmax⟩ := Message.Issued.counters hl
      exact Tally.Fits.born hretry hmax
    | publishDelayed =>
      obtain ⟨hretry, hmax⟩ := Message.Issued.counters hl
      rw [Spot.stage_ofDelay]
      exact Tally.Fits.born hretry hmax
  | stays _ _ _ ih => exact ih fun l hl ↦ hissued l (List.mem_append_left _ hl)
  | moves _ _ hmoves _ ih =>
    have hfits := ih fun l hl ↦ hissued l (List.mem_append_left _ hl)
    cases hmoves with
    | call hmoves => exact hfits.callMoves hmoves
    | resume _ hmoves => exact hfits.taskMoves hmoves

/-! ## The dead letter queue -/

namespace DeadLetterQueue

/-- An entry's number of attempts is the count on its message. -/
def Counted (dlq : DeadLetterQueue) : Prop :=
  ∀ e ∈ dlq.entries.entries, e.2.attempts = e.2.message.retryCount

variable {dlq : DeadLetterQueue}

theorem Counted.drop (h : dlq.Counted) (id : Bytes) : (dlq.drop id).Counted :=
  fun e he ↦ h e ((List.kerase_sublist _ _).subset he)

theorem Counted.remove {msgID : Bytes} {r : Message × DeadLetterQueue} (h : dlq.Counted)
    (hrem : dlq.remove msgID = some r) : r.2.Counted := by
  rw [DeadLetterQueue.remove, Option.map_eq_some_iff] at hrem
  obtain ⟨entry, -, rfl⟩ := hrem
  exact h.drop msgID

theorem Counted.add (h : dlq.Counted) (msg : Message) (cause : Bytes) (now : ℤ) :
    (dlq.add msg cause now).Counted := by
  intro e he
  rcases mem_entries_add he with rfl | he
  · rfl
  · exact h e he

end DeadLetterQueue

section Counted

variable {t : Topic} {L : Ledger} {r : Section}

theorem Topic.dlq_schedule (t : Topic) (msg : Message) (delay : ℤ) :
    (t.schedule msg delay).dlq = t.dlq := by
  rw [schedule]
  split <;> rfl

theorem Topic.counted_route (h : t.dlq.Counted) (msg : Message) (now : ℤ)
    (route : ConsumerGroup.Route) : (t.route msg now route).dlq.Counted := by
  cases route with
  | deadLetter => exact h.add msg _ now
  | retry delay =>
    rw [Topic.route, dlq_schedule]
    exact h

theorem Topic.counted_start {c : Call} (hstart : t.start L c = some r) (h : t.dlq.Counted) :
    r.1.dlq.Counted := by
  cases c with
  | publish | sweepConsumerTimeouts | close =>
    rw [Topic.start] at hstart
    split at hstart
    · exact absurd hstart (by simp)
    · split at hstart <;> cases hstart <;> exact h
  | publishDelayed msg delay now =>
    obtain rfl := Option.some_inj.mp hstart
    rw [publishDelayed, dlq_schedule]
    exact h
  | consume =>
    rw [Topic.start] at hstart
    cases hcon : t.consume with
    | none =>
      rw [hcon] at hstart
      obtain rfl := Option.some_inj.mp hstart
      exact h
    | some x =>
      rw [hcon] at hstart
      obtain rfl := Option.some_inj.mp hstart
      rw [consume, pop, Option.map_map, Option.map_eq_some_iff] at hcon
      obtain ⟨msg, -, rfl⟩ := hcon
      exact h
  | consumeGroup groupName consumerID =>
    rw [Topic.start] at hstart
    split at hstart
    · exact absurd hstart (by simp)
    · obtain rfl := Option.some_inj.mp hstart
      rw [getOrCreateGroup]
      split <;> exact h
  | ack | nack =>
    rw [Topic.start] at hstart
    split at hstart
    · exact absurd hstart (by simp)
    · obtain rfl := Option.some_inj.mp hstart
      exact h
  | advance =>
    obtain rfl := Option.some_inj.mp hstart
    exact h
  | replayDeadLetter msgID | dlqRemove msgID =>
    rw [Topic.start] at hstart
    cases hrem : t.dlq.remove msgID with
    | none =>
      rw [hrem] at hstart
      obtain rfl := Option.some_inj.mp hstart
      exact h
    | some x =>
      rw [hrem] at hstart
      obtain rfl := Option.some_inj.mp hstart
      exact h.remove hrem
  | dlqPurge =>
    obtain rfl := Option.some_inj.mp hstart
    exact fun e he ↦ absurd he List.not_mem_nil

theorem Task.counted_resume {task : Task} {now : ℤ} {order : List Message}
    (hresume : task.resume t L now order = some r) (h : t.dlq.Counted) : r.1.dlq.Counted := by
  cases task with
  | publish msg front =>
    obtain rfl := Option.some_inj.mp hresume
    rw [(t.fields_push msg front).2.2.2.2]
    exact h
  | popWait =>
    rw [Task.resume, Topic.pop, Option.map_map, Option.map_eq_some_iff] at hresume
    obtain ⟨x, -, rfl⟩ := hresume
    exact h
  | checkout =>
    rw [Task.resume, Topic.checkout, Option.map_map, Option.map_eq_some_iff] at hresume
    obtain ⟨x, -, rfl⟩ := hresume
    exact h
  | ack groupName msgID =>
    rw [Task.resume, Topic.ack, Option.map_map, Option.map_eq_some_iff] at hresume
    obtain ⟨cg, -, rfl⟩ := hresume
    rw [Function.comp_apply]
    split <;> exact h
  | nack groupName msgID reason =>
    rw [Task.resume, Option.map_eq_some_iff] at hresume
    obtain ⟨cg, -, rfl⟩ := hresume
    split <;> exact h
  | fail msg reason =>
    rw [Task.resume, Option.map_eq_some_iff] at hresume
    obtain ⟨route, -, rfl⟩ := hresume
    exact Topic.counted_route h _ now route
  | sweep groups timedOut =>
    cases timedOut with
    | nil =>
      cases groups with
      | nil =>
        obtain rfl := Option.some_inj.mp hresume
        exact h
      | cons groupName groups =>
        rw [Task.resume, Option.map_eq_some_iff] at hresume
        obtain ⟨t', hsweep, rfl⟩ := hresume
        obtain ⟨cg, -, -, rfl⟩ := Topic.sweepGroup_eq_some hsweep
        exact h
    | cons msg timedOut =>
      rw [Task.resume] at hresume
      obtain rfl := Option.some_inj.mp hresume
      exact Topic.counted_route h _ now _
  | expire msgs =>
    cases msgs <;> obtain rfl := Option.some_inj.mp hresume <;> exact h
  | replay | closeRing | closeWheel =>
    obtain rfl := Option.some_inj.mp hresume
    exact h

theorem Topic.counted_newTopic {name : Bytes} {capacity : UInt64}
    (hnew : Topic.newTopic name capacity = some t) : t.dlq.Counted := by
  rw [newTopic, Option.map_eq_some_iff] at hnew
  obtain ⟨ring, -, rfl⟩ := hnew
  exact fun e he ↦ absurd he List.not_mem_nil

end Counted

/-! ## The budget -/

namespace TopicState

variable {s s' : TopicState} {l : TopicLabel} {labels : List TopicLabel}

private theorem counted_step (hstep : s.step l = some s') (h : s.topic.dlq.Counted) :
    s'.topic.dlq.Counted := by
  cases l with
  | call c =>
    rw [step, Option.map_eq_some_iff] at hstep
    obtain ⟨r, hstart, rfl⟩ := hstep
    exact Topic.counted_start hstart h
  | resume i now order =>
    rw [step, Option.bind_eq_some_iff] at hstep
    obtain ⟨task, -, hstep⟩ := hstep
    rw [Option.map_eq_some_iff] at hstep
    obtain ⟨r, hresume, rfl⟩ := hstep
    exact Task.counted_resume hresume h
  | giveUp i =>
    rw [step, Option.bind_eq_some_iff] at hstep
    obtain ⟨task, -, hstep⟩ := hstep
    split at hstep
    · obtain rfl := Option.some_inj.mp hstep
      exact h
    · exact absurd hstep (by simp)

theorem not_holds_init {t : Topic} {name : Bytes} {capacity : UInt64}
    (hnew : Topic.newTopic name capacity = some t) (p : Spot) (m : Message) :
    ¬(init t).Holds p m := by
  rw [Topic.newTopic, Option.map_eq_some_iff] at hnew
  obtain ⟨ring, hring, rfl⟩ := hnew
  rintro (hm | ⟨task, htask, -⟩)
  · cases p with
    | ring =>
      have hm' : m ∈ ring.items := hm
      rw [(Ring.new_eq hring).1] at hm'
      exact absurd hm' List.not_mem_nil
    | wheel =>
      have hm' : m ∈ (TimingWheel.newTimingWheel (50 * millisecond) 3600).messages := hm
      rw [TimingWheel.messages_newTimingWheel] at hm'
      exact absurd hm' List.not_mem_nil
    | pel groupName =>
      obtain ⟨cg, hcg, -⟩ := hm
      exact absurd (hcg.symm.trans (AList.lookup_empty groupName)) (by simp)
    | dlq => exact absurd hm List.not_mem_nil
    | hands task => exact hm
  · exact absurd htask List.not_mem_nil

/-- **The retry budget.** In every run of a topic whose messages are issued, `Close` and equal
identifiers included:

* a message in the ring, the wheel or a pending list has retries left;
* an entry of the dead letter queue has used up the retries of its message, and says so;
* every message anywhere has a life;
* and a life, however it went, has at most `MaxRetries` checkouts since the last replay, as many of
  which have failed as the message says. The message is one behind while `Nack` or a sweep has it in
  its hands. -/
theorem retry_budget {t : Topic} {name : Bytes} {capacity : UInt64}
    (hnew : Topic.newTopic name capacity = some t)
    (hrun : Run step (fun _ ↦ True) (init t) labels s)
    (hissued : ∀ l ∈ labels, l.PublishesIssued) :
    (∀ p m, s.Holds p m → p = .ring ∨ p = .wheel ∨ (∃ groupName, p = .pel groupName) →
      0 ≤ m.retryCount ∧ m.retryCount < m.maxRetries) ∧
    (∀ e ∈ s.topic.dlq.entries.entries, e.2.attempts = e.2.message.retryCount ∧
      e.2.message.retryCount = e.2.message.maxRetries) ∧
    (∀ p m, s.Holds p m → ∃ n, Life (init t) labels s p m n) ∧
    (∀ p m n, Life (init t) labels s p m n → (n.checkouts : ℤ) ≤ m.maxRetries ∧
      (p.stage ≠ .failing → m.retryCount = n.failures) ∧
      (p.stage = .failing → m.retryCount + 1 = n.failures)) := by
  have hlives : ∀ p m, s.Holds p m → ∃ n, Life (init t) labels s p m n :=
    fun p m hm ↦ exists_life (not_holds_init hnew) hrun hm
  have hcounted : s.topic.dlq.Counted :=
    hrun.invariant (I := fun s ↦ s.topic.dlq.Counted) (fun _ _ _ _ _ ↦ counted_step)
      (Topic.counted_newTopic hnew)
  refine ⟨fun p m hm hp ↦ ?_, fun e he ↦ ⟨hcounted e he, ?_⟩, hlives, fun p m n hlife ↦ ?_⟩
  · obtain ⟨n, hlife⟩ := hlives p m hm
    have hfits := hlife.fits hissued
    refine ⟨hfits.nonneg, ?_⟩
    rcases hp with rfl | rfl | ⟨groupName, rfl⟩ <;> exact hfits.budget
  · have hm : s.Holds .dlq e.2.message := Or.inl (List.mem_map_of_mem he)
    obtain ⟨n, hlife⟩ := hlives _ _ hm
    exact (hlife.fits hissued).budget
  · have hfits := hlife.fits hissued
    exact ⟨hfits.checkouts_le, hfits.retryCount_eq, hfits.retryCount_add_one_eq⟩

/-! ### A message rejected three times -/

def rejectedStamp : Stamp := ⟨0, 1, [171, 205], int64Range_zero⟩

def hopeless : Message := rejectedStamp.message (bytesOf "q") none

def rejectOnce : List TopicLabel :=
  [.call (.consumeGroup (bytesOf "g") (bytesOf "c")), .resume 0 0 [], .resume 0 0 [],
    .call (.nack (bytesOf "g") hopeless.id (bytesOf "busy")), .resume 0 0 [], .resume 0 0 []]

/-- A tick of the wheel, with up to one message to dispatch. -/
def tick (expired : ℕ) : List TopicLabel :=
  .call .advance :: List.replicate (expired + 1) (.resume 0 0 [])

/-- The wheel brings the message back after two and after four ticks. -/
def untilDead : List TopicLabel :=
  [.call (.publish hopeless false), .resume 0 0 []]
    ++ rejectOnce ++ tick 0 ++ tick 0 ++ tick 1
    ++ rejectOnce ++ tick 0 ++ tick 0 ++ tick 0 ++ tick 0 ++ tick 1
    ++ rejectOnce

theorem retry_budget_dead :
    ∃ t s, Topic.newTopic (bytesOf "q") 4 = some t ∧
      Run step (fun _ ↦ True) (init t) untilDead s ∧ (∀ l ∈ untilDead, l.PublishesIssued) ∧
      s.topic.dlq.ids = [hopeless.id] ∧
      ∀ e ∈ s.topic.dlq.entries.entries, e.2.attempts = e.2.message.retryCount ∧
        e.2.message.retryCount = e.2.message.maxRetries := by
  let t := (Topic.newTopic (bytesOf "q") 4).get (by decide +kernel)
  have hnew : Topic.newTopic (bytesOf "q") 4 = some t := (Option.some_get _).symm
  let s := (Run.exec step (fun _ ↦ True) (init t) untilDead).get (by decide +kernel)
  have hrun : Run step (fun _ ↦ True) (init t) untilDead s := Run.of_exec (Option.some_get _).symm
  have hissued : ∀ l ∈ untilDead, l.PublishesIssued := by
    have hfirst : hopeless.Issued := ⟨rejectedStamp, bytesOf "q", none, Or.inl rfl⟩
    simp [untilDead, rejectOnce, tick, TopicLabel.PublishesIssued, hfirst]
  have hdead : s.topic.dlq.ids = [hopeless.id] :=
    hrun.of_exec_map (f := fun s ↦ s.topic.dlq.ids) (by decide +kernel)
  exact ⟨t, s, hnew, hrun, hissued, hdead, (retry_budget hnew hrun hissued).2.1⟩

end TopicState

end VortexMQ
