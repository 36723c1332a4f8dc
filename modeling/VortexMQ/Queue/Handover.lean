import VortexMQ.Queue.TopicSystem

/-!
# Handing a message over

`PublishDelayed`, `Nack`, `SweepConsumerTimeouts` and `ReplayDeadLetter` end in the same way: they
have a message in their hands, pass it to the wheel or to the ring, and report success without
looking at the outcome. `Close` can come first. A closed wheel and a closed ring refuse silently, so
what such a call reports is true exactly as long as the receiver is still open.
-/

namespace VortexMQ

/-! ## The messages of a topic -/

namespace Topic

/-- Checked out under any group. -/
def pelMessages (t : Topic) : List Message :=
  t.groups.entries.flatMap fun e ↦ e.2.pel.entries.map fun p ↦ p.2.message

def dlqMessages (t : Topic) : List Message := t.dlq.entries.entries.map fun e ↦ e.2.message

/-- Everything held by the ring, the wheel, a pending list or the dead letter queue. -/
def messages (t : Topic) : List Message :=
  t.ring.items ++ t.tw.messages ++ t.pelMessages ++ t.dlqMessages

variable {t : Topic} {msg : Message}

theorem mem_messages_of_ring (h : msg ∈ t.ring.items) : msg ∈ t.messages :=
  List.mem_append_left _ (List.mem_append_left _ (List.mem_append_left _ h))

theorem mem_messages_of_wheel (h : msg ∈ t.tw.messages) : msg ∈ t.messages :=
  List.mem_append_left _ (List.mem_append_left _ (List.mem_append_right _ h))

theorem mem_messages_of_dlq (h : msg ∈ t.dlqMessages) : msg ∈ t.messages :=
  List.mem_append_right _ h

/-! ### Receivers -/

/-- Whether the receiver of `t.tw.Add(msg, delay)` is open: the ring, if the message is not to wait,
and the wheel otherwise. -/
def scheduleOpen (t : Topic) (delay : ℤ) : Bool :=
  if delay ≤ 0 then !t.ring.closed else !t.tw.closed

/-- Whether the receiver of a failed message is open; the dead letter queue never closes. -/
def routeOpen (t : Topic) : ConsumerGroup.Route → Bool
  | .deadLetter => true
  | .retry delay => t.scheduleOpen delay

theorem mem_messages_onExpire (hopen : t.ring.closed = false) (msg : Message) :
    msg ∈ (t.onExpire msg).messages :=
  mem_messages_of_ring (Ring.mem_items_push msg hopen)

theorem mem_messages_schedule {delay : ℤ} (hopen : t.scheduleOpen delay = true) (msg : Message) :
    msg ∈ (t.schedule msg delay).messages := by
  rw [scheduleOpen] at hopen
  rw [schedule, TimingWheel.add]
  by_cases hdelay : delay ≤ 0
  · rw [if_pos hdelay, Bool.not_eq_true'] at hopen
    rw [if_pos hdelay]
    exact mem_messages_onExpire hopen msg
  · rw [if_neg hdelay, Bool.not_eq_true'] at hopen
    rw [if_neg hdelay, hopen, if_neg Bool.false_ne_true]
    refine mem_messages_of_wheel ?_
    exact (t.tw.messages_insert_perm msg delay).mem_iff.mpr List.mem_cons_self

private theorem mem_messages_deadLetter (t : Topic) (msg : Message) (cause : Bytes) (now : ℤ) :
    msg ∈ (t.deadLetter msg cause now).messages := by
  refine mem_messages_of_dlq (List.mem_map.mpr
    ⟨⟨msg.id, ⟨msg, now, cause, msg.retryCount⟩⟩, ?_, rfl⟩)
  exact AList.mem_lookup_iff.mp (AList.lookup_insert _)

private theorem mem_messages_route {r : ConsumerGroup.Route} (hopen : t.routeOpen r = true)
    (msg : Message) (now : ℤ) : msg ∈ (t.route msg now r).messages := by
  cases r with
  | deadLetter => exact t.mem_messages_deadLetter msg _ now
  | retry delay => exact mem_messages_schedule hopen msg

end Topic

/-! ## What a step reports -/

namespace TopicState

open ConsumerGroup (fail nackRoute sweepRoute timeoutCause)

/-- The message that a step hands over, if it is the one with which a call reports success:
`PublishDelayed` returns it, `Nack` returns true, the sweep counts it, `ReplayDeadLetter` returns
it. -/
def reports (s : TopicState) : TopicLabel → Option Message
  | .call (.publishDelayed msg delay now) => some { msg with deliverAt := wrap64 (now + delay) }
  | .resume i _ _ =>
      match s.tasks[i]? with
      | some (.fail msg reason) => some (fail msg reason)
      | some (.sweep _ (msg :: _)) => some (fail msg timeoutCause)
      | some (.replay msg) => some msg
      | _ => none
  | _ => none

/-- The step reports failure: there is no such group, pending entry or dead letter. -/
def Refuses (s : TopicState) : TopicLabel → Prop
  | .call (.nack groupName _ _) => groupName ∉ s.topic.groups
  | .call (.replayDeadLetter msgID _) => s.topic.dlq.remove msgID = none
  | .resume i _ _ =>
      match s.tasks[i]? with
      | some (.nack groupName msgID _) =>
          ((s.topic.groups.lookup groupName).bind fun cg ↦ cg.nackTake msgID) = none
      | _ => False
  | _ => False

/-- Whether whoever is to receive a message in this step is open. -/
def receiverOpen (s : TopicState) : TopicLabel → Bool
  | .call (.publishDelayed _ delay _) => s.topic.scheduleOpen delay
  | .resume i _ _ =>
      match s.tasks[i]? with
      | some (.fail msg reason) => (nackRoute (fail msg reason)).all s.topic.routeOpen
      | some (.sweep _ (msg :: _)) => s.topic.routeOpen (sweepRoute (fail msg timeoutCause))
      | some (.replay _) => !s.topic.ring.closed
      | _ => true
  | _ => true

/-- A message reported as taken care of is held by the topic, and a refusal changes nothing. -/
structure Truthful (s : TopicState) (l : TopicLabel) (s' : TopicState) : Prop where
  success : ∀ msg, s.reports l = some msg → msg ∈ s'.topic.messages
  failure : s.Refuses l → s'.topic = s.topic

variable {s s' : TopicState}

private theorem truthful_call {c : Call} (hopen : s.receiverOpen (.call c) = true)
    (h : s.step (.call c) = some s') : s.Truthful (.call c) s' := by
  rw [step, Option.map_eq_some_iff] at h
  obtain ⟨r, hr, rfl⟩ := h
  refine ⟨fun msg hmsg ↦ ?_, fun hrefuses ↦ ?_⟩
  · cases c with
    | publishDelayed m delay now =>
      obtain rfl := Option.some_inj.mp hmsg
      obtain rfl := Option.some_inj.mp hr
      exact Topic.mem_messages_schedule (t := s.topic.countPublished m) hopen _
    | _ => exact absurd hmsg (by simp [reports])
  · cases c with
    | nack groupName msgID reason =>
      rw [Topic.start] at hr
      split at hr
      · exact absurd hr (by simp)
      · obtain rfl := Option.some_inj.mp hr
        rfl
    | replayDeadLetter msgID now =>
      have hnone : s.topic.dlq.remove msgID = none := hrefuses
      rw [Topic.start, hnone] at hr
      obtain rfl := Option.some_inj.mp hr
      rfl
    | _ => exact hrefuses.elim

private theorem truthful_resume {i : ℕ} {now : ℤ} {order : List Message}
    (hopen : s.receiverOpen (.resume i now order) = true)
    (h : s.step (.resume i now order) = some s') : s.Truthful (.resume i now order) s' := by
  rw [step, Option.bind_eq_some_iff] at h
  obtain ⟨task, htask, h⟩ := h
  obtain ⟨r, hr, rfl⟩ := Option.map_eq_some_iff.mp h
  rw [receiverOpen, htask] at hopen
  constructor
  · intro msg hmsg
    rw [reports, htask] at hmsg
    cases task with
    | fail m reason =>
      obtain rfl := Option.some_inj.mp hmsg
      obtain ⟨route, hroute, rfl⟩ := Option.map_eq_some_iff.mp hr
      have hopen' : (nackRoute (fail m reason)).all s.topic.routeOpen = true := hopen
      rw [hroute, Option.all_some] at hopen'
      exact Topic.mem_messages_route hopen' _ now
    | sweep groups timedOut =>
      cases timedOut with
      | nil => exact absurd hmsg (by simp)
      | cons m timedOut =>
        obtain rfl := Option.some_inj.mp hmsg
        rw [Task.resume] at hr
        obtain rfl := Option.some_inj.mp hr
        exact Topic.mem_messages_route hopen _ now
    | replay m =>
      obtain rfl := Option.some_inj.mp hmsg
      obtain rfl := Option.some_inj.mp hr
      exact Topic.mem_messages_onExpire ((Bool.not_eq_true' _).mp hopen) m
    | _ => exact absurd hmsg (by simp)
  · intro hrefuses
    rw [Refuses, htask] at hrefuses
    cases task with
    | nack groupName msgID reason =>
      obtain ⟨cg, hcg, rfl⟩ := Option.map_eq_some_iff.mp hr
      have hnone : cg.nackTake msgID = none := by
        simpa only [hcg, Option.bind_some] using hrefuses
      rw [hnone]
    | _ => exact hrefuses.elim

/-- **Success is reported truthfully while the receiver is open.** Take any interleaving of calls,
`Close` included, in which every message is handed to an open ring or wheel. Then whatever a step
reports as taken care of is held by the topic afterwards, and a step that reports failure leaves the
topic as it was. -/
theorem truthful_of_receiverOpen {labels : List TopicLabel}
    (hguard : Run.Guarded step (fun s l ↦ s.receiverOpen l = true) s labels) :
    Run.AllSteps step Truthful s labels := by
  refine Run.allSteps_of_guarded (I := fun _ ↦ True) ?_ trivial hguard
  intro u l v _ hopen hstep
  refine ⟨?_, trivial⟩
  cases l with
  | call c => exact truthful_call hopen hstep
  | resume i now order => exact truthful_resume hopen hstep
  | giveUp i => exact ⟨fun msg hmsg ↦ absurd hmsg (by simp [reports]), fun h ↦ h.elim⟩

/-! ### A rejected message and `Close` -/

def rejected : Message :=
  ⟨bytesOf "m", bytesOf "q", none, Headers.empty, 0, 0, 0, 0, 3, [], 0, []⟩

/-- The message is published, checked out and taken from the pending list by `Nack`. -/
def untilNack : List TopicLabel :=
  [.call (.publish rejected false), .resume 0 0 [],
    .call (.consumeGroup (bytesOf "g") (bytesOf "c")), .resume 0 0 [], .resume 0 0 [],
    .call (.nack (bytesOf "g") rejected.id (bytesOf "busy")), .resume 0 0 []]

/-- `Nack` puts the message into the wheel of the open topic. -/
theorem truthful_of_receiverOpen_nack :
    ∃ t u s msg, Topic.newTopic (bytesOf "q") 4 = some t ∧
      Run step (fun _ ↦ True) (init t) untilNack u ∧ u.step (.resume 0 0 []) = some s ∧
      u.reports (.resume 0 0 []) = some msg ∧ msg.retryCount < msg.maxRetries ∧
      msg ∈ s.topic.messages := by
  let t := (Topic.newTopic (bytesOf "q") 4).get (by decide +kernel)
  have hnew : Topic.newTopic (bytesOf "q") 4 = some t := (Option.some_get _).symm
  let u := (Run.exec step (fun _ ↦ True) (init t) untilNack).get (by decide +kernel)
  have hrun : Run step (fun _ ↦ True) (init t) untilNack u := Run.of_exec (Option.some_get _).symm
  let s := (u.step (.resume 0 0 [])).get (by decide +kernel)
  have hstep : u.step (.resume 0 0 []) = some s := (Option.some_get _).symm
  let msg := (u.reports (.resume 0 0 [])).get (by decide +kernel)
  have hmsg : u.reports (.resume 0 0 []) = some msg := (Option.some_get _).symm
  have hguard : Run.Guarded step (fun s l ↦ s.receiverOpen l = true) (init t)
      (untilNack ++ [.resume 0 0 []]) := Run.guarded_of_checkGuard (by decide +kernel)
  exact ⟨t, u, s, msg, hnew, hrun, hstep, hmsg, by decide +kernel,
    ((truthful_of_receiverOpen hguard).last hrun hstep).success msg hmsg⟩

/-- **`Nack` returns true and the message is gone.** `Close` runs between the two halves of
`Nack`. -/
theorem nack_reports_dropped_message :
    ∃ t u s msg, Topic.newTopic (bytesOf "q") 4 = some t ∧
      Run step (fun _ ↦ True) (init t)
        (untilNack ++ [.call .close, .resume 1 0 [], .resume 1 0 []]) u ∧
      u.step (.resume 0 0 []) = some s ∧
      u.reports (.resume 0 0 []) = some msg ∧ msg.retryCount < msg.maxRetries ∧
      s.tasks = [] ∧ msg ∉ s.topic.messages ∧ ¬u.Truthful (.resume 0 0 []) s := by
  let labels := untilNack ++ [.call .close, .resume 1 0 [], .resume 1 0 []]
  let t := (Topic.newTopic (bytesOf "q") 4).get (by decide +kernel)
  have hnew : Topic.newTopic (bytesOf "q") 4 = some t := (Option.some_get _).symm
  let u := (Run.exec step (fun _ ↦ True) (init t) labels).get (by decide +kernel)
  have hrun : Run step (fun _ ↦ True) (init t) labels u := Run.of_exec (Option.some_get _).symm
  let s := (u.step (.resume 0 0 [])).get (by decide +kernel)
  have hstep : u.step (.resume 0 0 []) = some s := (Option.some_get _).symm
  let msg := (u.reports (.resume 0 0 [])).get (by decide +kernel)
  have hmsg : u.reports (.resume 0 0 []) = some msg := (Option.some_get _).symm
  have hlost : msg ∉ s.topic.messages := by decide +kernel
  exact ⟨t, u, s, msg, hnew, hrun, hstep, hmsg, by decide +kernel,
    List.isEmpty_iff.mp (by decide +kernel), hlost, fun h ↦ hlost (h.success msg hmsg)⟩

end TopicState

end VortexMQ
