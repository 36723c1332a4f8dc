import VortexMQ.Queue.Handover

/-!
# The life of a message

Messages are values here, while in the source a message is one object that is passed from hand to
hand. A `Life` is the story of such an object within a run: it is published, and from then on every
step either leaves it where it is or moves it on, as the operation that takes the step does. On the
way it is counted how often it has been checked out under a group, and how many of these checkouts
have ended in `Nack` or a timeout, since its publication or its last replay from the dead letter
queue.

Identifiers play no role in this. Two messages may have the same one, in which case one of them may
vanish from a pending list or from the dead letter queue, and its life ends there.
-/

namespace VortexMQ

/-- Where a message can be. -/
inductive Spot where
  | ring
  | wheel
  | pel (groupName : Bytes)
  | dlq
  /-- In the hands of an operation. -/
  | hands (task : Task)

/-- Where `t.tw.Add(msg, delay)` puts its message. -/
def Spot.ofDelay (delay : ℤ) : Spot := if delay ≤ 0 then .ring else .wheel

def ConsumerGroup.Route.spot : ConsumerGroup.Route → Spot
  | .deadLetter => .dlq
  | .retry delay => .ofDelay delay

/-! ## What a topic holds where -/

namespace Topic

/-- The topic holds the message at the spot. -/
def HoldsAt (t : Topic) : Spot → Message → Prop
  | .ring, m => m ∈ t.ring.items
  | .wheel, m => m ∈ t.tw.messages
  | .pel groupName, m =>
      ∃ cg, t.groups.lookup groupName = some cg ∧ m ∈ cg.pel.entries.map fun e ↦ e.2.message
  | .dlq, m => m ∈ t.dlqMessages
  | .hands _, _ => False

/-- Whatever `t'` holds, `t` holds it at the same spot, apart from `msg` at spot `q`. -/
def AddsAt (t t' : Topic) (q : Spot) (msg : Message) : Prop :=
  ∀ p m, t'.HoldsAt p m → t.HoldsAt p m ∨ p = q ∧ m = msg

/-- Whatever `t'` holds, `t` holds it at the same spot. -/
def AddsNothing (t t' : Topic) : Prop := ∀ p m, t'.HoldsAt p m → t.HoldsAt p m

variable {t t' : Topic} {msg : Message} {groupName : Bytes} {cg cg' : ConsumerGroup}

theorem addsNothing_of (hring : ∀ m ∈ t'.ring.items, m ∈ t.ring.items)
    (hwheel : ∀ m ∈ t'.tw.messages, m ∈ t.tw.messages) (hgroups : t'.groups = t.groups)
    (hdlq : ∀ m ∈ t'.dlqMessages, m ∈ t.dlqMessages) : t.AddsNothing t' := by
  intro p m hm
  cases p with
  | ring => exact hring m hm
  | wheel => exact hwheel m hm
  | pel groupName =>
    rw [HoldsAt, hgroups] at hm
    exact hm
  | dlq => exact hdlq m hm
  | hands task => exact hm

theorem addsAt_onExpire (t : Topic) (msg : Message) : t.AddsAt (t.onExpire msg) .ring msg := by
  intro p m hm
  cases p with
  | ring => exact (Ring.mem_of_mem_push hm).symm.imp_right fun h ↦ ⟨rfl, h⟩
  | wheel | pel | dlq | hands => exact Or.inl hm

theorem addsAt_push (t : Topic) (msg : Message) (front : Bool) :
    t.AddsAt (t.push msg front).2 .ring msg := by
  obtain ⟨-, hring, hwheel, hgroups, hdlq⟩ := t.fields_push msg front
  intro p m hm
  cases p with
  | ring =>
    rw [HoldsAt, hring] at hm
    cases front with
    | false => exact (Ring.mem_of_mem_push hm).symm.imp_right fun h ↦ ⟨rfl, h⟩
    | true => exact (Ring.mem_of_mem_pushFront hm).symm.imp_right fun h ↦ ⟨rfl, h⟩
  | wheel =>
    rw [HoldsAt, hwheel] at hm
    exact Or.inl hm
  | pel =>
    rw [HoldsAt, hgroups] at hm
    exact Or.inl hm
  | dlq =>
    rw [HoldsAt, dlqMessages, hdlq] at hm
    exact Or.inl hm
  | hands => exact hm.elim

theorem addsAt_schedule (t : Topic) (msg : Message) (delay : ℤ) :
    t.AddsAt (t.schedule msg delay) (.ofDelay delay) msg := by
  rw [schedule, TimingWheel.add, Spot.ofDelay]
  by_cases hdelay : delay ≤ 0
  · rw [if_pos hdelay, if_pos hdelay]
    exact t.addsAt_onExpire msg
  · rw [if_neg hdelay, if_neg hdelay]
    by_cases hclosed : t.tw.closed = true
    · rw [if_pos hclosed]
      exact fun p m hm ↦ Or.inl hm
    · rw [if_neg hclosed]
      intro p m hm
      cases p with
      | wheel =>
        rcases List.mem_cons.mp ((t.tw.messages_insert_perm msg delay).mem_iff.mp hm) with h | h
        · exact Or.inr ⟨rfl, h⟩
        · exact Or.inl h
      | ring | pel | dlq | hands => exact Or.inl hm

private theorem addsAt_deadLetter (t : Topic) (msg : Message) (cause : Bytes) (now : ℤ) :
    t.AddsAt (t.deadLetter msg cause now) .dlq msg := by
  have hevict : ∀ e ∈ t.dlq.evict.entries.entries, e ∈ t.dlq.entries.entries := by
    intro e he
    rw [DeadLetterQueue.evict] at he
    split at he
    · split at he
      · exact he
      · exact (List.kerase_sublist _ _).subset he
    · exact he
  intro p m hm
  cases p with
  | dlq =>
    obtain ⟨e, he, rfl⟩ := List.mem_map.mp hm
    have he' : e ∈ (t.dlq.evict.entries.insert msg.id ⟨msg, now, cause, msg.retryCount⟩).entries :=
      he
    rw [AList.entries_insert, List.mem_cons] at he'
    rcases he' with rfl | he'
    · exact Or.inr ⟨rfl, rfl⟩
    · exact Or.inl (List.mem_map_of_mem (hevict e ((List.kerase_sublist _ _).subset he')))
  | ring | wheel | pel | hands => exact Or.inl hm

theorem addsAt_route (t : Topic) (msg : Message) (now : ℤ) (r : ConsumerGroup.Route) :
    t.AddsAt (t.route msg now r) r.spot msg := by
  cases r with
  | deadLetter => exact t.addsAt_deadLetter msg _ now
  | retry delay => exact t.addsAt_schedule msg delay

theorem addsNothing_pop (h : t.pop = some (msg, t')) : t.AddsNothing t' := by
  rw [pop, Option.map_eq_some_iff] at h
  obtain ⟨m, -, heq⟩ := h
  rw [Prod.mk.injEq] at heq
  obtain ⟨-, rfl⟩ := heq
  refine addsNothing_of (fun m hm ↦ ?_) (fun _ hm ↦ hm) rfl (fun _ hm ↦ hm)
  rw [t.ring.pop_eq.2.1] at hm
  exact List.mem_of_mem_tail hm

/-- The new state of a group holds what the old one held, apart from `msg`. -/
theorem addsAt_setGroup (hcg : ∀ m ∈ cg'.pel.entries.map (fun e ↦ e.2.message),
      (∃ cg, t.groups.lookup groupName = some cg ∧ m ∈ cg.pel.entries.map fun e ↦ e.2.message) ∨
        m = msg) :
    t.AddsAt (t.setGroup groupName cg') (.pel groupName) msg := by
  intro p m hm
  cases p with
  | pel name =>
    obtain ⟨cg₁, hlookup, hmem⟩ := hm
    by_cases hname : name = groupName
    · subst hname
      rw [setGroup, AList.lookup_insert, Option.some_inj] at hlookup
      subst hlookup
      exact (hcg m hmem).imp_right fun h ↦ ⟨rfl, h⟩
    · rw [setGroup, AList.lookup_insert_ne hname] at hlookup
      exact Or.inl ⟨cg₁, hlookup, hmem⟩
  | ring | wheel | dlq | hands => exact Or.inl hm

theorem addsNothing_setGroup (h : t.groups.lookup groupName = some cg)
    (hsub : cg'.pel.entries ⊆ cg.pel.entries) : t.AddsNothing (t.setGroup groupName cg') := by
  intro p m hm
  cases p with
  | pel name =>
    obtain ⟨cg₁, hlookup, hmem⟩ := hm
    by_cases hname : name = groupName
    · subst hname
      rw [setGroup, AList.lookup_insert, Option.some_inj] at hlookup
      subst hlookup
      exact ⟨cg, h, List.map_subset _ hsub hmem⟩
    · rw [setGroup, AList.lookup_insert_ne hname] at hlookup
      exact ⟨cg₁, hlookup, hmem⟩
  | ring | wheel | dlq | hands => exact hm

theorem addsNothing_getOrCreateGroup (t : Topic) (groupName : Bytes) (defaultTimeout : ℤ) :
    t.AddsNothing (t.getOrCreateGroup groupName defaultTimeout) := by
  rw [getOrCreateGroup]
  split
  · exact fun p m hm ↦ hm
  · intro p m hm
    cases p with
    | pel name =>
      obtain ⟨cg₁, hlookup, hmem⟩ := hm
      by_cases hname : name = groupName
      · subst hname
        rw [setGroup, AList.lookup_insert, Option.some_inj] at hlookup
        subst hlookup
        exact absurd hmem List.not_mem_nil
      · rw [setGroup, AList.lookup_insert_ne hname] at hlookup
        exact ⟨cg₁, hlookup, hmem⟩
    | ring | wheel | dlq | hands => exact hm

theorem addsAt_checkout {consumerID : Bytes} {now : ℤ}
    (h : t.checkout groupName consumerID msg now = some t') :
    ∃ cg, t.groups.lookup groupName = some cg ∧
      t.AddsAt t' (.pel groupName) (cg.stamp msg consumerID (30 * second) now) := by
  rw [checkout, Option.map_eq_some_iff] at h
  obtain ⟨cg, hcg, rfl⟩ := h
  refine ⟨cg, hcg, addsAt_setGroup (t := t) fun m hm ↦ ?_⟩
  obtain ⟨e, he, rfl⟩ := List.mem_map.mp hm
  rw [ConsumerGroup.checkout, AList.entries_insert, List.mem_cons] at he
  rcases he with rfl | he
  · exact Or.inr rfl
  · exact Or.inl ⟨cg, hcg, List.mem_map_of_mem ((List.kerase_sublist _ _).subset he)⟩

theorem addsNothing_dlq {dlq : DeadLetterQueue}
    (hsub : dlq.entries.entries ⊆ t.dlq.entries.entries) : t.AddsNothing { t with dlq := dlq } :=
  addsNothing_of (fun _ hm ↦ hm) (fun _ hm ↦ hm) rfl (fun _ hm ↦ List.map_subset _ hsub hm)

theorem addsNothing_remove {msgID : Bytes} {r : Message × DeadLetterQueue}
    (h : t.dlq.remove msgID = some r) : t.AddsNothing { t with dlq := r.2 } := by
  rw [DeadLetterQueue.remove, Option.map_eq_some_iff] at h
  obtain ⟨entry, -, rfl⟩ := h
  exact addsNothing_dlq (List.kerase_sublist _ _).subset

private theorem addsNothing_advance (t : Topic) : t.AddsNothing { t with tw := t.tw.advance.2 } :=
  addsNothing_of (fun _ hm ↦ hm)
    (fun _ hm ↦ t.tw.messages_advance_perm.mem_iff.mp (List.mem_append_right _ hm)) rfl
    (fun _ hm ↦ hm)

theorem mem_dlqMessages_of_remove {msgID : Bytes} {r : Message × DeadLetterQueue}
    (h : t.dlq.remove msgID = some r) : r.1 ∈ t.dlqMessages := by
  rw [DeadLetterQueue.remove, Option.map_eq_some_iff] at h
  obtain ⟨entry, hentry, rfl⟩ := h
  exact List.mem_map.mpr ⟨_, AList.mem_lookup_iff.mp hentry, rfl⟩

theorem mem_items_of_pop (h : t.pop = some (msg, t')) : msg ∈ t.ring.items := by
  rw [pop, Option.map_eq_some_iff] at h
  obtain ⟨m, hm, heq⟩ := h
  obtain rfl := (Prod.mk.injEq _ _ _ _ ▸ heq).1
  rw [t.ring.pop_eq.1] at hm
  exact List.mem_of_mem_head? hm

theorem addsNothing_ack {msgID : Bytes} {r : Bool × Topic}
    (h : t.ack groupName msgID = some r) : t.AddsNothing r.2 := by
  rw [ack, Option.map_eq_some_iff] at h
  obtain ⟨cg, hcg, rfl⟩ := h
  split
  · intro p m hm
    have hsub : (cg.ack msgID).2.pel.entries ⊆ cg.pel.entries := by
      rw [ConsumerGroup.ack]
      split
      · exact (List.kerase_sublist _ _).subset
      · exact List.Subset.refl _
    refine addsNothing_setGroup hcg hsub p m ?_
    cases p <;> exact hm
  · exact fun p m hm ↦ hm

/-- What a sweep takes from a group was pending there; the rest stays. -/
theorem sweepGroup_eq_some {now : ℤ} {order : List Message}
    (h : t.sweepGroup groupName now order = some t') :
    ∃ cg, t.groups.lookup groupName = some cg ∧
      order.Perm ((cg.expired now).map PendingMessage.message) ∧
      t' = t.setGroup groupName (cg.sweepTake now) := by
  rw [sweepGroup, Option.bind_eq_some_iff] at h
  obtain ⟨cg, hcg, h⟩ := h
  rw [Option.ite_none_right_eq_some, Option.some_inj] at h
  exact ⟨cg, hcg, h.1, h.2.symm⟩

private theorem addsNothing_sweepGroup {now : ℤ} {order : List Message}
    (h : t.sweepGroup groupName now order = some t') : t.AddsNothing t' := by
  obtain ⟨cg, hcg, -, rfl⟩ := sweepGroup_eq_some h
  exact addsNothing_setGroup hcg List.filter_sublist.subset

private theorem holdsAt_of_sweepGroup {now : ℤ} {order : List Message} {m : Message}
    (h : t.sweepGroup groupName now order = some t') (hm : m ∈ order) :
    t.HoldsAt (.pel groupName) m := by
  obtain ⟨cg, hcg, hperm, -⟩ := sweepGroup_eq_some h
  refine ⟨cg, hcg, ?_⟩
  obtain ⟨pending, hpending, rfl⟩ := List.mem_map.mp (hperm.mem_iff.mp hm)
  obtain ⟨e, he, rfl⟩ := List.mem_map.mp (List.mem_of_mem_filter hpending)
  exact List.mem_map_of_mem he

end Topic

theorem ConsumerGroup.mem_of_nackTake {cg : ConsumerGroup} {msgID : Bytes}
    {r : Message × ConsumerGroup} (h : cg.nackTake msgID = some r) :
    r.1 ∈ cg.pel.entries.map fun e ↦ e.2.message := by
  rw [nackTake, Option.map_eq_some_iff] at h
  obtain ⟨pending, hpending, rfl⟩ := h
  exact List.mem_map.mpr ⟨_, AList.mem_lookup_iff.mp hpending, rfl⟩

/-! ## Lives -/

/-- What has happened to a message since its publication or its last replay. -/
structure Tally where
  /-- Checkouts under any group. -/
  checkouts : ℕ
  /-- Those of them that have ended in `Nack` or a timeout. -/
  failures : ℕ

/-- What a move counts as. -/
inductive Effect where
  | none
  | checkout
  | failure
  | reset

def Effect.apply : Effect → Tally → Tally
  | .none, n => n
  | .checkout, n => { n with checkouts := n.checkouts + 1 }
  | .failure, n => { n with failures := n.failures + 1 }
  | .reset, _ => ⟨0, 0⟩

/-- Where a message published by a call appears, and what it is then. -/
inductive Born : TopicLabel → Spot → Message → Prop
  | publish {msg : Message} {front : Bool} :
      Born (.call (.publish msg front)) (.hands (.publish msg front)) msg
  | publishDelayed {msg : Message} {delay now : ℤ} :
      Born (.call (.publishDelayed msg delay now)) (.ofDelay delay)
        { msg with deliverAt := wrap64 (now + delay) }

/-- The first section of a call takes a message from one spot to another. -/
inductive CallMoves (t : Topic) : Call → Spot → Message → Effect → Spot → Message → Prop
  | advance {m : Message} (h : m ∈ t.tw.advance.1) :
      CallMoves t .advance .wheel m .none (.hands (.expire t.tw.advance.1)) m
  | replayDeadLetter {msgID : Bytes} {now : ℤ} {m : Message} {dlq : DeadLetterQueue}
      (h : t.dlq.remove msgID = some (m, dlq)) :
      CallMoves t (.replayDeadLetter msgID now) .dlq m .reset
        (.hands (.replay (Topic.revive m now))) (Topic.revive m now)

open ConsumerGroup (fail nackRoute sweepRoute timeoutCause)

/-- A later section of an operation takes a message from one spot to another. -/
inductive TaskMoves (t : Topic) (now : ℤ) (order : List Message) :
    Task → Spot → Message → Effect → Spot → Message → Prop
  | publish {m : Message} {front : Bool} :
      TaskMoves t now order (.publish m front) (.hands (.publish m front)) m .none .ring m
  | popWait {g c : Bytes} {m : Message} {t' : Topic} (h : t.pop = some (m, t')) :
      TaskMoves t now order (.popWait g c) .ring m .none (.hands (.checkout g c m)) m
  | checkout {g c : Bytes} {m : Message} {cg : ConsumerGroup} (h : t.groups.lookup g = some cg) :
      TaskMoves t now order (.checkout g c m) (.hands (.checkout g c m)) m .checkout (.pel g)
        (cg.stamp m c (30 * second) now)
  | nack {g msgID reason : Bytes} {m : Message} {cg cg' : ConsumerGroup}
      (h : t.groups.lookup g = some cg) (h' : cg.nackTake msgID = some (m, cg')) :
      TaskMoves t now order (.nack g msgID reason) (.pel g) m .failure (.hands (.fail m reason)) m
  | fail {m : Message} {reason : Bytes} {r : ConsumerGroup.Route}
      (h : nackRoute (fail m reason) = some r) :
      TaskMoves t now order (.fail m reason) (.hands (.fail m reason)) m .none r.spot
        (fail m reason)
  | sweepTake {g : Bytes} {gs : List Bytes} {m : Message} (h : m ∈ order) :
      TaskMoves t now order (.sweep (g :: gs) []) (.pel g) m .failure (.hands (.sweep gs order)) m
  | sweepFail {gs : List Bytes} {m : Message} {ms : List Message} :
      TaskMoves t now order (.sweep gs (m :: ms)) (.hands (.sweep gs (m :: ms))) m .none
        (sweepRoute (fail m timeoutCause)).spot (fail m timeoutCause)
  | sweepNext {gs : List Bytes} {m m' : Message} {ms : List Message} (h : m' ∈ ms) :
      TaskMoves t now order (.sweep gs (m :: ms)) (.hands (.sweep gs (m :: ms))) m' .none
        (.hands (.sweep gs ms)) m'
  | expire {m : Message} {ms : List Message} :
      TaskMoves t now order (.expire (m :: ms)) (.hands (.expire (m :: ms))) m .none .ring m
  | expireNext {m m' : Message} {ms : List Message} (h : m' ∈ ms) :
      TaskMoves t now order (.expire (m :: ms)) (.hands (.expire (m :: ms))) m' .none
        (.hands (.expire ms)) m'
  | replay {m : Message} :
      TaskMoves t now order (.replay m) (.hands (.replay m)) m .none .ring m

/-- A step takes a message from one spot to another. -/
inductive Moves (s : TopicState) : TopicLabel → Spot → Message → Effect → Spot → Message → Prop
  | call {c : Call} {p q : Spot} {m m' : Message} {e : Effect}
      (h : CallMoves s.topic c p m e q m') : Moves s (.call c) p m e q m'
  | resume {i : ℕ} {now : ℤ} {order : List Message} {task : Task} {p q : Spot} {m m' : Message}
      {e : Effect} (htask : s.tasks[i]? = some task)
      (h : TaskMoves s.topic now order task p m e q m') : Moves s (.resume i now order) p m e q m'

/-- The message is at the spot. -/
def TopicState.Holds (s : TopicState) (p : Spot) (m : Message) : Prop :=
  s.topic.HoldsAt p m ∨ ∃ task ∈ s.tasks, p = .hands task ∧ m ∈ task.held

/-- In the run `labels` from `s₀` to `s` a message was published that is now `m`, at the spot, with
the given tally. -/
inductive Life (s₀ : TopicState) : List TopicLabel → TopicState → Spot → Message → Tally → Prop
  | born {labels : List TopicLabel} {s s' : TopicState} {l : TopicLabel} {p : Spot} {m : Message}
      (hrun : Run TopicState.step (fun _ ↦ True) s₀ labels s) (hstep : s.step l = some s')
      (hborn : Born l p m) (hholds : s'.Holds p m) : Life s₀ (labels ++ [l]) s' p m ⟨0, 0⟩
  | stays {labels : List TopicLabel} {s s' : TopicState} {l : TopicLabel} {p : Spot} {m : Message}
      {n : Tally} (hlife : Life s₀ labels s p m n) (hstep : s.step l = some s')
      (hholds : s'.Holds p m) : Life s₀ (labels ++ [l]) s' p m n
  | moves {labels : List TopicLabel} {s s' : TopicState} {l : TopicLabel} {p q : Spot}
      {m m' : Message} {n : Tally} {e : Effect} (hlife : Life s₀ labels s p m n)
      (hstep : s.step l = some s') (hmoves : Moves s l p m e q m') (hholds : s'.Holds q m') :
      Life s₀ (labels ++ [l]) s' q m' (e.apply n)

/-! ## Every message has a life -/

section Origins

variable {t : Topic} {L : Ledger} {r : Section} {p : Spot} {m : Message}

/-- What a call leaves in the topic was there before, or was published by it. -/
theorem Topic.origin_start {c : Call} (h : t.start L c = some r) (hm : r.1.HoldsAt p m) :
    t.HoldsAt p m ∨ Born (.call c) p m := by
  cases c with
  | publish msg front =>
    rw [Topic.start] at h
    split at h
    · exact absurd h (by simp)
    · split at h <;> obtain rfl := Option.some_inj.mp h <;> exact Or.inl hm
  | publishDelayed msg delay now =>
    obtain rfl := Option.some_inj.mp h
    rcases Topic.addsAt_schedule (t.countPublished msg) _ delay p m hm with hold | ⟨rfl, rfl⟩
    · have hold' : t.HoldsAt p m := by cases p <;> exact hold
      exact Or.inl hold'
    · exact Or.inr Born.publishDelayed
  | consume =>
    rw [Topic.start] at h
    cases hcon : t.consume with
    | none =>
      rw [hcon] at h
      obtain rfl := Option.some_inj.mp h
      exact Or.inl hm
    | some x =>
      rw [hcon] at h
      obtain rfl := Option.some_inj.mp h
      rw [Topic.consume, Option.map_eq_some_iff] at hcon
      obtain ⟨⟨msg, u⟩, hpop, rfl⟩ := hcon
      refine Or.inl (Topic.addsNothing_pop hpop p m ?_)
      cases p <;> exact hm
  | consumeGroup groupName consumerID =>
    rw [Topic.start] at h
    split at h
    · exact absurd h (by simp)
    · obtain rfl := Option.some_inj.mp h
      exact Or.inl (t.addsNothing_getOrCreateGroup _ _ p m hm)
  | ack | nack =>
    rw [Topic.start] at h
    split at h
    · exact absurd h (by simp)
    · obtain rfl := Option.some_inj.mp h
      exact Or.inl hm
  | sweepConsumerTimeouts order =>
    rw [Topic.start] at h
    split at h
    · exact absurd h (by simp)
    · split at h
      · obtain rfl := Option.some_inj.mp h
        exact Or.inl hm
      · exact absurd h (by simp)
  | advance =>
    obtain rfl := Option.some_inj.mp h
    exact Or.inl (t.addsNothing_advance p m hm)
  | replayDeadLetter msgID now =>
    rw [Topic.start] at h
    cases hrem : t.dlq.remove msgID with
    | none =>
      rw [hrem] at h
      obtain rfl := Option.some_inj.mp h
      exact Or.inl hm
    | some x =>
      rw [hrem] at h
      obtain rfl := Option.some_inj.mp h
      exact Or.inl (Topic.addsNothing_remove hrem p m hm)
  | dlqRemove msgID =>
    rw [Topic.start] at h
    cases hrem : t.dlq.remove msgID with
    | none =>
      rw [hrem] at h
      obtain rfl := Option.some_inj.mp h
      exact Or.inl hm
    | some x =>
      rw [hrem] at h
      obtain rfl := Option.some_inj.mp h
      exact Or.inl (Topic.addsNothing_remove hrem p m hm)
  | dlqPurge =>
    obtain rfl := Option.some_inj.mp h
    exact Or.inl (Topic.addsNothing_dlq (t := t) (List.nil_subset _) p m hm)
  | close =>
    rw [Topic.start] at h
    split at h
    · exact absurd h (by simp)
    · split at h <;> obtain rfl := Option.some_inj.mp h
      · exact Or.inl hm
      · refine Or.inl ?_
        cases p <;> exact hm

/-- What a call takes into its hands it is given to publish, or it takes from the topic. -/
theorem Topic.origin_start_held {c : Call} {task : Task} (h : t.start L c = some r)
    (htask : r.2.2 = some task) (hm : m ∈ task.held) :
    Born (.call c) (.hands task) m ∨
      ∃ p₀ m₀ e, t.HoldsAt p₀ m₀ ∧ CallMoves t c p₀ m₀ e (.hands task) m := by
  cases c with
  | publish msg front =>
    rw [Topic.start] at h
    split at h
    · exact absurd h (by simp)
    · split at h
      · obtain rfl := Option.some_inj.mp h
        exact absurd htask (by simp)
      · obtain rfl := Option.some_inj.mp h
        obtain rfl := Option.some_inj.mp htask
        obtain rfl := List.mem_singleton.mp hm
        exact Or.inl Born.publish
  | publishDelayed | dlqPurge =>
    obtain rfl := Option.some_inj.mp h
    exact absurd htask (by simp)
  | consume =>
    rw [Topic.start] at h
    split at h <;> obtain rfl := Option.some_inj.mp h <;> exact absurd htask (by simp)
  | consumeGroup =>
    rw [Topic.start] at h
    split at h
    · exact absurd h (by simp)
    · obtain rfl := Option.some_inj.mp h
      obtain rfl := Option.some_inj.mp htask
      exact absurd hm List.not_mem_nil
  | ack | nack =>
    rw [Topic.start] at h
    split at h
    · exact absurd h (by simp)
    · obtain rfl := Option.some_inj.mp h
      simp only [Option.ite_none_right_eq_some, Option.some_inj] at htask
      obtain ⟨-, rfl⟩ := htask
      exact absurd hm List.not_mem_nil
  | sweepConsumerTimeouts order =>
    rw [Topic.start] at h
    split at h
    · exact absurd h (by simp)
    · split at h
      · obtain rfl := Option.some_inj.mp h
        obtain rfl := Option.some_inj.mp htask
        exact absurd hm List.not_mem_nil
      · exact absurd h (by simp)
  | advance =>
    obtain rfl := Option.some_inj.mp h
    obtain rfl := Option.some_inj.mp htask
    have hwheel : m ∈ t.tw.messages :=
      t.tw.messages_advance_perm.mem_iff.mp (List.mem_append_left _ hm)
    exact Or.inr ⟨.wheel, m, .none, hwheel, .advance hm⟩
  | replayDeadLetter msgID now =>
    rw [Topic.start] at h
    cases hrem : t.dlq.remove msgID with
    | none =>
      rw [hrem] at h
      obtain rfl := Option.some_inj.mp h
      exact absurd htask (by simp)
    | some x =>
      rw [hrem] at h
      obtain rfl := Option.some_inj.mp h
      obtain rfl := Option.some_inj.mp htask
      obtain rfl := List.mem_singleton.mp hm
      exact Or.inr ⟨.dlq, x.1, .reset, Topic.mem_dlqMessages_of_remove hrem,
        .replayDeadLetter hrem⟩
  | dlqRemove msgID =>
    rw [Topic.start] at h
    split at h <;> obtain rfl := Option.some_inj.mp h <;> exact absurd htask (by simp)
  | close =>
    rw [Topic.start] at h
    split at h
    · exact absurd h (by simp)
    · split at h <;> obtain rfl := Option.some_inj.mp h
      · exact absurd htask (by simp)
      · obtain rfl := Option.some_inj.mp htask
        exact absurd hm List.not_mem_nil

variable {now : ℤ} {order : List Message} {task : Task}

/-- What a later section leaves in the topic was there before, or the operation had it in its
hands. -/
theorem Task.origin_resume (h : task.resume t L now order = some r) (hm : r.1.HoldsAt p m) :
    t.HoldsAt p m ∨
      ∃ m₀ ∈ task.held, ∃ e, TaskMoves t now order task (.hands task) m₀ e p m := by
  cases task with
  | publish msg front =>
    obtain rfl := Option.some_inj.mp h
    rcases t.addsAt_push msg front p m hm with hold | ⟨rfl, rfl⟩
    · exact Or.inl hold
    · exact Or.inr ⟨m, List.mem_singleton_self m, .none, .publish⟩
  | popWait groupName consumerID =>
    rw [Task.resume, Option.map_eq_some_iff] at h
    obtain ⟨⟨msg, t'⟩, hpop, rfl⟩ := h
    exact Or.inl (Topic.addsNothing_pop hpop p m hm)
  | checkout groupName consumerID msg =>
    rw [Task.resume, Option.map_eq_some_iff] at h
    obtain ⟨t', hcheckout, rfl⟩ := h
    obtain ⟨cg, hcg, hadds⟩ := Topic.addsAt_checkout hcheckout
    rcases hadds p m hm with hold | ⟨rfl, rfl⟩
    · exact Or.inl hold
    · exact Or.inr ⟨msg, List.mem_singleton_self msg, .checkout, .checkout hcg⟩
  | ack groupName msgID =>
    rw [Task.resume, Option.map_eq_some_iff] at h
    obtain ⟨x, hack, rfl⟩ := h
    exact Or.inl (Topic.addsNothing_ack hack p m hm)
  | nack groupName msgID reason =>
    rw [Task.resume, Option.map_eq_some_iff] at h
    obtain ⟨cg, hcg, rfl⟩ := h
    cases htake : cg.nackTake msgID with
    | none =>
      rw [htake] at hm
      exact Or.inl hm
    | some x =>
      rw [htake] at hm
      rw [ConsumerGroup.nackTake, Option.map_eq_some_iff] at htake
      obtain ⟨pending, -, rfl⟩ := htake
      exact Or.inl (Topic.addsNothing_setGroup hcg (List.kerase_sublist _ _).subset p m hm)
  | fail msg reason =>
    rw [Task.resume, Option.map_eq_some_iff] at h
    obtain ⟨route, hroute, rfl⟩ := h
    have hm' : (t.route (ConsumerGroup.fail msg reason) now route).HoldsAt p m := by
      cases p <;> exact hm
    rcases t.addsAt_route _ now route p m hm' with hold | ⟨rfl, rfl⟩
    · exact Or.inl hold
    · exact Or.inr ⟨msg, List.mem_singleton_self msg, .none, .fail hroute⟩
  | sweep groups timedOut =>
    cases timedOut with
    | nil =>
      cases groups with
      | nil =>
        obtain rfl := Option.some_inj.mp h
        exact Or.inl hm
      | cons groupName groups =>
        rw [Task.resume, Option.map_eq_some_iff] at h
        obtain ⟨t', hsweep, rfl⟩ := h
        exact Or.inl (Topic.addsNothing_sweepGroup hsweep p m hm)
    | cons msg timedOut =>
      rw [Task.resume] at h
      obtain rfl := Option.some_inj.mp h
      rcases t.addsAt_route _ now _ p m hm with hold | ⟨rfl, rfl⟩
      · exact Or.inl hold
      · exact Or.inr ⟨msg, List.mem_cons_self, .none, .sweepFail⟩
  | expire msgs =>
    cases msgs with
    | nil =>
      obtain rfl := Option.some_inj.mp h
      exact Or.inl hm
    | cons msg msgs =>
      obtain rfl := Option.some_inj.mp h
      rcases t.addsAt_onExpire msg p m hm with hold | ⟨rfl, rfl⟩
      · exact Or.inl hold
      · exact Or.inr ⟨m, List.mem_cons_self, .none, .expire⟩
  | replay msg =>
    obtain rfl := Option.some_inj.mp h
    rcases t.addsAt_onExpire msg p m hm with hold | ⟨rfl, rfl⟩
    · exact Or.inl hold
    · exact Or.inr ⟨m, List.mem_singleton_self m, .none, .replay⟩
  | closeRing | closeWheel =>
    obtain rfl := Option.some_inj.mp h
    refine Or.inl ?_
    cases p <;> exact hm

/-- What an operation has in its hands after a section it had there before, or it takes it from the
topic. -/
theorem Task.origin_resume_held {task' : Task} (h : task.resume t L now order = some r)
    (htask : r.2.2 = some task') (hm : m ∈ task'.held) :
    ∃ p₀ m₀ e, (t.HoldsAt p₀ m₀ ∨ p₀ = .hands task ∧ m₀ ∈ task.held) ∧
      TaskMoves t now order task p₀ m₀ e (.hands task') m := by
  cases task with
  | publish | replay | closeWheel =>
    obtain rfl := Option.some_inj.mp h
    exact absurd htask (by simp)
  | closeRing =>
    obtain rfl := Option.some_inj.mp h
    obtain rfl := Option.some_inj.mp htask
    exact absurd hm List.not_mem_nil
  | popWait groupName consumerID =>
    rw [Task.resume, Option.map_eq_some_iff] at h
    obtain ⟨⟨msg, t'⟩, hpop, rfl⟩ := h
    obtain rfl := Option.some_inj.mp htask
    obtain rfl := List.mem_singleton.mp hm
    exact ⟨.ring, m, .none, Or.inl (Topic.mem_items_of_pop hpop), .popWait hpop⟩
  | checkout | ack | fail =>
    rw [Task.resume, Option.map_eq_some_iff] at h
    obtain ⟨x, -, rfl⟩ := h
    exact absurd htask (by simp)
  | nack groupName msgID reason =>
    rw [Task.resume, Option.map_eq_some_iff] at h
    obtain ⟨cg, hcg, rfl⟩ := h
    cases htake : cg.nackTake msgID with
    | none =>
      rw [htake] at htask
      exact absurd htask (by simp)
    | some x =>
      rw [htake] at htask
      obtain rfl := Option.some_inj.mp htask
      obtain rfl := List.mem_singleton.mp hm
      exact ⟨.pel groupName, x.1, .failure, Or.inl ⟨cg, hcg, ConsumerGroup.mem_of_nackTake htake⟩,
        .nack hcg htake⟩
  | sweep groups timedOut =>
    cases timedOut with
    | nil =>
      cases groups with
      | nil =>
        obtain rfl := Option.some_inj.mp h
        exact absurd htask (by simp)
      | cons groupName groups =>
        rw [Task.resume, Option.map_eq_some_iff] at h
        obtain ⟨t', hsweep, rfl⟩ := h
        obtain rfl := Option.some_inj.mp htask
        exact ⟨.pel groupName, m, .failure, Or.inl (Topic.holdsAt_of_sweepGroup hsweep hm),
          .sweepTake hm⟩
    | cons msg timedOut =>
      rw [Task.resume] at h
      obtain rfl := Option.some_inj.mp h
      obtain rfl := Option.some_inj.mp htask
      exact ⟨_, m, .none, Or.inr ⟨rfl, List.mem_cons_of_mem _ hm⟩, .sweepNext hm⟩
  | expire msgs =>
    cases msgs with
    | nil =>
      obtain rfl := Option.some_inj.mp h
      exact absurd htask (by simp)
    | cons msg msgs =>
      obtain rfl := Option.some_inj.mp h
      obtain rfl := Option.some_inj.mp htask
      exact ⟨_, m, .none, Or.inr ⟨rfl, List.mem_cons_of_mem _ hm⟩, .expireNext hm⟩

end Origins

namespace TopicState

variable {s s' : TopicState} {l : TopicLabel} {p : Spot} {m : Message}

private theorem mem_replaceTask {tasks : List Task} {i : ℕ} {next : Option Task} {task : Task}
    (h : task ∈ replaceTask tasks i next) : task ∈ tasks ∨ next = some task := by
  cases next with
  | none => exact Or.inl (List.mem_of_mem_eraseIdx h)
  | some task' => exact (List.mem_or_eq_of_mem_set h).imp_right fun heq ↦ congrArg some heq.symm

/-- **Where a message comes from.** Whatever is somewhere after a step was there before, or the step
publishes it, or moves it there. -/
theorem origin_step (hstep : s.step l = some s') (hm : s'.Holds p m) :
    s.Holds p m ∨ Born l p m ∨ ∃ p₀ m₀ e, s.Holds p₀ m₀ ∧ Moves s l p₀ m₀ e p m := by
  cases l with
  | call c =>
    rw [step, Option.map_eq_some_iff] at hstep
    obtain ⟨r, hstart, rfl⟩ := hstep
    rcases hm with hm | ⟨task, htask, rfl, hm⟩
    · rcases Topic.origin_start hstart hm with hold | hborn
      · exact Or.inl (Or.inl hold)
      · exact Or.inr (Or.inl hborn)
    · rcases List.mem_append.mp htask with hold | hnew
      · exact Or.inl (Or.inr ⟨task, hold, rfl, hm⟩)
      · rcases Topic.origin_start_held hstart (Option.mem_toList.mp hnew) hm with
          hborn | ⟨p₀, m₀, e, hold, hmoves⟩
        · exact Or.inr (Or.inl hborn)
        · exact Or.inr (Or.inr ⟨p₀, m₀, e, Or.inl hold, .call hmoves⟩)
  | resume i now order =>
    rw [step, Option.bind_eq_some_iff] at hstep
    obtain ⟨task, htask, hstep⟩ := hstep
    rw [Option.map_eq_some_iff] at hstep
    obtain ⟨r, hresume, rfl⟩ := hstep
    have hmem : task ∈ s.tasks := List.mem_of_getElem? htask
    rcases hm with hm | ⟨task', htask', rfl, hm⟩
    · rcases Task.origin_resume hresume hm with hold | ⟨m₀, hm₀, e, hmoves⟩
      · exact Or.inl (Or.inl hold)
      · exact Or.inr (Or.inr ⟨.hands task, m₀, e, Or.inr ⟨task, hmem, rfl, hm₀⟩,
          .resume htask hmoves⟩)
    · rcases mem_replaceTask htask' with hold | hnew
      · exact Or.inl (Or.inr ⟨task', hold, rfl, hm⟩)
      · obtain ⟨p₀, m₀, e, hold, hmoves⟩ := Task.origin_resume_held hresume hnew hm
        refine Or.inr (Or.inr ⟨p₀, m₀, e, ?_, .resume htask hmoves⟩)
        exact hold.imp_right fun h ↦ ⟨task, hmem, h⟩
  | giveUp i =>
    rw [step, Option.bind_eq_some_iff] at hstep
    obtain ⟨task, htask, hstep⟩ := hstep
    split at hstep
    · obtain rfl := Option.some_inj.mp hstep
      refine Or.inl (hm.imp_right ?_)
      rintro ⟨task', htask', heq, hheld⟩
      exact ⟨task', List.mem_of_mem_eraseIdx htask', heq, hheld⟩
    · exact absurd hstep (by simp)

/-- In a run from a state that holds nothing, everything held has a life. -/
theorem exists_life {s₀ : TopicState} {labels : List TopicLabel} (hempty : ∀ p m, ¬s₀.Holds p m)
    (hrun : Run step (fun _ ↦ True) s₀ labels s) (hm : s.Holds p m) :
    ∃ n, Life s₀ labels s p m n := by
  suffices h : Run step (fun _ ↦ True) s₀ labels s ∧
      ∀ p m, s.Holds p m → ∃ n, Life s₀ labels s p m n from h.2 p m hm
  refine hrun.history (I := fun labels s ↦ Run step (fun _ ↦ True) s₀ labels s ∧
      ∀ p m, s.Holds p m → ∃ n, Life s₀ labels s p m n) ?_
    ⟨Run.nil trivial, fun p m hm ↦ absurd hm (hempty p m)⟩
  rintro labels s l s' - - hstep ⟨hrun, hlives⟩
  refine ⟨hrun.append (Run.cons trivial hstep (Run.nil trivial)), fun p m hm ↦ ?_⟩
  rcases origin_step hstep hm with hold | hborn | ⟨p₀, m₀, e, hold, hmoves⟩
  · obtain ⟨n, hlife⟩ := hlives p m hold
    exact ⟨n, hlife.stays hstep hm⟩
  · exact ⟨⟨0, 0⟩, .born hrun hstep hborn hm⟩
  · obtain ⟨n, hlife⟩ := hlives p₀ m₀ hold
    exact ⟨e.apply n, hlife.moves hstep hmoves hm⟩

end TopicState

end VortexMQ
