import VortexMQ.Queue.Conservation

/-!
# At most one place

`VortexMQ.Queue.Conservation` keeps an exact account of the identifiers in a topic, as long as the
topic is open, its ring below saturation and its dead letter queue below its limit. Outside of these
bounds messages are dropped: a closed ring refuses, a full one overwrites, a stopped wheel ignores,
a full dead letter queue evicts. None of this puts a message in two places. What the topic and the
operations on it hold after any critical section is, identifier by identifier, at most what they
held before and what the section has brought in, without any condition.
-/

namespace VortexMQ

/-! ## The parts of a topic -/

namespace Deque

variable {α : Type} (d : Deque α) (x : α)

private theorem subperm_pushBack : (d.pushBack x).2.items.Subperm (x :: d.items) := by
  rw [pushBack]
  split
  · exact (List.sublist_cons_self x d.items).subperm
  · refine List.Subperm.trans (List.perm_append_singleton x _).subperm ?_
    refine (List.Sublist.cons_cons x ?_).subperm
    split
    · exact List.Sublist.refl _
    · exact List.tail_sublist _

private theorem subperm_pushFront : (d.pushFront x).2.items.Subperm (x :: d.items) := by
  rw [pushFront]
  split
  · exact (List.sublist_cons_self x d.items).subperm
  · refine (List.Sublist.cons_cons x ?_).subperm
    split
    · exact List.Sublist.refl _
    · exact List.dropLast_sublist _

end Deque

namespace Ring

variable {α : Type} (r : Ring α) (msg : α)

theorem subperm_push : (r.push msg).2.items.Subperm (msg :: r.items) := by
  obtain ⟨d, hd⟩ := r.valid
  rw [items_eq (hd.push msg).2, items_eq hd]
  exact d.subperm_pushBack msg

private theorem subperm_pushFront : (r.pushFront msg).2.items.Subperm (msg :: r.items) := by
  obtain ⟨d, hd⟩ := r.valid
  rw [items_eq (hd.pushFront msg).2, items_eq hd]
  exact d.subperm_pushFront msg

end Ring

theorem entries_insert_le {β γ : Type*} (s : AList fun _ : Bytes ↦ β) (key : Bytes) (b : β)
    (f : ((_ : Bytes) × β) → γ) :
    (↑((s.insert key b).entries.map f) : Multiset γ) ≤ f ⟨key, b⟩ ::ₘ ↑(s.entries.map f) := by
  rw [AList.entries_insert, List.map_cons]
  exact Multiset.coe_le.mpr (((List.kerase_sublist _ _).map f).cons_cons _).subperm

theorem ConsumerGroup.pending_checkout_le (cg : ConsumerGroup) (msg : Message) (consumerID : Bytes)
    (customTimeout now : ℤ) :
    (↑(cg.checkout msg consumerID customTimeout now).pending : Multiset Bytes)
      ≤ msg.id ::ₘ ↑cg.pending :=
  entries_insert_le cg.pel msg.id _ fun e ↦ e.2.message.id

theorem DeadLetterQueue.ids_add_le (dlq : DeadLetterQueue) (msg : Message) (cause : Bytes)
    (now : ℤ) : (↑(dlq.add msg cause now).ids : Multiset Bytes) ≤ msg.id ::ₘ ↑dlq.ids := by
  have hevict : dlq.evict.entries.entries.Sublist dlq.entries.entries := by
    rw [evict]
    split
    · split
      · exact List.Sublist.refl _
      · exact List.kerase_sublist _ _
    · exact List.Sublist.refl _
  calc (↑(dlq.add msg cause now).ids : Multiset Bytes)
      ≤ msg.id ::ₘ ↑dlq.evict.ids := entries_insert_le dlq.evict.entries msg.id _ _
    _ ≤ msg.id ::ₘ ↑dlq.ids :=
      Multiset.cons_le_cons _ (Multiset.coe_le.mpr (hevict.map _).subperm)

/-! ## Topics -/

namespace Topic

variable (t : Topic) {t' : Topic} {msg : Message}

theorem ringIds_le {ring : Ring Message} (h : ring.items.Subperm (msg :: t.ring.items)) :
    ids { t with ring := ring } ≤ msg.id ::ₘ t.ids := by
  have hring : ringIds { t with ring := ring } ≤ msg.id ::ₘ t.ringIds :=
    Multiset.map_le_map (Multiset.coe_le.mpr h)
  calc ids { t with ring := ring }
      = ringIds { t with ring := ring } + (t.wheelIds + t.pelIds + t.dlqIds) := by
        rw [ids, add_assoc, add_assoc, add_assoc]
        rfl
    _ ≤ msg.id ::ₘ t.ringIds + (t.wheelIds + t.pelIds + t.dlqIds) := add_le_add_left hring _
    _ = msg.id ::ₘ t.ids := by
        rw [Multiset.cons_add, ids, add_assoc, add_assoc, add_assoc]

theorem ids_onExpire_le (msg : Message) : (t.onExpire msg).ids ≤ msg.id ::ₘ t.ids :=
  t.ringIds_le (t.ring.subperm_push msg)

private theorem ids_push_le (msg : Message) (front : Bool) :
    (t.push msg front).2.ids ≤ msg.id ::ₘ t.ids := by
  obtain ⟨-, hring, hwheel, hgroups, hdlq⟩ := t.fields_push msg front
  have hpushed : (t.push msg front).2.ring.items.Subperm (msg :: t.ring.items) := by
    rw [hring]
    cases front with
    | false => exact t.ring.subperm_push msg
    | true => exact t.ring.subperm_pushFront msg
  have hids : (t.push msg front).2.ids = ids { t with ring := (t.push msg front).2.ring } := by
    simp only [ids, ringIds, wheelIds, pelIds, dlqIds, hwheel, hgroups, hdlq]
  rw [hids]
  exact t.ringIds_le hpushed

theorem ids_schedule_le (msg : Message) (delay : ℤ) :
    (t.schedule msg delay).ids ≤ msg.id ::ₘ t.ids := by
  rw [schedule, TimingWheel.add]
  split_ifs with hdelay hclosed
  · exact t.ids_onExpire_le msg
  · exact Multiset.le_cons_self _ _
  · have hwheel : wheelIds { t with tw := t.tw.insert msg delay } = msg.id ::ₘ t.wheelIds :=
      Multiset.coe_eq_coe.mpr ((t.tw.messages_insert_perm msg delay).map _)
    change t.ringIds + wheelIds { t with tw := t.tw.insert msg delay } + _ + _ ≤ _
    rw [hwheel]
    simp only [ids, Multiset.add_cons, Multiset.cons_add]
    exact le_rfl

private theorem ids_deadLetter_le (msg : Message) (cause : Bytes) (now : ℤ) :
    (t.deadLetter msg cause now).ids ≤ msg.id ::ₘ t.ids := by
  have hadd := t.dlq.ids_add_le msg cause now
  change t.ringIds + t.wheelIds + t.pelIds + ↑(t.dlq.add msg cause now).ids ≤ _
  calc t.ringIds + t.wheelIds + t.pelIds + ↑(t.dlq.add msg cause now).ids
      ≤ t.ringIds + t.wheelIds + t.pelIds + msg.id ::ₘ ↑t.dlq.ids := add_le_add_right hadd _
    _ = msg.id ::ₘ t.ids := Multiset.add_cons _ _ _

private theorem ids_route_le (msg : Message) (now : ℤ) (r : ConsumerGroup.Route) :
    (t.route msg now r).ids ≤ msg.id ::ₘ t.ids := by
  cases r with
  | deadLetter => exact t.ids_deadLetter_le msg _ now
  | retry delay => exact t.ids_schedule_le msg delay

variable {t}

theorem ids_of_pop {r : Message × Topic} (h : t.pop = some r) : t.ids = r.1.id ::ₘ r.2.ids := by
  obtain ⟨hhead, htail, -⟩ := t.ring.pop_eq
  rw [pop, Option.map_eq_some_iff] at h
  obtain ⟨m, hm, rfl⟩ := h
  have hsplit : t.ring.items = m :: t.ring.items.tail := List.eq_cons_of_mem_head? (hhead ▸ hm)
  have hring : t.ringIds = m.id ::ₘ ringIds { t with ring := t.ring.pop.2 } := by
    rw [ringIds, hsplit, ringIds, htail]
    rfl
  rw [ids, hring]
  simp only [ids, Multiset.cons_add]
  rfl

private theorem ids_checkout_le {groupName consumerID : Bytes} {now : ℤ}
    (h : t.checkout groupName consumerID msg now = some t') : t'.ids ≤ msg.id ::ₘ t.ids := by
  rw [checkout, Option.map_eq_some_iff] at h
  obtain ⟨cg, hcg, rfl⟩ := h
  have hset := ids_setGroup hcg (cg.checkout msg consumerID (30 * second) now)
  refine le_of_add_le_add_left (a := (↑cg.pending : Multiset Bytes)) ?_
  calc (↑cg.pending + (t.setGroup groupName (cg.checkout msg consumerID (30 * second) now)).ids)
      = ↑(cg.checkout msg consumerID (30 * second) now).pending + t.ids := hset
    _ ≤ msg.id ::ₘ ↑cg.pending + t.ids :=
      add_le_add_left (cg.pending_checkout_le msg consumerID (30 * second) now) _
    _ = ↑cg.pending + msg.id ::ₘ t.ids := by rw [Multiset.cons_add, Multiset.add_cons]

private theorem ids_delete_le {groupName msgID : Bytes} {cg : ConsumerGroup}
    (h : t.groups.lookup groupName = some cg) {p : PendingMessage}
    (hp : cg.pel.lookup msgID = some p) :
    (t.setGroup groupName (cg.delete msgID)).ids ≤ t.ids := by
  rw [ids_delete h hp]
  exact Multiset.le_cons_self _ _

private theorem ids_ack_le {groupName msgID : Bytes} {r : Bool × Topic}
    (h : t.ack groupName msgID = some r) : r.2.ids ≤ t.ids := by
  rw [ack, Option.map_eq_some_iff] at h
  obtain ⟨cg, hcg, rfl⟩ := h
  rw [ConsumerGroup.ack]
  cases hp : cg.pel.lookup msgID with
  | none => exact le_rfl
  | some p => exact ids_delete_le hcg hp

private theorem ids_of_sweepGroup {groupName : Bytes} {now : ℤ} {order : List Message}
    (h : t.sweepGroup groupName now order = some t') :
    ↑(order.map Message.id) + t'.ids = t.ids := by
  rw [sweepGroup, Option.bind_eq_some_iff] at h
  obtain ⟨cg, hcg, h⟩ := h
  rw [Option.ite_none_right_eq_some, Option.some_inj] at h
  obtain ⟨hperm, rfl⟩ := h
  have hset := ids_setGroup hcg (cg.sweepTake now)
  have hpending : (↑(order.map Message.id) + ↑(cg.sweepTake now).pending : Multiset Bytes)
      = ↑cg.pending := by
    have hids := (hperm.map Message.id).append_right (cg.sweepTake now).pending
    rw [List.map_map] at hids
    rw [Multiset.coe_add]
    exact Multiset.coe_eq_coe.mpr (hids.trans (cg.pending_sweepTake_perm now))
  rw [← hpending] at hset
  refine add_left_cancel (a := (↑(cg.sweepTake now).pending : Multiset Bytes)) ?_
  rw [← hset]
  abel

private theorem ids_of_advance (t : Topic) :
    ids { t with tw := t.tw.advance.2 } + ↑(t.tw.advance.1.map Message.id) = t.ids := by
  have hwheel : (↑(t.tw.advance.1.map Message.id) : Multiset Bytes)
      + wheelIds { t with tw := t.tw.advance.2 } = t.wheelIds := by
    rw [wheelIds, wheelIds, Multiset.coe_add, ← List.map_append]
    exact Multiset.coe_eq_coe.mpr (t.tw.messages_advance_perm.map _)
  rw [ids, ids, ← hwheel]
  change t.ringIds + _ + t.pelIds + t.dlqIds + _ = _
  abel

/-! ## Critical sections -/

/-- **A call** brings in what it publishes and nothing else. -/
theorem start_le {L : Ledger} {c : Call} {r : Section} (h : t.start L c = some r) :
    r.1.ids + ↑(Task.restIds r.2.2) ≤ t.ids + ↑c.issues := by
  have hidle : ∀ {ids : List Bytes}, t.ids + ↑([] : List Bytes) ≤ t.ids + ↑ids := fun {ids} ↦
    add_le_add_right (Multiset.zero_le _) _
  cases c with
  | publish msg front =>
    rw [start, Option.ite_none_left_eq_some] at h
    obtain ⟨-, h⟩ := h
    split at h
    · exact Option.some_inj.mp h ▸ hidle
    · exact Option.some_inj.mp h ▸ le_rfl
  | publishDelayed msg delay now =>
    rw [start, Option.some_inj] at h
    subst h
    have hle := (t.countPublished msg).ids_schedule_le
      { msg with deliverAt := wrap64 (now + delay) } delay
    calc (t.publishDelayed msg delay now).ids + 0
        ≤ msg.id ::ₘ t.ids := (add_zero _).le.trans hle
      _ = t.ids + {msg.id} := by rw [← Multiset.singleton_add, add_comm]
  | consume =>
    simp only [start] at h
    split at h
    · rename_i msg t' hcon
      rw [consume, Option.map_eq_some_iff] at hcon
      obtain ⟨r', hpop, heq⟩ := hcon
      obtain ⟨-, rfl⟩ := Prod.mk.inj heq
      obtain rfl := Option.some_inj.mp h
      rw [ids_of_pop hpop]
      exact add_le_add_left (Multiset.le_cons_self _ _) _
    · exact Option.some_inj.mp h ▸ hidle
  | consumeGroup groupName consumerID =>
    rw [start, Option.ite_none_left_eq_some] at h
    obtain rfl := Option.some_inj.mp h.2
    exact (congrArg (· + _) (t.ids_getOrCreateGroup groupName (30 * second))).le
  | ack groupName msgID =>
    rw [start, Option.ite_none_left_eq_some] at h
    obtain rfl := Option.some_inj.mp h.2
    have hrest : Task.restIds (if groupName ∈ t.groups then some (.ack groupName msgID) else none)
        = [] := by split <;> rfl
    exact (congrArg (fun ids : List Bytes ↦ t.ids + ↑ids) hrest).le.trans hidle
  | nack groupName msgID reason =>
    rw [start, Option.ite_none_left_eq_some] at h
    obtain rfl := Option.some_inj.mp h.2
    have hrest : Task.restIds
        (if groupName ∈ t.groups then some (.nack groupName msgID reason) else none) = [] := by
      split <;> rfl
    exact (congrArg (fun ids : List Bytes ↦ t.ids + ↑ids) hrest).le.trans hidle
  | sweepConsumerTimeouts order =>
    rw [start, Option.ite_none_left_eq_some, Option.ite_none_right_eq_some] at h
    exact Option.some_inj.mp h.2.2 ▸ hidle
  | advance =>
    obtain rfl := Option.some_inj.mp h
    exact t.ids_of_advance.le.trans (Multiset.le_add_right _ _)
  | replayDeadLetter msgID now =>
    simp only [start] at h
    split at h
    · rename_i msg dlq hremove
      obtain rfl := Option.some_inj.mp h
      change ids { t with dlq := dlq } + {msg.id} ≤ t.ids + 0
      rw [ids_dlqRemove hremove, add_zero, add_comm, Multiset.singleton_add]
    · exact Option.some_inj.mp h ▸ hidle
  | dlqRemove msgID =>
    simp only [start] at h
    split at h
    · rename_i msg dlq hremove
      obtain rfl := Option.some_inj.mp h
      rw [ids_dlqRemove hremove]
      exact add_le_add_left (Multiset.le_cons_self _ _) _
    · exact Option.some_inj.mp h ▸ hidle
  | dlqPurge =>
    obtain rfl := Option.some_inj.mp h
    rw [← t.ids_dlqPurge]
    exact add_le_add_left (Multiset.le_add_right _ _) _
  | close =>
    rw [start, Option.ite_none_left_eq_some] at h
    obtain ⟨-, h⟩ := h
    split at h <;> exact Option.some_inj.mp h ▸ hidle

end Topic

/-- **A later section** puts down what is in its hands, drops it, or takes something up. -/
theorem Task.resume_le {t : Topic} {L : Ledger} {now : ℤ} {order : List Message} {task : Task}
    {r : Section} (h : task.resume t L now order = some r) :
    r.1.ids + ↑(Task.restIds r.2.2) ≤ t.ids + ↑task.heldIds := by
  have hput : ∀ {t' : Topic} {id : Bytes} {rest : List Bytes}, t'.ids ≤ id ::ₘ t.ids →
      t'.ids + ↑rest ≤ t.ids + ↑(id :: rest) := by
    intro t' id rest hle
    calc t'.ids + ↑rest ≤ id ::ₘ t.ids + ↑rest := add_le_add_left hle _
      _ = t.ids + ↑(id :: rest) := by rw [← Multiset.cons_coe, Multiset.cons_add, Multiset.add_cons]
  cases task with
  | publish msg front =>
    obtain rfl := Option.some_inj.mp h
    exact hput (t.ids_push_le msg front)
  | popWait groupName consumerID =>
    rw [resume, Option.map_eq_some_iff] at h
    obtain ⟨r', hpop, rfl⟩ := h
    change r'.2.ids + {r'.1.id} ≤ t.ids + 0
    rw [Topic.ids_of_pop hpop, add_zero, add_comm, Multiset.singleton_add]
  | checkout groupName consumerID msg =>
    rw [resume, Option.map_eq_some_iff] at h
    obtain ⟨t', hcheckout, rfl⟩ := h
    exact hput (Topic.ids_checkout_le hcheckout)
  | ack groupName msgID =>
    rw [resume, Option.map_eq_some_iff] at h
    obtain ⟨r', hack, rfl⟩ := h
    exact add_le_add_left (Topic.ids_ack_le hack) _
  | nack groupName msgID reason =>
    rw [resume, Option.map_eq_some_iff] at h
    obtain ⟨cg, hcg, rfl⟩ := h
    cases hp : cg.pel.lookup msgID with
    | none =>
      simp only [ConsumerGroup.nackTake, hp, Option.map_none]
      exact le_rfl
    | some p =>
      simp only [ConsumerGroup.nackTake, hp, Option.map_some]
      change (t.setGroup groupName (cg.delete msgID)).ids + {p.message.id} ≤ t.ids + 0
      rw [Topic.ids_delete hcg hp, add_zero, add_comm, Multiset.singleton_add]
  | fail msg reason =>
    rw [resume, Option.map_eq_some_iff] at h
    obtain ⟨route, -, rfl⟩ := h
    exact hput (t.ids_route_le (ConsumerGroup.fail msg reason) now route)
  | sweep groups timedOut =>
    cases timedOut with
    | nil =>
      cases groups with
      | nil => exact Option.some_inj.mp h ▸ le_rfl
      | cons groupName groups =>
        rw [resume, Option.map_eq_some_iff] at h
        obtain ⟨t', ht', rfl⟩ := h
        rw [← Topic.ids_of_sweepGroup ht', add_comm t'.ids]
        exact Multiset.le_add_right _ _
    | cons msg timedOut =>
      cases groups <;>
        exact Option.some_inj.mp h ▸ hput
          (t.ids_route_le (ConsumerGroup.fail msg ConsumerGroup.timeoutCause) now _)
  | expire msgs =>
    cases msgs with
    | nil => exact Option.some_inj.mp h ▸ le_rfl
    | cons msg msgs => exact Option.some_inj.mp h ▸ hput (t.ids_onExpire_le msg)
  | replay msg => exact Option.some_inj.mp h ▸ hput (t.ids_onExpire_le msg)
  | closeRing =>
    obtain rfl := Option.some_inj.mp h
    have hids : Topic.ids { t with ring := t.ring.close } = t.ids := by
      simp only [Topic.ids, Topic.ringIds, t.ring.items_close]
      rfl
    exact (congrArg (· + _) hids).le
  | closeWheel => exact Option.some_inj.mp h ▸ le_rfl

/-! ## Runs -/

namespace TopicState

variable {s s' : TopicState} {ok : TopicState → Prop}

/-- Every identifier in the topic or in the hands of an operation, as often as it is there. -/
def weight (s : TopicState) : Multiset Bytes := s.topic.ids + handIds s.tasks

theorem weight_step {l : TopicLabel} (h : s.step l = some s') :
    s'.weight ≤ s.weight + ↑l.issues := by
  cases l with
  | call c =>
    rw [step, Option.map_eq_some_iff] at h
    obtain ⟨r, hr, rfl⟩ := h
    have hissues : c.issues = (TopicLabel.call c).issues := by cases c <;> rfl
    calc r.1.ids + handIds (s.tasks ++ r.2.2.toList)
        = (r.1.ids + ↑(Task.restIds r.2.2)) + handIds s.tasks := by
          rw [handIds_append]
          abel
      _ ≤ (s.topic.ids + ↑c.issues) + handIds s.tasks := add_le_add_left (Topic.start_le hr) _
      _ = s.weight + ↑(TopicLabel.call c).issues := by
          rw [weight, ← hissues]
          abel
  | resume i now order =>
    rw [step, Option.bind_eq_some_iff] at h
    obtain ⟨task, htask, h⟩ := h
    rw [Option.map_eq_some_iff] at h
    obtain ⟨r, hr, rfl⟩ := h
    have hhand := handIds_replaceTask htask r.2.2
    refine le_of_add_le_add_left (a := (↑task.heldIds : Multiset Bytes)) ?_
    calc ↑task.heldIds + (r.1.ids + handIds (replaceTask s.tasks i r.2.2))
        = r.1.ids + (↑task.heldIds + handIds (replaceTask s.tasks i r.2.2)) := by abel
      _ = (r.1.ids + ↑(Task.restIds r.2.2)) + handIds s.tasks := by
          rw [hhand]
          abel
      _ ≤ (s.topic.ids + ↑task.heldIds) + handIds s.tasks := add_le_add_left (Task.resume_le hr) _
      _ = ↑task.heldIds + (s.weight + 0) := by
          rw [weight]
          abel
  | giveUp i =>
    rw [step, Option.bind_eq_some_iff] at h
    obtain ⟨task, htask, h⟩ := h
    split at h
    · obtain rfl := Option.some_inj.mp h
      have hhand := handIds_replaceTask htask none
      have herase : handIds (s.tasks.eraseIdx i) ≤ handIds s.tasks :=
        (Multiset.le_add_left _ _).trans (hhand.le.trans (zero_add _).le)
      exact (add_le_add_right herase _).trans (Multiset.le_add_right _ _)
    · exact absurd h (by simp)

/-- **Whole runs.** -/
theorem weight_run {labels : List TopicLabel} (h : Run step ok s labels s') :
    s'.weight ≤ s.weight + ↑(TopicLabel.issuedIds labels) := by
  refine Run.history (I := fun ls u ↦ u.weight ≤ s.weight + ↑(TopicLabel.issuedIds ls))
    (fun ls u l v _ _ hstep hI ↦ ?_) h (Multiset.le_add_right _ _)
  rw [TopicLabel.issuedIds, List.flatMap_append, List.flatMap_singleton, ← Multiset.coe_add,
    ← add_assoc]
  exact (weight_step hstep).trans (add_le_add_left hI _)

theorem weight_init {t : Topic} {name : Bytes} {capacity : UInt64}
    (h : Topic.newTopic name capacity = some t) : (init t).weight = 0 := by
  rw [weight, init, (Topic.ids_newTopic h).1]
  rfl

theorem nodup_weight_of_run {t : Topic} {name : Bytes} {capacity : UInt64}
    {labels : List TopicLabel} (hnew : Topic.newTopic name capacity = some t)
    (h : Run step ok (init t) labels s) (hdistinct : (TopicLabel.issuedIds labels).Nodup) :
    s.weight.Nodup := by
  have hle := weight_run h
  rw [weight_init hnew, zero_add] at hle
  exact Multiset.nodup_of_le hle (Multiset.coe_nodup.mpr hdistinct)

end TopicState

end VortexMQ
