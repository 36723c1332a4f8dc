import VortexMQ.Queue.TopicSystem

/-!
# No message is lost or duplicated

Every container of a topic is weighed by the multiset of identifiers it holds. The topic, the hands
of the operations in progress and the ledger's terminal lists together always weigh exactly what
has been issued: a critical section moves identifiers between them, and only a publishing call adds
one. With pairwise distinct identifiers the total is free of repetitions, and "each message is in
exactly one place" is then nothing but the definition of the total, read off place by place.

The one step that could break the balance is `Checkout`, which overwrites the pending entry of the
same identifier if there is one. There is none, because the identifier is in the hands of the
operation that checks it out; this is where the absence of repetitions is used inside the
induction, not only at its end.
-/

namespace VortexMQ

/-! ## The weight of a topic -/

namespace Topic

def ringIds (t : Topic) : Multiset Bytes := ↑(t.ring.items.map Message.id)

def wheelIds (t : Topic) : Multiset Bytes := ↑(t.tw.messages.map Message.id)

/-- Identifiers pending under any group. -/
def pelIds (t : Topic) : Multiset Bytes := ↑(t.groups.entries.flatMap fun e ↦ e.2.pending)

def dlqIds (t : Topic) : Multiset Bytes := ↑t.dlq.ids

/-- Everything the topic holds. -/
def ids (t : Topic) : Multiset Bytes := t.ringIds + t.wheelIds + t.pelIds + t.dlqIds

/-- Neither the topic nor its ring or wheel has been closed. -/
structure IsOpen (t : Topic) : Prop where
  topic : t.closed = false
  ring : t.ring.closed = false
  wheel : t.tw.closed = false

/-- The ring is below saturation and the dead letter queue below its limit. -/
structure InBounds (t : Topic) : Prop where
  ring : t.ring.items.length < saturationCapacity.toNat
  dlq : (t.dlq.len : ℤ) < t.dlq.maxSize

variable {t t' : Topic} {msg : Message}

theorem ids_newTopic {name : Bytes} {capacity : UInt64} (h : newTopic name capacity = some t) :
    t.ids = 0 ∧ t.IsOpen := by
  rw [newTopic, Option.map_eq_some_iff] at h
  obtain ⟨ring, hring, rfl⟩ := h
  obtain ⟨hitems, hopen⟩ := Ring.new_eq hring
  refine ⟨?_, rfl, hopen, rfl⟩
  simp [ids, ringIds, wheelIds, pelIds, dlqIds, hitems]

/-! ### Counters -/

theorem IsOpen.countPublished (h : t.IsOpen) (msg : Message) : (t.countPublished msg).IsOpen :=
  ⟨h.topic, h.ring, h.wheel⟩

theorem IsOpen.countConsumed (h : t.IsOpen) (msg : Message) : (t.countConsumed msg).IsOpen :=
  ⟨h.topic, h.ring, h.wheel⟩

theorem InBounds.countPublished (h : t.InBounds) (msg : Message) :
    (t.countPublished msg).InBounds :=
  ⟨h.ring, h.dlq⟩

/-! ### Ring and wheel -/

theorem ids_onExpire (ho : t.IsOpen) (hb : t.InBounds) (msg : Message) :
    (t.onExpire msg).ids = msg.id ::ₘ t.ids ∧ (t.onExpire msg).IsOpen := by
  obtain ⟨-, hitems, hclosed⟩ := Ring.push_eq msg ho.ring hb.ring
  refine ⟨?_, ho.topic, hclosed, ho.wheel⟩
  have hring : (t.onExpire msg).ringIds = msg.id ::ₘ t.ringIds := by
    rw [ringIds, onExpire, hitems, List.map_append, ← Multiset.coe_add, add_comm]
    rfl
  rw [ids, hring]
  simp only [ids, Multiset.cons_add]
  rfl

private theorem ids_push (ho : t.IsOpen) (hb : t.InBounds) (msg : Message) (front : Bool) :
    (t.push msg front).2.ids = msg.id ::ₘ t.ids ∧ (t.push msg front).2.IsOpen := by
  cases front with
  | false =>
    obtain ⟨hok, hitems, hclosed⟩ := Ring.push_eq msg ho.ring hb.ring
    have hpush : (t.push msg false).2 = (t.onExpire msg).countPublished msg := by
      simp [push, onExpire, hok]
    rw [hpush]
    obtain ⟨hids, ho'⟩ := ids_onExpire ho hb msg
    exact ⟨hids, ho'.countPublished msg⟩
  | true =>
    obtain ⟨hok, hitems, hclosed⟩ := Ring.pushFront_eq msg ho.ring hb.ring
    have hpush : (t.push msg true).2
        = countPublished { t with ring := (t.ring.pushFront msg).2 } msg := by
      simp [push, hok]
    rw [hpush]
    refine ⟨?_, ho.topic, hclosed, ho.wheel⟩
    have hring : ringIds { t with ring := (t.ring.pushFront msg).2 } = msg.id ::ₘ t.ringIds := by
      rw [ringIds, hitems]
      rfl
    change ringIds { t with ring := (t.ring.pushFront msg).2 } + _ + _ + _ = _
    rw [hring]
    simp only [ids, Multiset.cons_add]
    rfl

theorem ids_schedule (ho : t.IsOpen) (hb : t.InBounds) (msg : Message) (delay : ℤ) :
    (t.schedule msg delay).ids = msg.id ::ₘ t.ids ∧ (t.schedule msg delay).IsOpen := by
  rw [schedule, TimingWheel.add]
  by_cases hd : delay ≤ 0
  · rw [if_pos hd]
    exact ids_onExpire ho hb msg
  · rw [if_neg hd, if_neg (by simp [ho.wheel])]
    refine ⟨?_, ho.topic, ho.ring, ho.wheel⟩
    have hwheel : wheelIds { t with tw := t.tw.insert msg delay } = msg.id ::ₘ t.wheelIds :=
      Multiset.coe_eq_coe.mpr ((t.tw.messages_insert_perm msg delay).map _)
    change t.ringIds + wheelIds { t with tw := t.tw.insert msg delay } + _ + _ = _
    rw [hwheel]
    simp only [ids, Multiset.add_cons, Multiset.cons_add]
    rfl

theorem ids_pop (h : t.pop = some (msg, t')) (ho : t.IsOpen) :
    t.ids = msg.id ::ₘ t'.ids ∧ t'.IsOpen := by
  obtain ⟨hhead, htail, hclosed⟩ := t.ring.pop_eq
  rw [pop, Option.map_eq_some_iff] at h
  obtain ⟨m, hm, heq⟩ := h
  rw [Prod.mk.injEq] at heq
  obtain ⟨rfl, rfl⟩ := heq
  refine ⟨?_, ho.topic, hclosed.trans ho.ring, ho.wheel⟩
  have hsplit : t.ring.items = m :: t.ring.items.tail :=
    List.eq_cons_of_mem_head? (hhead ▸ hm)
  have hring : t.ringIds = m.id ::ₘ ringIds { t with ring := t.ring.pop.2 } := by
    rw [ringIds, hsplit, ringIds, htail]
    rfl
  rw [ids, hring]
  simp only [ids, Multiset.cons_add]
  rfl

private theorem ids_advance (ho : t.IsOpen) :
    ↑(t.tw.advance.1.map Message.id) + ids { t with tw := t.tw.advance.2 } = t.ids ∧
      IsOpen { t with tw := t.tw.advance.2 } := by
  refine ⟨?_, ho.topic, ho.ring, ho.wheel⟩
  have hwheel : (t.tw.advance.1.map Message.id : Multiset Bytes)
      + wheelIds { t with tw := t.tw.advance.2 } = t.wheelIds := by
    rw [wheelIds, wheelIds, Multiset.coe_add, ← List.map_append]
    exact Multiset.coe_eq_coe.mpr (t.tw.messages_advance_perm.map _)
  rw [ids, ids, ← hwheel]
  change _ + (t.ringIds + _ + t.pelIds + t.dlqIds) = _
  abel

private theorem ids_publishDelayed (ho : t.IsOpen) (hb : t.InBounds) (msg : Message)
    (delay now : ℤ) : (t.publishDelayed msg delay now).ids = msg.id ::ₘ t.ids ∧
      (t.publishDelayed msg delay now).IsOpen :=
  ids_schedule (ho.countPublished msg) (hb.countPublished msg) _ delay

private theorem ids_consume (h : t.consume = some (msg, t')) (ho : t.IsOpen) :
    t.ids = msg.id ::ₘ t'.ids ∧ t'.IsOpen := by
  rw [consume, Option.map_eq_some_iff] at h
  obtain ⟨⟨m, u⟩, hpop, heq⟩ := h
  rw [Prod.mk.injEq] at heq
  obtain ⟨rfl, rfl⟩ := heq
  obtain ⟨hids, ho'⟩ := ids_pop hpop ho
  exact ⟨hids, ho'.countConsumed m⟩

/-! ### Groups -/

variable {groupName msgID : Bytes} {cg cg' : ConsumerGroup}

theorem IsOpen.setGroup (h : t.IsOpen) (groupName : Bytes) (cg : ConsumerGroup) :
    (t.setGroup groupName cg).IsOpen :=
  ⟨h.topic, h.ring, h.wheel⟩

/-- Changing the state of a group changes the weight by what its pending list gains and loses. -/
theorem ids_setGroup (h : t.groups.lookup groupName = some cg) (cg' : ConsumerGroup) :
    ↑cg.pending + (t.setGroup groupName cg').ids = ↑cg'.pending + t.ids := by
  have hpel : ↑cg.pending + (t.setGroup groupName cg').pelIds = ↑cg'.pending + t.pelIds := by
    rw [pelIds, pelIds, Multiset.coe_add, Multiset.coe_add]
    exact Multiset.coe_eq_coe.mpr (flatMap_insert_perm ConsumerGroup.pending h)
  change ↑cg.pending + (t.ringIds + t.wheelIds + (t.setGroup groupName cg').pelIds + t.dlqIds)
    = ↑cg'.pending + (t.ringIds + t.wheelIds + t.pelIds + t.dlqIds)
  calc ↑cg.pending + (t.ringIds + t.wheelIds + (t.setGroup groupName cg').pelIds + t.dlqIds)
      = t.ringIds + t.wheelIds + (↑cg.pending + (t.setGroup groupName cg').pelIds) + t.dlqIds := by
        abel
    _ = ↑cg'.pending + (t.ringIds + t.wheelIds + t.pelIds + t.dlqIds) := by
        rw [hpel]
        abel

theorem ids_getOrCreateGroup (t : Topic) (groupName : Bytes) (defaultTimeout : ℤ) :
    (t.getOrCreateGroup groupName defaultTimeout).ids = t.ids := by
  rw [getOrCreateGroup]
  split
  · rfl
  · rename_i hnew
    have hpel : (t.setGroup groupName
        (ConsumerGroup.newConsumerGroup groupName t.name defaultTimeout)).pelIds = t.pelIds := by
      rw [pelIds, setGroup, AList.entries_insert_of_notMem hnew, List.flatMap_cons]
      rfl
    rw [ids, hpel]
    rfl

theorem IsOpen.getOrCreateGroup (h : t.IsOpen) (groupName : Bytes) (defaultTimeout : ℤ) :
    (t.getOrCreateGroup groupName defaultTimeout).IsOpen := by
  rw [Topic.getOrCreateGroup]
  split
  · exact h
  · exact h.setGroup _ _

private theorem pending_le_ids (h : t.groups.lookup groupName = some cg) : ↑cg.pending ≤ t.ids := by
  have hset := ids_setGroup h { cg with pel := ∅, keyed := by simp }
  have hnil : ((({ cg with pel := ∅, keyed := by simp } : ConsumerGroup)).pending : Multiset Bytes)
      = 0 := rfl
  rw [hnil, zero_add] at hset
  exact hset ▸ Multiset.le_add_right _ _

private theorem ids_checkout {consumerID : Bytes} {now : ℤ} (hfresh : msg.id ∉ t.ids)
    (h : t.checkout groupName consumerID msg now = some t') (ho : t.IsOpen) :
    t'.ids = msg.id ::ₘ t.ids ∧ t'.IsOpen := by
  rw [checkout, Option.map_eq_some_iff] at h
  obtain ⟨cg, hcg, rfl⟩ := h
  refine ⟨?_, (ho.setGroup _ _).countConsumed _⟩
  have hnot : msg.id ∉ cg.pending := fun hmem ↦
    hfresh (Multiset.mem_of_le (pending_le_ids hcg) hmem)
  have hset := ids_setGroup hcg (cg.checkout msg consumerID (30 * second) now)
  rw [ConsumerGroup.pending_checkout hnot, ← Multiset.cons_coe, Multiset.cons_add,
    ← Multiset.add_cons] at hset
  exact add_left_cancel hset

theorem ids_delete (h : t.groups.lookup groupName = some cg) {p : PendingMessage}
    (hp : cg.pel.lookup msgID = some p) :
    t.ids = p.message.id ::ₘ (t.setGroup groupName (cg.delete msgID)).ids := by
  obtain ⟨hid, hperm⟩ := ConsumerGroup.pending_delete_perm hp
  have hset := ids_setGroup h (cg.delete msgID)
  rw [← Multiset.coe_eq_coe.mpr hperm, ← Multiset.cons_coe, Multiset.cons_add,
    ← Multiset.add_cons] at hset
  rw [hid]
  exact (add_left_cancel hset).symm

private theorem ids_ack {ok : Bool} (h : t.ack groupName msgID = some (ok, t')) (ho : t.IsOpen) :
    t.ids = (if ok then {msgID} else 0) + t'.ids ∧ t'.IsOpen := by
  rw [ack, Option.map_eq_some_iff] at h
  obtain ⟨cg, hcg, heq⟩ := h
  rw [ConsumerGroup.ack] at heq
  cases hp : cg.pel.lookup msgID with
  | none =>
    rw [hp] at heq
    simp only [Bool.false_eq_true, if_false, Prod.mk.injEq] at heq
    obtain ⟨rfl, rfl⟩ := heq
    exact ⟨(zero_add _).symm, ho⟩
  | some p =>
    rw [hp] at heq
    simp only [if_true, Prod.mk.injEq] at heq
    obtain ⟨rfl, rfl⟩ := heq
    refine ⟨?_, ho.topic, ho.ring, ho.wheel⟩
    have hdel := ids_delete hcg hp
    rw [(ConsumerGroup.pending_delete_perm hp).1] at hdel
    rw [if_pos rfl, Multiset.singleton_add]
    exact hdel

private theorem ids_sweepGroup {now : ℤ} {order : List Message}
    (h : t.sweepGroup groupName now order = some t') (ho : t.IsOpen) :
    ↑(order.map Message.id) + t'.ids = t.ids ∧ t'.IsOpen := by
  rw [sweepGroup, Option.bind_eq_some_iff] at h
  obtain ⟨cg, hcg, h⟩ := h
  by_cases hperm : order.Perm ((cg.expired now).map PendingMessage.message)
  · rw [if_pos hperm, Option.some_inj] at h
    subst h
    refine ⟨?_, ho.setGroup _ _⟩
    have hsplit := Multiset.coe_eq_coe.mpr (cg.pending_sweepTake_perm now)
    have horder : ((order.map Message.id : List Bytes) : Multiset Bytes)
        = ↑((cg.expired now).map fun p ↦ p.message.id) := by
      have := hperm.map Message.id
      rw [List.map_map] at this
      exact Multiset.coe_eq_coe.mpr this
    have hset := ids_setGroup hcg (cg.sweepTake now)
    rw [← Multiset.coe_add] at hsplit
    rw [← hsplit, ← horder] at hset
    refine add_left_cancel (a := (↑(cg.sweepTake now).pending : Multiset Bytes)) ?_
    rw [← hset]
    abel
  · rw [if_neg hperm] at h
    exact absurd h (by simp)

/-! ### Dead letters -/

theorem ids_dlq (t : Topic) (dlq : DeadLetterQueue) :
    ids { t with dlq := dlq } + ↑t.dlq.ids = t.ids + ↑dlq.ids := by
  change t.ringIds + t.wheelIds + t.pelIds + ↑dlq.ids + ↑t.dlq.ids
    = t.ringIds + t.wheelIds + t.pelIds + ↑t.dlq.ids + ↑dlq.ids
  abel

private theorem ids_deadLetter (hfresh : msg.id ∉ t.ids) (ho : t.IsOpen) (hb : t.InBounds)
    (cause : Bytes) (now : ℤ) :
    (t.deadLetter msg cause now).ids = msg.id ::ₘ t.ids ∧
      (t.deadLetter msg cause now).IsOpen := by
  refine ⟨?_, ho.topic, ho.ring, ho.wheel⟩
  have hnot : msg.id ∉ t.dlq.ids := fun hmem ↦
    hfresh (Multiset.mem_add.mpr (Or.inr hmem))
  have hdlq := t.ids_dlq (t.dlq.add msg cause now)
  rw [DeadLetterQueue.ids_add hnot hb.dlq, ← Multiset.cons_coe, Multiset.add_cons,
    ← Multiset.cons_add] at hdlq
  exact add_right_cancel hdlq

private theorem ids_route (hfresh : msg.id ∉ t.ids) (ho : t.IsOpen) (hb : t.InBounds) (now : ℤ)
    (r : ConsumerGroup.Route) :
    (t.route msg now r).ids = msg.id ::ₘ t.ids ∧ (t.route msg now r).IsOpen := by
  cases r with
  | deadLetter => exact ids_deadLetter hfresh ho hb _ now
  | retry delay => exact ids_schedule ho hb msg delay

theorem ids_dlqRemove {dlq : DeadLetterQueue} (h : t.dlq.remove msgID = some (msg, dlq)) :
    t.ids = msg.id ::ₘ ids { t with dlq := dlq } := by
  obtain ⟨hid, hperm⟩ := DeadLetterQueue.ids_remove_perm h
  have hdlq := t.ids_dlq dlq
  rw [← Multiset.coe_eq_coe.mpr hperm, ← Multiset.cons_coe, Multiset.add_cons,
    ← Multiset.cons_add] at hdlq
  rw [hid]
  exact (add_right_cancel hdlq).symm

theorem ids_dlqPurge (t : Topic) :
    ids { t with dlq := t.dlq.purge.2 } + ↑t.dlq.ids = t.ids := by
  rw [ids_dlq, DeadLetterQueue.ids_purge, Multiset.coe_nil, add_zero]

end Topic

/-! ## The balance of one critical section -/

namespace Task

/-- Identifiers in the hands of an operation. -/
def heldIds (task : Task) : List Bytes := task.held.map Message.id

/-- Identifiers in the hands of an operation that may have ended. -/
def restIds (rest : Option Task) : List Bytes := rest.elim [] heldIds

/-- The operation is a `Close`. -/
def IsClosing : Task → Prop
  | .closeRing | .closeWheel => True
  | _ => False

end Task

theorem Ledger.terminal_consume (L : Ledger) (id : Bytes) :
    ((L.consume id).terminal : Multiset Bytes) = id ::ₘ ↑L.terminal := by
  refine Multiset.coe_eq_coe.mpr ?_
  simp only [terminal, consume, List.append_assoc]
  exact List.perm_middle

theorem Ledger.terminal_ack (L : Ledger) (id : Bytes) :
    ((L.ack id).terminal : Multiset Bytes) = id ::ₘ ↑L.terminal := by
  refine Multiset.coe_eq_coe.mpr ?_
  simp only [terminal, ack, List.append_assoc]
  rw [← List.append_assoc, ← List.append_assoc L.consumed L.acked]
  exact List.perm_middle

theorem Ledger.terminal_remove (L : Ledger) (id : Bytes) :
    ((L.remove id).terminal : Multiset Bytes) = id ::ₘ ↑L.terminal := by
  refine Multiset.coe_eq_coe.mpr ?_
  simp only [terminal, remove, List.append_assoc]
  rw [← List.append_assoc, ← List.append_assoc, ← List.append_assoc L.consumed L.acked,
    ← List.append_assoc (L.consumed ++ L.acked)]
  exact List.perm_middle

theorem Ledger.terminal_purge (L : Ledger) (ids : List Bytes) :
    ((L.purge ids).terminal : Multiset Bytes) = ↑L.terminal + ↑ids := by
  rw [Multiset.coe_add, terminal, terminal, purge, List.append_assoc _ _ ids]

/-- Identifiers a call brings in. -/
def Call.issues : Call → List Bytes
  | .publish msg _ | .publishDelayed msg _ _ => [msg.id]
  | _ => []

/-- What a section other than those of `Close` does to the weights: the topic, the terminal lists
and the operation's own hands together gain `gain` and lose nothing. -/
structure Balanced (t : Topic) (L : Ledger) (held gain : List Bytes) (r : Section) : Prop where
  weight : r.1.ids + ↑r.2.1.terminal + ↑(Task.restIds r.2.2)
    = t.ids + ↑L.terminal + ↑held + ↑gain
  issued : r.2.1.issued = L.issued ++ gain
  isOpen : r.1.IsOpen
  notClosing : ∀ task, r.2.2 = some task → ¬task.IsClosing

section Balance

variable {t t' : Topic} {L L' : Ledger} {r : Section} {rest : Option Task}

/-- A section that only looks, and leaves an operation with empty hands or none. -/
theorem Balanced.idle (ho : t.IsOpen) (hrest : Task.restIds rest = [])
    (hnot : ∀ task, rest = some task → ¬task.IsClosing) : Balanced t L [] [] (t, L, rest) := by
  refine ⟨?_, (List.append_nil _).symm, ho, hnot⟩
  change t.ids + ↑L.terminal + ↑(Task.restIds rest) = t.ids + ↑L.terminal + 0 + 0
  rw [hrest, Multiset.coe_nil, add_zero, add_zero]

theorem Topic.not_closing (ho : t.IsOpen) : t.closing = false := by
  rw [Topic.closing, ho.topic, Bool.false_and]

theorem Topic.start_balanced (ho : t.IsOpen) (hb : t.InBounds) {c : Call} (hc : c ≠ .close)
    (h : t.start L c = some r) : Balanced t L [] c.issues r := by
  have hmu : ¬t.closing = true := by simp [Topic.not_closing ho]
  cases c with
  | publish msg front =>
    rw [Topic.start, if_neg hmu, if_neg (by simp [ho.topic]), Option.some_inj] at h
    subst h
    refine ⟨?_, rfl, ho, by simp [Task.IsClosing]⟩
    change t.ids + ↑L.terminal + {msg.id} = t.ids + ↑L.terminal + 0 + {msg.id}
    rw [add_zero]
  | publishDelayed msg delay now =>
    rw [Topic.start, Option.some_inj] at h
    subst h
    obtain ⟨hids, ho'⟩ := Topic.ids_publishDelayed ho hb msg delay now
    refine ⟨?_, rfl, ho', by simp⟩
    change (t.publishDelayed msg delay now).ids + ↑L.terminal + 0
      = t.ids + ↑L.terminal + 0 + {msg.id}
    rw [hids, ← Multiset.singleton_add]
    abel
  | consume =>
    rw [Topic.start] at h
    cases hcon : t.consume with
    | none =>
      rw [hcon] at h
      simp only [Option.some_inj] at h
      subst h
      exact Balanced.idle ho rfl (by simp)
    | some p =>
      rw [hcon] at h
      simp only [Option.some_inj] at h
      subst h
      obtain ⟨hids, ho'⟩ := Topic.ids_consume hcon ho
      refine ⟨?_, (List.append_nil _).symm, ho', by simp⟩
      change p.2.ids + ↑(L.consume p.1.id).terminal + 0 = t.ids + ↑L.terminal + 0 + 0
      rw [hids, L.terminal_consume, Multiset.add_cons, Multiset.cons_add]
      simp
  | consumeGroup groupName consumerID =>
    rw [Topic.start, if_neg hmu, Option.some_inj] at h
    subst h
    refine ⟨?_, (List.append_nil _).symm, ho.getOrCreateGroup _ _, by simp [Task.IsClosing]⟩
    change (t.getOrCreateGroup groupName _).ids + ↑L.terminal + 0 = t.ids + ↑L.terminal + 0 + 0
    rw [Topic.ids_getOrCreateGroup]
    simp
  | ack groupName msgID =>
    rw [Topic.start, if_neg hmu, Option.some_inj] at h
    subst h
    refine Balanced.idle ho ?_ ?_
    · split <;> rfl
    · split <;> simp [Task.IsClosing]
  | nack groupName msgID reason =>
    rw [Topic.start, if_neg hmu, Option.some_inj] at h
    subst h
    refine Balanced.idle ho ?_ ?_
    · split <;> rfl
    · split <;> simp [Task.IsClosing]
  | sweepConsumerTimeouts order =>
    rw [Topic.start, if_neg hmu] at h
    split at h
    · rw [Option.some_inj] at h
      subst h
      exact Balanced.idle ho rfl (by simp [Task.IsClosing])
    · exact absurd h (by simp)
  | advance =>
    rw [Topic.start, Option.some_inj] at h
    subst h
    obtain ⟨hids, ho'⟩ := Topic.ids_advance ho
    refine ⟨?_, (List.append_nil _).symm, ho', by simp [Task.IsClosing]⟩
    change Topic.ids { t with tw := t.tw.advance.2 } + ↑L.terminal
      + ↑(t.tw.advance.1.map Message.id) = t.ids + ↑L.terminal + 0 + 0
    rw [← hids]
    abel
  | replayDeadLetter msgID now =>
    rw [Topic.start] at h
    cases hrem : t.dlq.remove msgID with
    | none =>
      rw [hrem] at h
      simp only [Option.some_inj] at h
      subst h
      exact Balanced.idle ho rfl (by simp)
    | some p =>
      rw [hrem] at h
      simp only [Option.some_inj] at h
      subst h
      have hids := Topic.ids_dlqRemove hrem
      refine ⟨?_, (List.append_nil _).symm, ⟨ho.topic, ho.ring, ho.wheel⟩,
        by simp [Task.IsClosing]⟩
      change Topic.ids { t with dlq := p.2 } + ↑L.terminal + {p.1.id}
        = t.ids + ↑L.terminal + 0 + 0
      rw [hids, ← Multiset.singleton_add]
      abel
  | dlqRemove msgID =>
    rw [Topic.start] at h
    cases hrem : t.dlq.remove msgID with
    | none =>
      rw [hrem] at h
      simp only [Option.some_inj] at h
      subst h
      exact Balanced.idle ho rfl (by simp)
    | some p =>
      rw [hrem] at h
      simp only [Option.some_inj] at h
      subst h
      have hids := Topic.ids_dlqRemove hrem
      refine ⟨?_, (List.append_nil _).symm, ⟨ho.topic, ho.ring, ho.wheel⟩, by simp⟩
      change Topic.ids { t with dlq := p.2 } + ↑(L.remove p.1.id).terminal + 0
        = t.ids + ↑L.terminal + 0 + 0
      rw [hids, L.terminal_remove, Multiset.add_cons, Multiset.cons_add]
      simp
  | dlqPurge =>
    rw [Topic.start, Option.some_inj] at h
    subst h
    refine ⟨?_, (List.append_nil _).symm, ⟨ho.topic, ho.ring, ho.wheel⟩, by simp⟩
    change Topic.ids { t with dlq := t.dlq.purge.2 } + ↑(L.purge t.dlq.ids).terminal + 0
      = t.ids + ↑L.terminal + 0 + 0
    rw [L.terminal_purge, ← t.ids_dlqPurge]
    abel
  | close => exact absurd rfl hc

/-- A section that puts the message in its hands somewhere in the topic. -/
theorem Balanced.release {id : Bytes} {restIds : List Bytes} (hids : t'.ids = id ::ₘ t.ids)
    (ho : t'.IsOpen) (hrest : Task.restIds rest = restIds)
    (hnot : ∀ task, rest = some task → ¬task.IsClosing) :
    Balanced t L (id :: restIds) [] (t', L, rest) := by
  refine ⟨?_, (List.append_nil _).symm, ho, hnot⟩
  change t'.ids + ↑L.terminal + ↑(Task.restIds rest) = t.ids + ↑L.terminal + ↑(id :: restIds) + 0
  rw [hids, hrest, ← Multiset.cons_coe, ← Multiset.singleton_add, ← Multiset.singleton_add]
  abel

theorem Balanced.take {ids : List Bytes} (hids : ↑ids + t'.ids = t.ids) (ho : t'.IsOpen)
    (hrest : Task.restIds rest = ids) (hnot : ∀ task, rest = some task → ¬task.IsClosing) :
    Balanced t L [] [] (t', L, rest) := by
  refine ⟨?_, (List.append_nil _).symm, ho, hnot⟩
  change t'.ids + ↑L.terminal + ↑(Task.restIds rest) = t.ids + ↑L.terminal + 0 + 0
  rw [← hids, hrest]
  abel

theorem Task.resume_balanced (ho : t.IsOpen) (hb : t.InBounds) {task : Task}
    (hnot : ¬task.IsClosing) (hfresh : ∀ id ∈ task.heldIds, id ∉ t.ids) {now : ℤ}
    {order : List Message} (h : task.resume t L now order = some r) :
    Balanced t L task.heldIds [] r := by
  cases task with
  | publish msg front =>
    rw [Task.resume, Option.some_inj] at h
    subst h
    obtain ⟨hids, ho'⟩ := Topic.ids_push ho hb msg front
    exact Balanced.release hids ho' rfl (by simp)
  | popWait groupName consumerID =>
    rw [Task.resume, Option.map_eq_some_iff] at h
    obtain ⟨⟨msg, t'⟩, hpop, rfl⟩ := h
    obtain ⟨hids, ho'⟩ := Topic.ids_pop hpop ho
    exact Balanced.take (hids ▸ Multiset.singleton_add _ _) ho' rfl (by simp [Task.IsClosing])
  | checkout groupName consumerID msg =>
    rw [Task.resume, Option.map_eq_some_iff] at h
    obtain ⟨t', hco, rfl⟩ := h
    -- the message is in the hands of this very operation, so its key is not in the pending list
    obtain ⟨hids, ho'⟩ := Topic.ids_checkout (hfresh _ (List.mem_singleton.mpr rfl)) hco ho
    exact Balanced.release hids ho' rfl (by simp)
  | ack groupName msgID =>
    rw [Task.resume, Option.map_eq_some_iff] at h
    obtain ⟨⟨ok, t'⟩, hack, rfl⟩ := h
    obtain ⟨hids, ho'⟩ := Topic.ids_ack hack ho
    cases ok with
    | false =>
      rw [if_neg (by simp), zero_add] at hids
      have hids' : ↑([] : List Bytes) + t'.ids = t.ids := by
        rw [hids]
        exact zero_add _
      exact Balanced.take hids' ho' rfl (by simp)
    | true =>
      refine ⟨?_, (List.append_nil _).symm, ho', by simp⟩
      change t'.ids + ↑(L.ack msgID).terminal + 0 = t.ids + ↑L.terminal + 0 + 0
      rw [hids, L.terminal_ack, if_pos rfl, ← Multiset.singleton_add]
      abel
  | nack groupName msgID reason =>
    rw [Task.resume, Option.map_eq_some_iff] at h
    obtain ⟨cg, hcg, h⟩ := h
    rw [ConsumerGroup.nackTake] at h
    cases hp : cg.pel.lookup msgID with
    | none =>
      rw [hp] at h
      subst h
      exact Balanced.idle ho rfl (by simp)
    | some p =>
      rw [hp] at h
      subst h
      exact Balanced.take (Topic.ids_delete hcg hp ▸ Multiset.singleton_add _ _)
        (ho.setGroup _ _) rfl (by simp [Task.IsClosing])
  | fail msg reason =>
    rw [Task.resume, Option.map_eq_some_iff] at h
    obtain ⟨route, -, rfl⟩ := h
    have hid : (ConsumerGroup.fail msg reason).id ∉ t.ids :=
      hfresh _ (List.mem_singleton.mpr rfl)
    obtain ⟨hids, ho'⟩ := Topic.ids_route hid ho hb now route
    exact Balanced.release (t := t) hids ⟨ho'.topic, ho'.ring, ho'.wheel⟩ rfl (by simp)
  | sweep groups timedOut =>
    cases timedOut with
    | nil =>
      cases groups with
      | nil =>
        rw [Task.resume, Option.some_inj] at h
        subst h
        exact Balanced.idle ho rfl (by simp)
      | cons groupName groups =>
        rw [Task.resume, Option.map_eq_some_iff] at h
        obtain ⟨t', hsweep, rfl⟩ := h
        obtain ⟨hids, ho'⟩ := Topic.ids_sweepGroup hsweep ho
        exact Balanced.take hids ho' rfl (by simp [Task.IsClosing])
    | cons msg timedOut =>
      rw [Task.resume, Option.some_inj] at h
      subst h
      have hid : (ConsumerGroup.fail msg ConsumerGroup.timeoutCause).id ∉ t.ids :=
        hfresh _ List.mem_cons_self
      obtain ⟨hids, ho'⟩ := Topic.ids_route hid ho hb now
        (ConsumerGroup.sweepRoute (ConsumerGroup.fail msg ConsumerGroup.timeoutCause))
      exact Balanced.release hids ho' rfl (by simp [Task.IsClosing])
  | expire msgs =>
    cases msgs with
    | nil =>
      rw [Task.resume, Option.some_inj] at h
      subst h
      exact Balanced.idle ho rfl (by simp)
    | cons msg msgs =>
      rw [Task.resume, Option.some_inj] at h
      subst h
      obtain ⟨hids, ho'⟩ := Topic.ids_onExpire ho hb msg
      exact Balanced.release hids ho' rfl (by simp [Task.IsClosing])
  | replay msg =>
    rw [Task.resume, Option.some_inj] at h
    subst h
    obtain ⟨hids, ho'⟩ := Topic.ids_onExpire ho hb msg
    exact Balanced.release hids ho' rfl (by simp)
  | closeRing => exact absurd trivial hnot
  | closeWheel => exact absurd trivial hnot

end Balance

/-! ## The invariant -/

namespace TopicState

/-- Identifiers in the hands of all operations in progress. -/
def handIds (tasks : List Task) : Multiset Bytes := ↑(tasks.flatMap Task.heldIds)

theorem handIds_append (tasks : List Task) (rest : Option Task) :
    handIds (tasks ++ rest.toList) = handIds tasks + ↑(Task.restIds rest) := by
  rw [handIds, handIds, List.flatMap_append, ← Multiset.coe_add]
  cases rest with
  | none => rfl
  | some task => rw [Option.toList_some, List.flatMap_singleton]; rfl

theorem handIds_replaceTask {tasks : List Task} {i : ℕ} {task : Task}
    (h : tasks[i]? = some task) (rest : Option Task) :
    ↑task.heldIds + handIds (replaceTask tasks i rest)
      = ↑(Task.restIds rest) + handIds tasks := by
  obtain ⟨hi, hget⟩ := List.getElem?_eq_some_iff.mp h
  have hi' : i < (tasks.map Task.heldIds).length := by rwa [List.length_map]
  have hget' : (tasks.map Task.heldIds)[i] = task.heldIds := by rw [List.getElem_map, hget]
  rw [handIds, handIds, Multiset.coe_add, Multiset.coe_add]
  refine Multiset.coe_eq_coe.mpr ?_
  rw [← hget', List.flatMap_def, List.flatMap_def]
  cases rest with
  | none =>
    rw [replaceTask, ← List.eraseIdx_map]
    exact flatten_eraseIdx_perm hi'
  | some next =>
    rw [replaceTask, List.map_set]
    exact flatten_set_perm hi' _

/-- The invariant of an open topic. -/
structure Conserved (s : TopicState) : Prop where
  balance : s.topic.ids + ↑s.ledger.terminal + handIds s.tasks = ↑s.ledger.issued
  isOpen : s.topic.IsOpen
  notClosing : ∀ task ∈ s.tasks, ¬task.IsClosing

theorem conserved_init {t : Topic} {name : Bytes} {capacity : UInt64}
    (h : Topic.newTopic name capacity = some t) : (init t).Conserved := by
  obtain ⟨hids, ho⟩ := Topic.ids_newTopic h
  refine ⟨?_, ho, by simp [init]⟩
  change t.ids + 0 + 0 = 0
  rw [hids]
  rfl

theorem Conserved.notMem_of_held {s : TopicState} (hs : s.Conserved)
    (hnd : s.ledger.issued.Nodup) {task : Task} (ht : task ∈ s.tasks) :
    ∀ id ∈ task.heldIds, id ∉ s.topic.ids := by
  intro id hid htopic
  have hnodup : (s.topic.ids + ↑s.ledger.terminal + handIds s.tasks).Nodup := by
    rw [hs.balance]
    exact Multiset.coe_nodup.mpr hnd
  have hhand : id ∈ handIds s.tasks :=
    Multiset.mem_coe.mpr (List.mem_flatMap.mpr ⟨task, ht, hid⟩)
  have hleft : id ∈ s.topic.ids + ↑s.ledger.terminal := Multiset.mem_add.mpr (Or.inl htopic)
  exact (Multiset.disjoint_left.mp (Multiset.nodup_add.mp hnodup).2.2 hleft) hhand

theorem Conserved.step {s s' : TopicState} {l : TopicLabel} (hs : s.Conserved)
    (hnd : s.ledger.issued.Nodup) (hb : s.topic.InBounds) (hl : ¬l.IsClose)
    (h : s.step l = some s') :
    s'.Conserved ∧ s'.ledger.issued = s.ledger.issued ++ l.issues := by
  cases l with
  | call c =>
    rw [TopicState.step, Option.map_eq_some_iff] at h
    obtain ⟨r, hr, rfl⟩ := h
    have hc : c ≠ .close := by rintro rfl; exact hl trivial
    have hbal := Topic.start_balanced hs.isOpen hb hc hr
    have hissues : c.issues = (TopicLabel.call c).issues := by cases c <;> rfl
    refine ⟨⟨?_, hbal.isOpen, ?_⟩, hissues ▸ hbal.issued⟩
    · change r.1.ids + ↑r.2.1.terminal + handIds (s.tasks ++ r.2.2.toList) = ↑r.2.1.issued
      calc r.1.ids + ↑r.2.1.terminal + handIds (s.tasks ++ r.2.2.toList)
          = (r.1.ids + ↑r.2.1.terminal + ↑(Task.restIds r.2.2)) + handIds s.tasks := by
            rw [handIds_append]
            abel
        _ = (s.topic.ids + ↑s.ledger.terminal + handIds s.tasks) + ↑c.issues := by
            rw [hbal.weight, Multiset.coe_nil]
            abel
        _ = ↑r.2.1.issued := by rw [hs.balance, hbal.issued, Multiset.coe_add]
    · intro task htask
      rcases List.mem_append.mp htask with hold | hnew
      · exact hs.notClosing task hold
      · exact hbal.notClosing task (Option.mem_toList.mp hnew)
  | resume i now order =>
    rw [TopicState.step, Option.bind_eq_some_iff] at h
    obtain ⟨task, htask, h⟩ := h
    rw [Option.map_eq_some_iff] at h
    obtain ⟨r, hr, rfl⟩ := h
    have hmem : task ∈ s.tasks := List.mem_of_getElem? htask
    have hbal := Task.resume_balanced hs.isOpen hb (hs.notClosing task hmem)
      (hs.notMem_of_held hnd hmem) hr
    refine ⟨⟨?_, hbal.isOpen, ?_⟩, hbal.issued⟩
    · change r.1.ids + ↑r.2.1.terminal + handIds (replaceTask s.tasks i r.2.2) = ↑r.2.1.issued
      have hhand := handIds_replaceTask htask r.2.2
      have hsum : (↑task.heldIds : Multiset Bytes)
          + (r.1.ids + ↑r.2.1.terminal + handIds (replaceTask s.tasks i r.2.2))
          = ↑task.heldIds + ↑r.2.1.issued := by
        calc (↑task.heldIds : Multiset Bytes)
              + (r.1.ids + ↑r.2.1.terminal + handIds (replaceTask s.tasks i r.2.2))
            = (r.1.ids + ↑r.2.1.terminal)
              + (↑task.heldIds + handIds (replaceTask s.tasks i r.2.2)) := by abel
          _ = (r.1.ids + ↑r.2.1.terminal + ↑(Task.restIds r.2.2)) + handIds s.tasks := by
            rw [hhand]
            abel
          _ = ↑task.heldIds + (s.topic.ids + ↑s.ledger.terminal + handIds s.tasks) := by
            rw [hbal.weight, Multiset.coe_nil]
            abel
          _ = ↑task.heldIds + ↑r.2.1.issued := by
            rw [hs.balance, hbal.issued, List.append_nil]
      exact add_left_cancel hsum
    · intro next hnext
      cases hrest : r.2.2 with
      | none =>
        simp only [hrest, replaceTask] at hnext
        exact hs.notClosing next (List.mem_of_mem_eraseIdx hnext)
      | some k =>
        simp only [hrest, replaceTask] at hnext
        rcases List.mem_or_eq_of_mem_set hnext with hold | rfl
        · exact hs.notClosing next hold
        · exact hbal.notClosing next hrest
  | giveUp i =>
    rw [TopicState.step, Option.bind_eq_some_iff] at h
    obtain ⟨task, htask, h⟩ := h
    split at h
    · rw [Option.some_inj] at h
      subst h
      have hhand := handIds_replaceTask htask none
      refine ⟨⟨?_, hs.isOpen, ?_⟩, (List.append_nil _).symm⟩
      · have hhand' : handIds (s.tasks.eraseIdx i) = handIds s.tasks := by
          simpa [Task.heldIds, Task.held, Task.restIds, replaceTask] using hhand
        change s.topic.ids + ↑s.ledger.terminal + handIds (s.tasks.eraseIdx i) = _
        rw [hhand']
        exact hs.balance
      · exact fun task ht ↦ hs.notClosing task (List.mem_of_mem_eraseIdx ht)
    · exact absurd h (by simp)

end TopicState

end VortexMQ
