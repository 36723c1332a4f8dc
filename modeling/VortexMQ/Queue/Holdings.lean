import VortexMQ.Queue.BrokerLog
import VortexMQ.Queue.Lives
import VortexMQ.Queue.Topicwise

/-!
# What a broker holds

The payloads in a broker: those of the messages in its topics, wherever in a topic they are, and
those in the Go channels of the subscribers. The operations move them and lose them, but they make
none; a new payload comes from outside.
-/

namespace VortexMQ

/-- What holds a payload: the message with an identifier, or a channel. -/
inductive Holder where
  | message (id : Bytes)
  | channel (name : Bytes)
  deriving DecidableEq

def Holder.isMessage : Holder → Bool
  | .message _ => true
  | .channel _ => false

/-- A payload, by what holds it. -/
abbrev HeldPayload := Holder × Option Bytes

def Message.holding (m : Message) : HeldPayload := (.message m.id, m.payload)

/-- Everything that the broker holds. -/
def Broker.holdings (b : Broker) : List HeldPayload :=
  b.topics.entries.flatMap (fun e ↦ e.2.messages.map Message.holding) ++
    b.channels.entries.flatMap fun e ↦
      e.2.flatMap fun sub ↦ sub.queue.map fun payload ↦ (.channel e.1, payload)

/-! ## Topics -/

namespace Topic

variable {S : HeldPayload → Prop} {t t' : Topic} {msg : Message} {q : Spot}

theorem mem_messages_iff {m : Message} : m ∈ t.messages ↔ ∃ p, t.HoldsAt p m := by
  constructor
  · intro h
    rw [messages, List.mem_append, List.mem_append, List.mem_append] at h
    rcases h with ((h | h) | h) | h
    · exact ⟨.ring, h⟩
    · exact ⟨.wheel, h⟩
    · obtain ⟨e, he, hm⟩ := List.mem_flatMap.mp h
      exact ⟨.pel e.1, e.2, AList.mem_lookup_iff.mpr he, hm⟩
    · exact ⟨.dlq, h⟩
  · rintro ⟨p, h⟩
    cases p with
    | ring => exact mem_messages_of_ring h
    | wheel => exact mem_messages_of_wheel h
    | pel groupName =>
      obtain ⟨cg, hcg, hm⟩ := h
      refine List.mem_append_left _ (List.mem_append_right _ ?_)
      exact List.mem_flatMap.mpr ⟨⟨groupName, cg⟩, AList.mem_lookup_iff.mp hcg, hm⟩
    | dlq => exact mem_messages_of_dlq h
    | hands task => exact h.elim

/-- Everything in the topic is in `S`. -/
def Carries (S : HeldPayload → Prop) (t : Topic) : Prop := ∀ p m, t.HoldsAt p m → S m.holding

theorem Carries.of_addsAt (h : t.Carries S) (hadds : t.AddsAt t' q msg) (hmsg : S msg.holding) :
    t'.Carries S := by
  intro p m hm
  rcases hadds p m hm with hm | ⟨-, rfl⟩
  · exact h p m hm
  · exact hmsg

theorem Carries.of_addsNothing (h : t.Carries S) (hadds : t.AddsNothing t') : t'.Carries S :=
  fun p m hm ↦ h p m (hadds p m hm)

theorem Carries.of_eq (h : t.Carries S) (hring : t'.ring = t.ring) (hwheel : t'.tw = t.tw)
    (hgroups : t'.groups = t.groups) (hdlq : t'.dlq = t.dlq) : t'.Carries S := by
  refine h.of_addsNothing (addsNothing_of ?_ ?_ hgroups ?_)
  · exact fun m hm ↦ hring ▸ hm
  · exact fun m hm ↦ hwheel ▸ hm
  · intro m hm
    rw [dlqMessages, hdlq] at hm
    exact hm

theorem carries_default (name : Bytes) : (Topic.default name).Carries S := by
  obtain ⟨-, hitems⟩ := Topic.ring_default name
  have h : newTopic name 131072 = some (Topic.default name) := (Option.some_get _).symm
  obtain ⟨ring, -, heq⟩ := Option.map_eq_some_iff.mp h
  intro p m hm
  cases p with
  | ring =>
    rw [HoldsAt, hitems] at hm
    exact absurd hm List.not_mem_nil
  | wheel =>
    rw [← heq, HoldsAt, TimingWheel.messages_newTimingWheel] at hm
    exact absurd hm List.not_mem_nil
  | pel groupName =>
    rw [← heq] at hm
    obtain ⟨cg, hcg, -⟩ := hm
    exact absurd hcg (by simp)
  | dlq =>
    rw [← heq] at hm
    exact absurd hm List.not_mem_nil
  | hands task => exact hm.elim

theorem Carries.popWait (h : t.Carries S) {timeout : ℤ} {r : Option Message × Topic}
    (hr : t.popWait timeout = some r) : (∀ m, r.1 = some m → S m.holding) ∧ r.2.Carries S := by
  rw [Topic.popWait] at hr
  split at hr
  · rename_i m t' hpop
    rw [← Option.some_inj.mp hr]
    refine ⟨fun m' hm' ↦ ?_, h.of_addsNothing (addsNothing_pop hpop)⟩
    exact Option.some_inj.mp hm' ▸ h .ring m (mem_items_of_pop hpop)
  · rw [Option.ite_none_right_eq_some] at hr
    rw [← Option.some_inj.mp hr.2]
    exact ⟨fun m hm ↦ absurd hm (Option.some_ne_none m).symm, h⟩

theorem Carries.runConsumeGroup (h : t.Carries S) {groupName consumerID : Bytes} {timeout now : ℤ}
    {r : Option Message × Topic}
    (hr : t.runConsumeGroup groupName consumerID timeout now = some r) : r.2.Carries S := by
  obtain ⟨⟨m, t₁⟩, hpop, hr⟩ := Option.bind_eq_some_iff.mp hr
  obtain ⟨hm, ht₁⟩ := (h.of_addsNothing (t.addsNothing_getOrCreateGroup groupName _)).popWait hpop
  cases m with
  | none =>
    rw [← Option.some_inj.mp hr]
    exact ht₁
  | some m =>
    obtain ⟨cg, -, hr⟩ := Option.bind_eq_some_iff.mp hr
    obtain ⟨t₂, ht₂, rfl⟩ := Option.map_eq_some_iff.mp hr
    obtain ⟨cg', -, hadds⟩ := addsAt_checkout ht₂
    exact ht₁.of_addsAt hadds (hm m rfl)

theorem Carries.runNack (h : t.Carries S) {groupName msgID reason : Bytes} {now : ℤ}
    {r : Bool × Topic} (hr : t.runNack groupName msgID reason now = some r) : r.2.Carries S := by
  rw [Topic.runNack] at hr
  split at hr
  · rw [← Option.some_inj.mp hr]
    exact h
  · rename_i m cg' htake
    obtain ⟨cg, hcg, htake⟩ := Option.bind_eq_some_iff.mp htake
    have hm : S m.holding := h (.pel groupName) m ⟨cg, hcg, ConsumerGroup.mem_of_nackTake htake⟩
    obtain ⟨pending, -, heq⟩ := Option.map_eq_some_iff.mp htake
    obtain ⟨-, rfl⟩ := Prod.mk.inj heq
    obtain ⟨route, -, rfl⟩ := Option.map_eq_some_iff.mp hr
    have hsub : (cg.delete msgID).pel.entries ⊆ cg.pel.entries := (List.kerase_sublist _ _).subset
    have hset := h.of_addsNothing (addsNothing_setGroup hcg hsub)
    refine (hset.of_addsAt (addsAt_route _ _ now route) ?_).of_eq rfl rfl rfl rfl
    exact hm

theorem Carries.runReplayDeadLetter (h : t.Carries S) (msgID : Bytes) (now : ℤ) :
    (t.runReplayDeadLetter msgID now).2.Carries S := by
  rw [Topic.runReplayDeadLetter]
  split
  · rename_i m dlq hremove
    have hm : S m.holding := h .dlq m (mem_dlqMessages_of_remove hremove)
    exact (h.of_addsNothing (addsNothing_remove hremove)).of_addsAt (addsAt_onExpire _ _) hm
  · exact h

theorem kept_carries : Kept (Carries S) fun m ↦ S m.holding where
  default := carries_default
  getOrCreateGroup h groupName timeout :=
    h.of_addsNothing (addsNothing_getOrCreateGroup _ groupName timeout)
  runPublish {t msg} h hmsg front := by
    rw [Topic.runPublish]
    split
    · exact h
    · exact h.of_addsAt (t.addsAt_push msg front) hmsg
  publishDelayed {t msg} h hmsg delay now :=
    (h.of_eq rfl rfl rfl rfl).of_addsAt (addsAt_schedule (t.countPublished msg) _ delay) hmsg
  runConsumeWait h hr := by
    obtain ⟨⟨m, t₁⟩, hpop, rfl⟩ := Option.map_eq_some_iff.mp hr
    have ht₁ := (h.popWait hpop).2
    cases m with
    | none => exact ht₁
    | some m => exact ht₁.of_eq rfl rfl rfl rfl
  runConsumeGroup h hr := h.runConsumeGroup hr
  runAck {t} h groupName msgID := by
    rw [Topic.runAck]
    cases hack : t.ack groupName msgID with
    | none => exact h
    | some r => exact h.of_addsNothing (addsNothing_ack hack)
  runNack h hr := h.runNack hr
  runReplayDeadLetter h msgID now := h.runReplayDeadLetter msgID now

end Topic

/-! ## Channels -/

/-- Everything in the channel is in `S`. -/
def Subscriber.Carry (S : HeldPayload → Prop) (channel : Bytes) (subs : List Subscriber) : Prop :=
  ∀ sub ∈ subs, ∀ payload ∈ Subscriber.queue sub, S (.channel channel, payload)

namespace Broker

variable {S : HeldPayload → Prop} {b : Broker}

theorem forall_holdings_iff :
    (∀ x ∈ b.holdings, S x) ↔ b.Every (Topic.Carries S) (Subscriber.Carry S) := by
  constructor
  · intro h
    constructor
    · intro name t ht p m hm
      refine h _ (List.mem_append_left _ (List.mem_flatMap.mpr ⟨⟨name, t⟩, ?_, ?_⟩))
      · exact AList.mem_lookup_iff.mp ht
      · exact List.mem_map_of_mem (Topic.mem_messages_iff.mpr ⟨p, hm⟩)
    · intro name subs hsubs sub hsub payload hpayload
      refine h _ (List.mem_append_right _ (List.mem_flatMap.mpr ⟨⟨name, subs⟩, ?_, ?_⟩))
      · exact AList.mem_lookup_iff.mp hsubs
      · exact List.mem_flatMap.mpr ⟨sub, hsub, List.mem_map_of_mem hpayload⟩
  · intro h x hx
    rcases List.mem_append.mp hx with hx | hx
    · obtain ⟨e, he, hx⟩ := List.mem_flatMap.mp hx
      obtain ⟨m, hm, rfl⟩ := List.mem_map.mp hx
      obtain ⟨p, hp⟩ := Topic.mem_messages_iff.mp hm
      exact h.topics e.1 e.2 (AList.mem_lookup_iff.mpr he) p m hp
    · obtain ⟨e, he, hx⟩ := List.mem_flatMap.mp hx
      obtain ⟨sub, hsub, hx⟩ := List.mem_flatMap.mp hx
      obtain ⟨payload, hpayload, rfl⟩ := List.mem_map.mp hx
      exact h.channels e.1 e.2 (AList.mem_lookup_iff.mpr he) sub hsub payload hpayload

end Broker

end VortexMQ
