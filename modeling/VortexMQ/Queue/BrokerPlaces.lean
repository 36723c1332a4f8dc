import VortexMQ.Queue.TopicViews

/-!
# At most one place in the broker

What the broker holds of a topic is on its way to the topic, in the ring, in the wheel, pending
under a group, a dead letter, or in the hands of an operation in progress. Since every topic of the
broker is a topic on its own (`VortexMQ.Queue.TopicViews`), and on its own it has nothing in two
places (`VortexMQ.Queue.Uniqueness`), the whole broker has nothing in two places: within a topic by
the account of that topic, and across topics because no operation moves a message from one topic to
another.
-/

namespace VortexMQ

namespace TopicState

variable {s s' : TopicState} {ok : TopicState → Prop}

private theorem weight_react {e : TopicEvent} (h : s.react e = some s') :
    s'.weight ≤ s.weight + ↑e.issues := by
  cases e with
  | op l => exact weight_step h
  | createGroup groupName timeout =>
    rw [react, Option.ite_none_left_eq_some, Option.some_inj] at h
    obtain ⟨-, rfl⟩ := h
    have hids := s.topic.ids_getOrCreateGroup groupName timeout
    exact (congrArg (· + handIds s.tasks) hids).le.trans (Multiset.le_add_right _ _)

private theorem weight_events {events : List TopicEvent} (h : Run react ok s events s') :
    s'.weight ≤ s.weight + ↑(events.flatMap TopicEvent.issues) := by
  refine Run.history (I := fun es u ↦ u.weight ≤ s.weight + ↑(es.flatMap TopicEvent.issues))
    (fun es u e v _ _ hreact hI ↦ ?_) h (Multiset.le_add_right _ _)
  rw [List.flatMap_append, List.flatMap_singleton, ← Multiset.coe_add, ← add_assoc]
  exact (weight_react hreact).trans (add_le_add_left hI _)

private theorem weight_default (name : Bytes) : (init (Topic.default name)).weight = 0 :=
  weight_init (Option.some_get _).symm

end TopicState

namespace BrokerState

/-- Every identifier that the broker has for a topic, as often as it is there: in the topic, in the
hands of an operation, or on its way. -/
def idsOf (s : BrokerState) (name : Bytes) : Multiset Bytes :=
  (s.broker.view name).ids + (s.tasksOf name).bind (fun task ↦ ↑task.heldIds) + s.unissued name

theorem Label.issues_eq (name : Bytes) (l : Label) :
    l.issues name = (l.messages.filter fun m ↦ m.topic = name).map Message.id := by
  have hone : ∀ m : Message, ([m].filter fun m ↦ m.topic = name).map Message.id
      = if m.topic = name then [m.id] else [] := by
    intro m
    rw [List.filter_singleton]
    by_cases h : m.topic = name <;> simp [h]
  cases l with
  | publish topicName payload st front => exact (hone (st.message topicName payload)).symm
  | publishDelayed topicName payload delay st now =>
    exact (hone (st.message topicName payload)).symm
  | publishBatch topicName payloads =>
    rw [issues, messages]
    have htopic : ∀ m ∈ Broker.batchMessages topicName payloads, m.topic = topicName := by
      intro m hm
      obtain ⟨p, -, rfl⟩ := List.mem_map.mp hm
      rfl
    split
    · rename_i hname
      rw [List.filter_eq_self.mpr fun m hm ↦ decide_eq_true ((htopic m hm).trans hname)]
    · rename_i hname
      have hnone : (Broker.batchMessages topicName payloads).filter (fun m ↦ m.topic = name) = [] :=
        List.filter_eq_nil_iff.mpr fun m hm ↦ by simpa [htopic m hm] using hname
      rw [hnone, List.map_nil]
  | _ => rfl

variable {c : Codec} {start : Start} {now : ℤ} {labels : List Label} {s : BrokerState}

/-- The broker has, of each topic, at most what was recovered or made for it. -/
theorem idsOf_le (name : Bytes)
    (hrun : Run (fun s ↦ step c s) (fun _ ↦ True) (idle (start.broker c now)) labels s) :
    s.idsOf name ≤ ↑(((start.messages c ++ labels.flatMap Label.messages).filter
      fun m ↦ m.topic = name).map Message.id) := by
  have hprefixes : ∀ ms, ms <+: start.messages c → True := fun _ _ ↦ trivial
  have hstart := (views_start start now name).foldl_recover (P := fun _ ↦ True) hprefixes
  rw [← Start.broker_eq] at hstart
  obtain ⟨events, u, hevents, hviews, hle⟩ := hstart.trans fun hviews ↦ hviews.run hrun
  have hidle : (idle (start.empty now)).unissued name = 0 := rfl
  have hids : labels.flatMap (Label.issues name)
      = ((labels.flatMap Label.messages).filter fun m ↦ m.topic = name).map Message.id := by
    rw [List.filter_flatMap, List.map_flatMap]
    exact List.flatMap_congr fun l _ ↦ l.issues_eq name
  rw [hidle, zero_add, hids, ← List.map_append, ← List.filter_append] at hle
  have hweight : (s.broker.view name).ids + (s.tasksOf name).bind (fun task ↦ ↑task.heldIds)
      = u.weight := by
    rw [← hviews.topic, ← hviews.tasks, Multiset.coe_bind]
    rfl
  have hevents' := TopicState.weight_events hevents
  rw [TopicState.weight_default, zero_add] at hevents'
  rw [idsOf, hweight]
  exact (add_le_add_left hevents' _).trans hle

/-- **At most one place.** Take any interleaving of the operations of a broker from the start of the
process on, with messages recovered from the log, full rings, dead letters evicted, and `Close` in
the middle of it all, and let the messages that were recovered and made have distinct identifiers.
Then no identifier is in two places: not twice in one topic, or in a topic and in the hands of an
operation on it, or in the hands of two operations; and not in two topics. -/
theorem at_most_one_place
    (hrun : Run (fun s ↦ step c s) (fun _ ↦ True) (idle (start.broker c now)) labels s)
    (hdistinct : ((start.messages c ++ labels.flatMap Label.messages).map Message.id).Nodup) :
    (∀ name, (s.idsOf name).Nodup) ∧
      ∀ name name', name ≠ name' → Disjoint (s.idsOf name) (s.idsOf name') := by
  refine ⟨fun name ↦ ?_, fun name name' hne ↦ Multiset.disjoint_left.mpr fun hid hid' ↦ ?_⟩
  · exact Multiset.nodup_of_le (idsOf_le name hrun)
      (Multiset.coe_nodup.mpr (hdistinct.sublist (List.filter_sublist.map _)))
  · -- two messages of one identifier are one message, and it has one topic
    obtain ⟨m, hm, hmid⟩ := List.mem_map.mp (Multiset.mem_coe.mp
      (Multiset.mem_of_le (idsOf_le name hrun) hid))
    obtain ⟨m', hm', hmid'⟩ := List.mem_map.mp (Multiset.mem_coe.mp
      (Multiset.mem_of_le (idsOf_le name' hrun) hid'))
    obtain ⟨hmem, htopic⟩ := List.mem_filter.mp hm
    obtain ⟨hmem', htopic'⟩ := List.mem_filter.mp hm'
    obtain rfl := List.inj_on_of_nodup_map hdistinct hmem hmem' (hmid.trans hmid'.symm)
    exact hne ((of_decide_eq_true htopic).symm.trans (of_decide_eq_true htopic'))

/-- A published message is in the hands of one consumer, another one has made its call, and `Close`
has begun. -/
theorem at_most_one_place_closing :
    ∃ s, Run (fun s ↦ step MessageJson.codec s) (fun _ ↦ True)
        (idle ((Start.withLog ∅ .always).broker MessageJson.codec 0))
        [.publish (bytesOf "orders") (some (bytesOf "job")) BrokerHistory.jobStamp false,
          .resume 0 0 [], .resume 0 0 [], .resume 0 0 [],
          .consumeGroup (bytesOf "orders") (bytesOf "g") (bytesOf "c"), .resume 1 0 [],
          .resume 1 0 [], .consumeGroup (bytesOf "orders") (bytesOf "g") (bytesOf "d"),
          .close [bytesOf "orders"], .resume 3 0 []] s ∧
      s.idsOf (bytesOf "orders") = {(BrokerHistory.jobStamp.message (bytesOf "orders")
        (some (bytesOf "job"))).id} ∧
      (∀ name, (s.idsOf name).Nodup) ∧
      ∀ name name', name ≠ name' → Disjoint (s.idsOf name) (s.idsOf name') := by
  have hsome : (Run.exec (fun s ↦ step MessageJson.codec s) (fun _ ↦ True)
      (idle ((Start.withLog ∅ .always).broker MessageJson.codec 0))
      [.publish (bytesOf "orders") (some (bytesOf "job")) BrokerHistory.jobStamp false,
        .resume 0 0 [], .resume 0 0 [], .resume 0 0 [],
        .consumeGroup (bytesOf "orders") (bytesOf "g") (bytesOf "c"), .resume 1 0 [],
        .resume 1 0 [], .consumeGroup (bytesOf "orders") (bytesOf "g") (bytesOf "d"),
        .close [bytesOf "orders"], .resume 3 0 []]).isSome := by
    decide +kernel
  have hrun := Run.of_exec (Option.some_get hsome).symm
  have hids := hrun.of_exec_map (f := fun s ↦ s.idsOf (bytesOf "orders"))
    (a := {(BrokerHistory.jobStamp.message (bytesOf "orders") (some (bytesOf "job"))).id})
    (by decide +kernel)
  exact ⟨_, hrun, hids, at_most_one_place hrun (by decide +kernel)⟩

end BrokerState

end VortexMQ
