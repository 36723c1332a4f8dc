import VortexMQ.Network.Server
import VortexMQ.Queue.Topicwise

/-!
# What commands do to the broker

A command publishes some of its arguments, or a text made of them, broadcasts one, or moves
messages that are there already. So a property of all topics and channels is kept by every command
if it is kept by the operations on topics, the messages published being known.
-/

namespace VortexMQ

namespace Args

variable (args : Args) (i : ℕ)

theorem sat_arg : (args.arg i).Sat (fun p ↦ args[i]? = some p) fun _ ↦ True :=
  Ending.sat_ofOption (fun _ h ↦ h) fun _ ↦ trivial

private theorem sat_text :
    (args.text i).Sat (fun x ↦ ∃ p, args[i]? = some p ∧ x = p.getD []) fun _ ↦ True :=
  (args.sat_arg i).bind fun p hp ↦ ⟨p, hp, rfl⟩

theorem sat_after : (args.after i).Sat (fun rest ↦ rest = args.drop i) fun _ ↦ True := by
  rw [after]
  split
  · rfl
  · trivial

end Args

namespace Server

/-- The text that `XADD` publishes. -/
def xaddPayload (args : Args) : List (Option Bytes) :=
  match payloadMap (args.drop 2) (args.drop 2).length 0 [] with
  | .ok m => [some (payloadBytes m)]
  | .wait | .fault _ => []

/-- The payloads that a command publishes, each with the number of the stamp of its message. -/
def published (args : Args) : Verb → List (ℕ × Option Bytes)
  | .lpush | .rpush | .vmqPublishBatch => args.tail.mapIdx fun i payload ↦ (i, payload)
  | .vmqPublish => (args[1]?.map fun payload ↦ (0, payload)).toList
  | .xadd => (xaddPayload args).map fun payload ↦ (0, payload)
  | _ => []

/-- What a command broadcasts, and on which channel. -/
def broadcasts (args : Args) : Verb → List (Bytes × Option Bytes)
  | .vmqBroadcast => (args[1]?.map fun payload ↦ ((args[0]?.join).getD [], payload)).toList
  | _ => []

theorem mem_published_tail {args : Args} {i : ℕ} {payload : Option Bytes}
    (h : args.tail[i]? = some payload) :
    (i, payload) ∈ args.tail.mapIdx fun i payload ↦ (i, payload) := by
  obtain ⟨hi, rfl⟩ := List.getElem?_eq_some_iff.mp h
  exact List.mem_mapIdx.mpr ⟨i, hi, rfl⟩

variable {srv : Server} {env : Env} {c : Conn} {args : Args} {T : Topic → Prop}
  {C : Bytes → List Subscriber → Prop} {P : Message → Prop}

theorem sat_ofLog_trivial {α : Type} {x : Option α} {Q : α → Prop} (h : ∀ a, x = some a → Q a) :
    (Ending.ofLog x).Sat Q fun _ ↦ True :=
  Ending.sat_ofOption h fun _ ↦ trivial

theorem sat_ofPop_trivial {α : Type} {x : Option α} {Q : α → Prop} (h : ∀ a, x = some a → Q a) :
    (Ending.ofPop x).Sat Q fun _ ↦ True :=
  Ending.sat_ofOption h fun _ ↦ trivial

variable (T C) in
/-- Whatever the case does, the broker it leaves has the properties. -/
abbrev Leaves (x : Ending Panic Conn) : Prop := x.Sat (fun c' ↦ c'.broker.Every T C) fun _ ↦ True

variable (T C) in
abbrev ExitLeaves (x : Ending Panic (Conn × Exit)) : Prop :=
  x.Sat (fun r ↦ r.1.broker.Every T C) fun _ ↦ True

theorem Leaves.thenFlush {x : Ending Panic Conn} (h : Leaves T C x) :
    ExitLeaves T C (thenFlush x) :=
  h.bind fun _ hc ↦ hc

theorem every_answerID {r : Except Bytes Message × Broker} (h : r.2.Every T C) :
    (c.answerID r).broker.Every T C := by
  rw [Conn.answerID]
  split <;> exact h

theorem every_answerOK {b : Broker} (h : b.Every T C) (ok : Bool) (rejected : Bytes) :
    (c.answerOK ok b rejected).broker.Every T C := by
  rw [Conn.answerOK]
  split <;> exact h

/-! ## Cases that publish nothing -/

private theorem ping_every (h : c.broker.Every T C) : Leaves T C (ping c args) := by
  rw [ping]
  split
  · exact (Ending.sat_trivial _).bind fun _ _ ↦ h
  · exact h

private theorem echo_every (h : c.broker.Every T C) : Leaves T C (echo c args) := by
  rw [echo]
  split
  · exact (Ending.sat_trivial _).bind fun _ _ ↦ h
  · exact h

private theorem auth_every (h : c.broker.Every T C) : Leaves T C (srv.auth c args) := by
  rw [auth]
  split
  · exact h
  · refine (Ending.sat_trivial _).bind fun arg _ ↦ ?_
    split
    · exact h
    · split <;> exact h

private theorem llen_every (h : c.broker.Every T C) : Leaves T C (llen c args) := by
  rw [llen]
  split
  · exact h
  · refine (Ending.sat_trivial _).bind fun topicName _ ↦ ?_
    split <;> exact h

section Operations

variable (hT : Topic.Kept T P)
include hT

private theorem popWith_every (h : c.broker.Every T C) (usage : Bytes) :
    Leaves T C (popWith c args usage) := by
  rw [popWith]
  split
  · exact h
  · refine (Ending.sat_trivial _).bind fun topicName _ ↦ ?_
    exact (sat_ofPop_trivial fun r hr ↦ h.consume hT hr).bind fun r hr ↦ hr

private theorem brpop_every (h : c.broker.Every T C) : Leaves T C (brpop c args) := by
  rw [brpop]
  split
  · exact h
  · refine (Ending.sat_trivial _).bind fun topicName _ ↦ ?_
    refine (Ending.sat_trivial _).bind fun timeoutSec _ ↦ ?_
    refine (sat_ofPop_trivial fun r hr ↦ h.consume hT hr).bind fun r hr ↦ ?_
    split <;> exact hr

private theorem xgroup_every (h : c.broker.Every T C) : Leaves T C (srv.xgroup c args) := by
  refine (Ending.sat_trivial _).bind fun create _ ↦ ?_
  split
  · refine (Ending.sat_trivial _).bind fun topicName _ ↦ ?_
    refine (Ending.sat_trivial _).bind fun groupName _ ↦ ?_
    exact h.createGroup hT topicName groupName _
  · exact h

private theorem xreadgroup_every (h : c.broker.Every T C) :
    ExitLeaves T C (srv.xreadgroup env c args) := by
  refine (Ending.sat_trivial _).bind fun q _ ↦ ?_
  split
  · exact h
  · refine (sat_ofPop_trivial fun r hr ↦ h.consumeGroup hT hr).bind fun r hr ↦ ?_
    split <;> exact hr

private theorem ackAll_every (topicName groupName : Bytes) : ∀ (ids : Args) (n : ℤ) {b : Broker},
    b.Every T C → (ackAll topicName groupName ids n b).Sat (fun r ↦ r.2.Every T C)
      fun _ ↦ True := by
  intro ids
  induction ids with
  | nil => intro n b h; exact h
  | cons id ids ih =>
    intro n b h
    exact (sat_ofLog_trivial fun r hr ↦ h.ack hT hr).bind fun r hr ↦ ih _ hr

private theorem xack_every (h : c.broker.Every T C) : ExitLeaves T C (xack c args) := by
  rw [xack]
  split
  · exact h
  · refine (Ending.sat_trivial _).bind fun topicName _ ↦ ?_
    refine (Ending.sat_trivial _).bind fun groupName _ ↦ ?_
    refine (Ending.sat_trivial _).bind fun ids _ ↦ ?_
    exact (ackAll_every hT topicName groupName ids 0 h).bind fun r hr ↦ hr

private theorem vmqConsume_every (h : c.broker.Every T C) : ExitLeaves T C (vmqConsume c args) := by
  rw [vmqConsume]
  split
  · exact h
  · refine (Ending.sat_trivial _).bind fun topicName _ ↦ ?_
    refine (Ending.sat_trivial _).bind fun timeout _ ↦ ?_
    refine (sat_ofPop_trivial fun r hr ↦ h.consume hT hr).bind fun r hr ↦ ?_
    split <;> exact hr

private theorem vmqAck_every (h : c.broker.Every T C) : ExitLeaves T C (vmqAck c args) := by
  rw [vmqAck]
  split
  · exact h
  · refine (Ending.sat_trivial _).bind fun topicName _ ↦ ?_
    refine (Ending.sat_trivial _).bind fun groupName _ ↦ ?_
    refine (Ending.sat_trivial _).bind fun msgID _ ↦ ?_
    exact (sat_ofLog_trivial fun r hr ↦ h.ack hT hr).bind fun r hr ↦ every_answerOK hr _ _

private theorem vmqNack_every (h : c.broker.Every T C) : ExitLeaves T C (vmqNack env c args) := by
  rw [vmqNack]
  split
  · exact h
  · refine (Ending.sat_trivial _).bind fun reason _ ↦ ?_
    refine (Ending.sat_trivial _).bind fun topicName _ ↦ ?_
    refine (Ending.sat_trivial _).bind fun groupName _ ↦ ?_
    refine (Ending.sat_trivial _).bind fun msgID _ ↦ ?_
    refine Ending.Sat.bind (Ending.sat_ofOption (fun r hr ↦ h.nack hT hr) fun _ ↦ trivial) ?_
    exact fun r hr ↦ every_answerOK hr _ _

private theorem vmqReplay_every (h : c.broker.Every T C) :
    ExitLeaves T C (vmqReplay env c args) := by
  rw [vmqReplay]
  split
  · exact h
  · refine (Ending.sat_trivial _).bind fun topicName _ ↦ ?_
    refine (Ending.sat_trivial _).bind fun msgID _ ↦ ?_
    exact every_answerOK (h.replayDLQ hT topicName msgID env.now) _ _

/-! ## Cases that publish -/

private theorem pushAll_every (front : Bool) (topicName : Bytes) : ∀ {vals : Args} {i : ℕ}
    {b : Broker}, (∀ j val, vals[j]? = some val → P ((env.stamp (i + j)).message topicName val)) →
    b.Every T C → (srv.pushAll env front topicName vals i b).Sat (Broker.Every T C)
      fun _ ↦ True := by
  intro vals
  induction vals with
  | nil => intro i b _ h; exact h
  | cons val vals ih =>
    intro i b hvals h
    refine Ending.Sat.bind (sat_ofLog_trivial fun r hr ↦ ?_)
      fun r hr ↦ ih (fun j val' hval' ↦ ?_) hr
    · cases front with
      | true => exact h.publishFront hT (hvals 0 val rfl) hr
      | false => exact h.publish hT (hvals 0 val rfl) hr
    · have hnext := hvals (j + 1) val' hval'
      rwa [← Nat.add_assoc, Nat.add_right_comm] at hnext

private theorem pushWith_every
    (hP : ∀ x ∈ args.tail.mapIdx (fun i payload ↦ (i, payload)), ∀ topicName,
      P ((env.stamp x.1).message topicName x.2))
    (h : c.broker.Every T C) (front : Bool) (usage : Bytes) :
    Leaves T C (srv.pushWith env c args front usage) := by
  rw [pushWith]
  split
  · exact h
  · refine (Ending.sat_trivial _).bind fun topicName _ ↦ ?_
    refine (args.sat_after 1).bind fun vals hvals ↦ ?_
    rw [List.drop_one] at hvals
    have hmsgs : ∀ j val, vals[j]? = some val →
        P ((env.stamp (0 + j)).message topicName val) := by
      intro j val hval
      rw [hvals] at hval
      rw [Nat.zero_add]
      exact hP _ (mem_published_tail hval) topicName
    refine (pushAll_every hT front topicName hmsgs h).bind fun b hb ↦ ?_
    exact (Ending.sat_trivial _).bind fun t _ ↦ hb

private theorem xadd_every
    (hP : ∀ x ∈ published args .xadd, ∀ topicName, P ((env.stamp x.1).message topicName x.2))
    (h : c.broker.Every T C) : ExitLeaves T C (srv.xadd env c args) := by
  rw [xadd]
  split
  · exact h
  · refine (Ending.sat_trivial _).bind fun topicName _ ↦ ?_
    refine (args.sat_after 2).bind fun rest hrest ↦ ?_
    have hmap : (payloadMap rest rest.length 0 []).Sat
        (fun m ↦ (0, some (payloadBytes m)) ∈ published args .xadd) fun _ ↦ True := by
      rw [hrest, published, xaddPayload]
      cases payloadMap (args.drop 2) (args.drop 2).length 0 [] with
      | ok m => exact List.mem_singleton.mpr rfl
      | wait => trivial
      | fault e => trivial
    refine hmap.bind fun m hm ↦ ?_
    refine (sat_ofLog_trivial fun r hr ↦ ?_).bind fun r hr ↦ every_answerID hr
    exact h.publish hT (hP _ hm topicName) hr

private theorem vmqPublish_every
    (hP : ∀ x ∈ published args .vmqPublish, ∀ topicName,
      P ((env.stamp x.1).message topicName x.2))
    (h : c.broker.Every T C) : ExitLeaves T C (srv.vmqPublish env c args) := by
  rw [vmqPublish]
  split
  · exact h
  · refine (Ending.sat_trivial _).bind fun topicName _ ↦ ?_
    refine (args.sat_arg 1).bind fun payload hpayload ↦ ?_
    refine (Ending.sat_trivial _).bind fun delay _ ↦ ?_
    have hmsg : P ((env.stamp 0).message topicName payload) := by
      refine hP (0, payload) ?_ topicName
      rw [published, hpayload]
      exact List.mem_singleton.mpr rfl
    refine (sat_ofLog_trivial fun r hr ↦ ?_).bind fun r hr ↦ every_answerID hr
    split at hr
    · exact h.publishDelayed hT hmsg hr
    · exact h.publish hT hmsg hr

private theorem vmqPublishBatch_every
    (hP : ∀ x ∈ args.tail.mapIdx (fun i payload ↦ (i, payload)), ∀ topicName,
      P ((env.stamp x.1).message topicName x.2))
    (h : c.broker.Every T C) : Leaves T C (srv.vmqPublishBatch env c args) := by
  rw [vmqPublishBatch]
  split
  · exact h
  · refine (Ending.sat_trivial _).bind fun topicName _ ↦ ?_
    refine (args.sat_after 1).bind fun payloads hpayloads ↦ ?_
    rw [List.drop_one] at hpayloads
    refine (sat_ofLog_trivial fun r hr ↦ h.publishBatch hT ?_ hr).bind fun r hr ↦ hr
    intro p hp
    obtain ⟨i, hi, rfl⟩ := List.mem_mapIdx.mp hp
    subst hpayloads
    exact hP _ (mem_published_tail (List.getElem?_eq_getElem hi)) topicName

omit hT in
private theorem broadcast_every {b : Broker} {channel : Bytes} {payload : Option Bytes}
    (hC : ∀ subs, C channel subs → C channel (subs.map fun sub ↦
      if Broker.Subscriber.HasRoom sub then { sub with queue := sub.queue ++ [payload] } else sub))
    (h : b.Every T C) :
    (b.broadcast channel payload).Sat (fun r ↦ r.2.Every T C) fun _ ↦ True := by
  rw [Broker.broadcast]
  split
  · exact h
  · rename_i subs hsubs
    split
    · trivial
    · exact h.setChannel (hC subs (h.channels channel subs hsubs))

omit hT in
private theorem vmqBroadcast_every
    (hC : ∀ x ∈ broadcasts args .vmqBroadcast, ∀ subs, C x.1 subs → C x.1 (subs.map fun sub ↦
      if Broker.Subscriber.HasRoom sub then { sub with queue := sub.queue ++ [x.2] } else sub))
    (h : c.broker.Every T C) : Leaves T C (vmqBroadcast c args) := by
  rw [vmqBroadcast]
  split
  · exact h
  · refine (args.sat_text 0).bind fun channel hchannel ↦ ?_
    refine (args.sat_arg 1).bind fun payload hpayload ↦ ?_
    obtain ⟨p, hp, rfl⟩ := hchannel
    have hmem : (p.getD [], payload) ∈ broadcasts args .vmqBroadcast := by
      rw [broadcasts, hpayload, hp]
      exact List.mem_singleton.mpr rfl
    exact (broadcast_every (hC _ hmem) h).bind fun r hr ↦ hr

/-! ## The switch -/

private theorem handle_every {verb : Verb}
    (hP : ∀ x ∈ published args verb, ∀ topicName, P ((env.stamp x.1).message topicName x.2))
    (hC : ∀ x ∈ broadcasts args verb, ∀ subs, C x.1 subs → C x.1 (subs.map fun sub ↦
      if Broker.Subscriber.HasRoom sub then { sub with queue := sub.queue ++ [x.2] } else sub))
    (h : c.broker.Every T C) : ExitLeaves T C (srv.handle env c args verb) := by
  cases verb with
  | ping => exact (ping_every h).thenFlush
  | echo => exact (echo_every h).thenFlush
  | auth => exact (auth_every h).thenFlush
  | command | info | vmqStats | quit => exact h
  | lpush => exact (pushWith_every hT hP h true _).thenFlush
  | rpush => exact (pushWith_every hT hP h false _).thenFlush
  | lpop => exact (popWith_every hT h _).thenFlush
  | rpop => exact (popWith_every hT h _).thenFlush
  | brpop => exact (brpop_every hT h).thenFlush
  | llen => exact (llen_every h).thenFlush
  | xadd => exact xadd_every hT hP h
  | xgroup => exact (xgroup_every hT h).thenFlush
  | xreadgroup => exact xreadgroup_every hT h
  | xack => exact xack_every hT h
  | vmqPublish => exact vmqPublish_every hT hP h
  | vmqConsume => exact vmqConsume_every hT h
  | vmqAck => exact vmqAck_every hT h
  | vmqNack => exact vmqNack_every hT h
  | vmqReplay => exact vmqReplay_every hT h
  | vmqPublishBatch => exact (vmqPublishBatch_every hT hP h).thenFlush
  | vmqBroadcast => exact (vmqBroadcast_every hC h).thenFlush

/-- **A command keeps what the operations on topics and channels keep.** -/
theorem dispatch_every {cmd : Command}
    (hP : ∀ verb, Verb.ofName cmd.name = some verb → ∀ x ∈ published cmd.args verb,
      ∀ topicName, P ((env.stamp x.1).message topicName x.2))
    (hC : ∀ verb, Verb.ofName cmd.name = some verb → ∀ x ∈ broadcasts cmd.args verb, ∀ subs,
      C x.1 subs → C x.1 (subs.map fun sub ↦
        if Broker.Subscriber.HasRoom sub then { sub with queue := sub.queue ++ [x.2] } else sub))
    (h : c.broker.Every T C) : ExitLeaves T C (srv.dispatch env c cmd) := by
  rw [dispatch]
  split
  · exact h
  · split
    · rename_i verb hverb
      exact handle_every hT (hP verb hverb) (hC verb hverb) h
    · exact h

end Operations

end Server

end VortexMQ
