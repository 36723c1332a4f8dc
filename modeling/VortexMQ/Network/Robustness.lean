import VortexMQ.Network.Authentication
import VortexMQ.Network.CheckedReader
import VortexMQ.Network.Commands
import VortexMQ.Queue.Soundness
import VortexMQ.Queue.TopicNames

/-!
# No client input brings the server down

A connection handler reads commands from whatever bytes its client sends and handles them one after
the other, while the rest of the server goes on: other connections, the HTTP interface, the timers
and the shutdown, one critical section at a time, and the subscribers of the ephemeral channels.

A command comes to its end with a reply, or waits, or the connection is closed. The only other end
would be a panic in a call of the log.
-/

namespace VortexMQ

/-! ## A sound broker is safe -/

namespace Broker.Sound

variable {b : Broker}

private theorem safe (h : b.Sound) : b.Safe := by
  refine ⟨h.channels, fun name t ht groupName cg hcg msgID pending hpending ↦ ?_⟩
  have hlive := (h.topics name t ht).groups groupName cg hcg _ (AList.mem_lookup_iff.mp hpending)
  exact ⟨hlive.nonneg, hlive.lt.trans (by decide)⟩

theorem setChannel (h : b.Sound) {subs : List Subscriber}
    (hsubs : ∀ sub ∈ subs, Subscriber.closed sub = false) (channel : Bytes) :
    { b with channels := b.channels.insert channel subs }.Sound :=
  sound_iff.mpr (Every.setChannel (sound_iff.mp h) hsubs)

private theorem subscribeChannel (h : b.Sound) (channel : Bytes) :
    (b.subscribeChannel channel).Sound := by
  refine h.setChannel (fun sub hsub ↦ ?_) channel
  rcases List.mem_cons.mp hsub with rfl | hsub
  · rfl
  · cases hlookup : b.channels.lookup channel with
    | none =>
      rw [hlookup] at hsub
      exact absurd hsub List.not_mem_nil
    | some subs =>
      rw [hlookup] at hsub
      exact h.channels channel subs hlookup sub hsub

private theorem unsubscribeChannel (h : b.Sound) (channel : Bytes) (i : ℕ) :
    (b.unsubscribeChannel channel i).Sound := by
  rw [Broker.unsubscribeChannel]
  split
  · exact h
  · rename_i subs hsubs
    split
    · refine ⟨h.topics, fun name subs' hlookup ↦ ?_⟩
      change (b.channels.erase channel).lookup name = some subs' at hlookup
      by_cases hname : name = channel
      · subst hname
        rw [AList.lookup_erase] at hlookup
        exact absurd hlookup (Option.some_ne_none _).symm
      · rw [AList.lookup_erase_ne hname] at hlookup
        exact h.channels name subs' hlookup
    · refine h.setChannel (fun sub hsub ↦ ?_) channel
      exact h.channels channel subs hsubs sub (List.mem_of_mem_eraseIdx hsub)

theorem broadcast (h : b.Sound) (channel : Bytes) (payload : Option Bytes) :
    (b.broadcast channel payload).Sat (fun r ↦ r.2.Sound) fun _ ↦ False := by
  rw [Broker.broadcast]
  split
  · exact h
  · rename_i subs hsubs
    have hopen := h.channels channel subs hsubs
    have hany : ¬subs.any Subscriber.closed = true := by
      intro hany
      obtain ⟨sub, hsub, hclosed⟩ := List.any_eq_true.mp hany
      exact absurd ((hopen sub hsub).symm.trans hclosed) Bool.false_ne_true
    rw [if_neg hany]
    refine h.setChannel (fun sub hsub ↦ ?_) channel
    obtain ⟨sub', hsub', rfl⟩ := List.mem_map.mp hsub
    split
    · exact hopen sub' hsub'
    · exact hopen sub' hsub'

end Broker.Sound

/-! ## Commands keep the broker sound -/

namespace Server

variable {srv : Server} {env : Env} {c : Conn}

private theorem allOpen_map {channel : Bytes} {subs : List Subscriber} {payload : Option Bytes}
    (h : Subscriber.AllOpen channel subs) :
    Subscriber.AllOpen channel (subs.map fun sub ↦
      if Broker.Subscriber.HasRoom sub then { sub with queue := sub.queue ++ [payload] }
      else sub) := by
  intro sub hsub
  obtain ⟨sub', hsub', rfl⟩ := List.mem_map.mp hsub
  split
  · exact h sub' hsub'
  · exact h sub' hsub'

/-- **A command leaves a sound broker sound.** -/
theorem dispatch_sound (h : c.broker.Sound) (cmd : Command) :
    (srv.dispatch env c cmd).Sat (fun r ↦ r.1.broker.Sound) fun _ ↦ True := by
  have hdispatch : ExitLeaves Topic.Sound Subscriber.AllOpen (srv.dispatch env c cmd) :=
    dispatch_every Topic.kept_sound (fun _ _ x _ topicName ↦ Message.live_message _ topicName x.2)
      (fun _ _ _ _ _ hsubs ↦ allOpen_map hsubs) (Broker.sound_iff.mp h)
  exact hdispatch.mono (fun _ hr ↦ Broker.sound_iff.mpr hr) fun _ ↦ id

end Server

/-! ## The server around a connection -/

/-- A connection handler, the operations of the rest of the server in progress, and what the client
has sent and the handler has not read. -/
structure Service where
  session : Session
  jobs : List Job
  data : Bytes

namespace Service

inductive Label where
  /-- The handler reads and handles a command; so many bytes are left in its buffer. -/
  | command (buffered : ℕ) (env : Env)
  /-- The rest of the server takes a step. -/
  | others (l : BrokerState.Label)
  | subscribe (channel : Bytes)
  | unsubscribe (channel : Bytes) (i : ℕ)
  | broadcast (channel : Bytes) (payload : Option Bytes)

/-- A new connection, whose client is going to send these bytes. -/
def accept (srv : Server) (b : Broker) (data : Bytes) : Service := ⟨Session.start srv b, [], data⟩

def broker (s : Service) : Broker := s.session.conn.broker

/-- The rest of the server has changed the broker. -/
def onto (s : Service) (b : Broker) : Service := { s with session := s.session.onto b }

/-- One round of the handler's loop, up to the flush: an error if the connection is to be closed, or
else what is left of the stream and the connection after the command. -/
def serve (srv : Server) (env : Env) (s : Service) :
    Ending Panic (Except ReadError (Bytes × Conn × Exit)) := do
  match ← Resp.Checked.readCommand srv.upper s.data with
  | .error err => return .error err
  | .ok (cmd, rest) =>
      let r ← srv.dispatch env s.session.conn cmd
      return .ok (rest, r)

def step (srv : Server) (s : Service) : Label → Option Service
  | .command buffered env =>
      if s.session.live then
        match s.serve srv env with
        | .ok (.error _) => some { s with session := s.session.leave }
        | .ok (.ok (rest, c, exit)) =>
            some { s with
              data := rest
              session := { s.session with
                conn := c
                buffered := buffered
                handled := s.session.handled + 1 }.finish exit }
        | .wait | .fault _ => none
      else none
  | .others l =>
      (BrokerState.step srv.codec ⟨s.broker, s.jobs⟩ l).map fun t ↦
        { s.onto t.broker with jobs := t.jobs }
  | .subscribe channel => some (s.onto (s.broker.subscribeChannel channel))
  | .unsubscribe channel i => some (s.onto (s.broker.unsubscribeChannel channel i))
  | .broadcast channel payload =>
      match s.broker.broadcast channel payload with
      | .ok r => some (s.onto r.2)
      | .wait | .fault _ => none

/-- The indices that the ring and the wheel of a topic compute are in range. -/
structure InRange (t : Topic) : Prop where
  ring : ∀ x : UInt64, (x &&& t.ring.buf.mask).toNat < t.ring.buf.capacity.toNat
  target : ∀ delay, t.tw.targetSlot delay < t.tw.buckets.length
  current : t.tw.currentSlot < t.tw.buckets.length

variable {srv : Server} {s s' : Service}

def Sound (s : Service) : Prop := BrokerState.Sound ⟨s.broker, s.jobs⟩

theorem Sound.onto (h : s.Sound) {b : Broker} (hb : b.Sound) : (s.onto b).Sound := ⟨hb, h.jobs⟩

theorem serve_eq (srv : Server) (env : Env) (s : Service) :
    s.serve srv env = match Resp.readCommand srv.upper s.data with
      | .error err => .ok (.error err)
      | .ok (cmd, rest) => do
          let r ← srv.dispatch env s.session.conn cmd
          return .ok (rest, r) := by
  rw [serve, Resp.Checked.readCommand_eq, Ending.ok_bind]
  cases Resp.readCommand srv.upper s.data <;> rfl

theorem Sound.serve (h : s.Sound) (srv : Server) (env : Env) :
    (s.serve srv env).Sat (fun r ↦ ∀ rest c exit, r = .ok (rest, c, exit) → c.broker.Sound)
      fun _ ↦ True := by
  rw [serve_eq]
  cases Resp.readCommand srv.upper s.data with
  | error err => exact fun _ _ _ heq ↦ nomatch heq
  | ok r =>
    refine (Server.dispatch_sound h.broker r.1).bind fun r' hr' ↦ ?_
    intro rest c exit heq
    obtain ⟨-, rfl⟩ := Prod.mk.inj (Except.ok.inj heq)
    exact hr'

theorem Sound.step (h : s.Sound) {l : Label} (hs' : s.step srv l = some s') : s'.Sound := by
  cases l with
  | command buffered env =>
    rw [Service.step, Option.ite_none_right_eq_some] at hs'
    obtain ⟨-, hs'⟩ := hs'
    have hserve := h.serve srv env
    split at hs'
    · rw [← Option.some_inj.mp hs']
      exact h
    · rename_i rest c exit heq
      rw [← Option.some_inj.mp hs']
      have hc := hserve.of_ok heq rest c exit rfl
      refine ⟨?_, h.jobs⟩
      rw [Service.broker, (Session.finish_spec _ exit).2.2.2.1]
      exact hc
    · exact absurd hs' (Option.some_ne_none s').symm
    · exact absurd hs' (Option.some_ne_none s').symm
  | others l =>
    obtain ⟨t, ht, rfl⟩ := Option.map_eq_some_iff.mp hs'
    exact BrokerState.Sound.step h ht
  | subscribe channel =>
    rw [← Option.some_inj.mp hs']
    exact h.onto (h.broker.subscribeChannel channel)
  | unsubscribe channel i =>
    rw [← Option.some_inj.mp hs']
    exact h.onto (h.broker.unsubscribeChannel channel i)
  | broadcast channel payload =>
    rw [Service.step] at hs'
    split at hs'
    · rename_i r hr
      rw [← Option.some_inj.mp hs']
      exact h.onto ((h.broker.broadcast channel payload).of_ok hr)
    · exact absurd hs' (Option.some_ne_none s').symm
    · exact absurd hs' (Option.some_ne_none s').symm

private theorem inRange (t : Topic) : InRange t := by
  obtain ⟨d, hd⟩ := t.ring.valid
  have hwheel := t.tw.length_buckets
  exact ⟨hd.repr.slot_lt, fun delay ↦ hwheel.symm ▸ t.tw.targetSlot_lt delay,
    hwheel.symm ▸ t.tw.currentSlot_lt⟩

open MessageJson (codec)

end Service

end VortexMQ
