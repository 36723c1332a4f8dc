import VortexMQ.Basic.Run
import VortexMQ.Queue.BrokerLog

/-!
# Shutdown

What `main` does after the signal: `Server.Stop` closes the listener and all connections and then
waits for the connection handlers, the HTTP server is stopped, and `Broker.Close` closes the rings
and the log. A handler reads commands, first those that have arrived before its connection was
closed, or is inside a pop, which ends with a message, with a deadline, or with the closing of the
ring.

The rings are closed only after all handlers have finished. A handler that waits without a deadline
on an empty ring is therefore waited for by the one step that could wake it.
-/

namespace VortexMQ

/-! ## Pops and rings -/

namespace Topic

variable {t : Topic}

theorem pop_eq_none (h : t.pop = none) : t.ring.items = [] := by
  rw [pop, Option.map_eq_none_iff, t.ring.pop_eq.1] at h
  exact List.head?_eq_none_iff.mp h

private theorem items_of_pop {msg : Message} {t' : Topic} (h : t.pop = some (msg, t')) :
    t'.ring.items = t.ring.items.tail := by
  rw [pop, Option.map_eq_some_iff] at h
  obtain ⟨m, -, heq⟩ := h
  rw [Prod.mk.injEq] at heq
  rw [← heq.2]
  exact t.ring.pop_eq.2.1

theorem items_popWait {timeout : ℤ} {r : Option Message × Topic}
    (h : t.popWait timeout = some r) :
    r.2.ring.items = t.ring.items.tail ∧ (r.1 = none → t.ring.items = []) := by
  rw [popWait] at h
  split at h
  · rename_i msg t' hpop
    rw [← Option.some_inj.mp h]
    exact ⟨items_of_pop hpop, fun hnone ↦ absurd hnone (Option.some_ne_none _)⟩
  · rename_i hpop
    rw [Option.ite_none_right_eq_some, Option.some_inj] at h
    have hempty := pop_eq_none hpop
    rw [← h.2, hempty]
    exact ⟨rfl, fun _ ↦ rfl⟩

theorem popWait_isSome {timeout : ℤ} (h : timeout ≠ 0 ∨ t.ring.items ≠ []) :
    (t.popWait timeout).isSome := by
  rw [popWait]
  split
  · rfl
  · rename_i hpop
    have htimeout : timeout ≠ 0 := h.resolve_right fun hne ↦ hne (pop_eq_none hpop)
    rw [if_pos (Or.inr htimeout)]
    rfl

theorem ring_getOrCreateGroup (t : Topic) (groupName : Bytes) (timeout : ℤ) :
    (t.getOrCreateGroup groupName timeout).ring = t.ring := by
  rw [getOrCreateGroup]
  split <;> rfl

private theorem items_runConsumeWait {timeout : ℤ} {r : Option Message × Topic}
    (h : t.runConsumeWait timeout = some r) :
    r.2.ring.items = t.ring.items.tail ∧ (r.1 = none → t.ring.items = []) := by
  rw [runConsumeWait, Option.map_eq_some_iff] at h
  obtain ⟨⟨m, t'⟩, hpop, rfl⟩ := h
  cases m with
  | none => exact items_popWait hpop
  | some m =>
    exact ⟨(items_popWait hpop).1, fun hnone ↦ absurd hnone (Option.some_ne_none _)⟩

private theorem items_runConsumeGroup {groupName consumerID : Bytes} {timeout now : ℤ}
    {r : Option Message × Topic} (h : t.runConsumeGroup groupName consumerID timeout now = some r) :
    r.2.ring.items = t.ring.items.tail := by
  rw [runConsumeGroup, Option.bind_eq_some_iff] at h
  obtain ⟨⟨m, t'⟩, hpop, h⟩ := h
  have hitems := (items_popWait hpop).1
  rw [ring_getOrCreateGroup] at hitems
  cases m with
  | none => exact Option.some_inj.mp h ▸ hitems
  | some m =>
    obtain ⟨cg, -, h⟩ := Option.bind_eq_some_iff.mp h
    obtain ⟨t'', hcheckout, rfl⟩ := Option.map_eq_some_iff.mp h
    obtain ⟨cg', -, rfl⟩ := Option.map_eq_some_iff.mp hcheckout
    exact hitems

private theorem groups_popWait {timeout : ℤ} {r : Option Message × Topic}
    (h : t.popWait timeout = some r) : r.2.groups = t.groups := by
  rw [popWait] at h
  split at h
  · rename_i msg t' hpop
    obtain ⟨m, -, heq⟩ := Option.map_eq_some_iff.mp hpop
    rw [Prod.mk.injEq] at heq
    rw [← Option.some_inj.mp h, ← heq.2]
  · rw [Option.ite_none_right_eq_some, Option.some_inj] at h
    rw [← h.2]

private theorem lookup_getOrCreateGroup (t : Topic) (groupName : Bytes) (timeout : ℤ) :
    ((t.getOrCreateGroup groupName timeout).groups.lookup groupName).isSome := by
  rw [getOrCreateGroup]
  split
  · rename_i h
    exact AList.lookup_isSome.mpr h
  · rw [setGroup, AList.lookup_insert]
    rfl

private theorem runConsumeGroup_isSome {timeout : ℤ} (h : timeout ≠ 0 ∨ t.ring.items ≠ [])
    (groupName consumerID : Bytes) (now : ℤ) :
    (t.runConsumeGroup groupName consumerID timeout now).isSome := by
  have hgroup := t.lookup_getOrCreateGroup groupName (30 * second)
  have hpop : ((t.getOrCreateGroup groupName (30 * second)).popWait timeout).isSome := by
    refine popWait_isSome ?_
    rwa [ring_getOrCreateGroup]
  obtain ⟨⟨m, t'⟩, hr⟩ := Option.isSome_iff_exists.mp hpop
  rw [← groups_popWait hr] at hgroup
  obtain ⟨cg, hcg⟩ := Option.isSome_iff_exists.mp hgroup
  rw [runConsumeGroup, hr, Option.bind_some]
  cases m with
  | none => rfl
  | some m =>
    have hcg' : t'.groups.lookup groupName = some cg := hcg
    simp only [hcg', Option.bind_some, checkout, Option.map_some, Option.isSome_some]

end Topic

namespace Broker

variable {b : Broker} {topicName : Bytes} {timeout : ℤ}

private theorem ringItems_consume {r : Option Message × Broker}
    (h : b.consume topicName timeout = some r) (name : Bytes) :
    r.2.ringItems name
      = if name = topicName then (b.ringItems name).tail else b.ringItems name := by
  rw [consume, getTopic] at h
  cases hlookup : b.topics.lookup topicName with
  | none =>
    rw [hlookup, Option.some_inj] at h
    rw [← h]
    split
    · rename_i hname
      rw [hname, ringItems, hlookup]
      rfl
    · rfl
  | some t =>
    rw [hlookup] at h
    obtain ⟨⟨m, t'⟩, hrun, rfl⟩ := Option.map_eq_some_iff.mp h
    obtain ⟨hitems, hnone⟩ := Topic.items_runConsumeWait hrun
    have hown : b.ringItems topicName = t.ring.items := by rw [ringItems, hlookup]
    cases m with
    | none =>
      change b.ringItems name = _
      split
      · rename_i hname
        rw [hname, hown, hnone rfl]
        rfl
      · rfl
    | some m =>
      refine (b.ringItems_setTopic topicName t' name).trans ?_
      split
      · rename_i hname
        rw [hname, hown]
        exact hitems
      · rfl

private theorem ringItems_consumeGroup {groupName consumerID : Bytes} {now : ℤ}
    {r : Option Message × Broker}
    (h : b.consumeGroup topicName groupName consumerID timeout now = some r) (name : Bytes) :
    r.2.ringItems name
      = if name = topicName then (b.ringItems name).tail else b.ringItems name := by
  obtain ⟨hown, hothers⟩ := b.ringItems_getOrCreateTopic topicName name
  unfold consumeGroup at h
  obtain ⟨⟨m, t'⟩, hrun, rfl⟩ := Option.map_eq_some_iff.mp h
  have hitems := Topic.items_runConsumeGroup hrun
  have hset : ((b.getOrCreateTopic topicName).2.setTopic topicName t').ringItems name
      = if name = topicName then (b.ringItems name).tail else b.ringItems name := by
    rw [ringItems_setTopic, hothers]
    split
    · rename_i hname
      rw [hname, ← hown]
      exact hitems
    · rfl
  cases m <;> exact hset

private theorem consume_isSome (h : timeout ≠ 0 ∨ b.ringItems topicName ≠ []) :
    (b.consume topicName timeout).isSome := by
  rw [consume, getTopic]
  cases hlookup : b.topics.lookup topicName with
  | none => rfl
  | some t =>
    rw [ringItems, hlookup] at h
    have hrun : (t.runConsumeWait timeout).isSome :=
      Option.isSome_map.trans (Topic.popWait_isSome h)
    exact Option.isSome_map.trans hrun

private theorem consumeGroup_isSome (h : timeout ≠ 0 ∨ b.ringItems topicName ≠ [])
    (groupName consumerID : Bytes) (now : ℤ) :
    (b.consumeGroup topicName groupName consumerID timeout now).isSome := by
  rw [← (b.ringItems_getOrCreateTopic topicName topicName).1] at h
  exact Option.isSome_map.trans (Topic.runConsumeGroup_isSome h groupName consumerID now)

end Broker

/-! ## Commands that wait -/

/-- `LPOP`, `RPOP`, `BLPOP`, `BRPOP` and `VMQ.CONSUME` call `Consume`; `XREADGROUP` calls
`ConsumeGroup`. -/
inductive PopCommand where
  | consume (topicName : Bytes) (timeout : ℤ)
  | consumeGroup (topicName groupName consumerID : Bytes) (timeout : ℤ)
  deriving DecidableEq

namespace PopCommand

def topicName : PopCommand → Bytes
  | .consume topicName _ => topicName
  | .consumeGroup topicName _ _ _ => topicName

def timeout : PopCommand → ℤ
  | .consume _ timeout => timeout
  | .consumeGroup _ _ _ timeout => timeout

/-- Up to `PopWait`: whether the command gets there, and the broker with the topic and the group it
may have made. `Consume` returns at once if there is no such topic. -/
def start (b : Broker) : PopCommand → Bool × Broker
  | .consume topicName _ => ((b.getTopic topicName).isSome, b)
  | .consumeGroup topicName groupName _ _ =>
      let found := b.getOrCreateTopic topicName
      (true, found.2.setTopic topicName (found.1.getOrCreateGroup groupName (30 * second)))

/-- From `PopWait` on; `none` for as long as it waits. -/
def finish (b : Broker) (now : ℤ) : PopCommand → Option Broker
  | .consume topicName timeout => (b.consume topicName timeout).map Prod.snd
  | .consumeGroup topicName groupName consumerID timeout =>
      (b.consumeGroup topicName groupName consumerID timeout now).map Prod.snd

variable {b b' : Broker} {cmd : PopCommand} {now : ℤ}

private theorem ringItems_start (cmd : PopCommand) (b : Broker) :
    (cmd.start b).2.ringItems = b.ringItems := by
  cases cmd with
  | consume topicName timeout => rfl
  | consumeGroup topicName groupName consumerID timeout =>
    funext name
    obtain ⟨hown, hothers⟩ := b.ringItems_getOrCreateTopic topicName name
    refine (Broker.ringItems_setTopic _ _ _ _).trans ?_
    rw [Topic.ring_getOrCreateGroup]
    split
    · rename_i h
      rw [h, hown]
    · exact hothers

private theorem ringItems_finish (h : cmd.finish b now = some b') (name : Bytes) :
    b'.ringItems name
      = if name = cmd.topicName then (b.ringItems name).tail else b.ringItems name := by
  cases cmd with
  | consume topicName timeout =>
    obtain ⟨r, hr, rfl⟩ := Option.map_eq_some_iff.mp h
    exact Broker.ringItems_consume hr name
  | consumeGroup topicName groupName consumerID timeout =>
    obtain ⟨r, hr, rfl⟩ := Option.map_eq_some_iff.mp h
    exact Broker.ringItems_consumeGroup hr name

private theorem finish_isSome (h : cmd.timeout ≠ 0 ∨ b.ringItems cmd.topicName ≠ []) (now : ℤ) :
    (cmd.finish b now).isSome := by
  cases cmd with
  | consume topicName timeout => exact Option.isSome_map.trans (Broker.consume_isSome h)
  | consumeGroup topicName groupName consumerID timeout =>
    exact Option.isSome_map.trans (Broker.consumeGroup_isSome h groupName consumerID now)

end PopCommand

/-! ## Handlers and `main` -/

/-- A connection handler, with the commands that are waiting in its reader. -/
inductive Handler where
  | reading (pending : List PopCommand)
  | popping (cmd : PopCommand) (pending : List PopCommand)
  | finished
  deriving DecidableEq

namespace Handler

def isFinished : Handler → Bool
  | .finished => true
  | _ => false

/-- Inside a pop on the given topic. -/
def popsOn (name : Bytes) : Handler → Bool
  | .popping cmd _ => cmd.topicName = name
  | _ => false

/-- Inside a pop on the given topic that has no deadline. -/
def waitsOn (name : Bytes) : Handler → Bool
  | .popping cmd _ => cmd.topicName = name && cmd.timeout = 0
  | _ => false

end Handler

/-- What `main` does next. -/
inductive MainStep where
  /-- `tcpServer.Stop` closes the listener and the connections. -/
  | stopServer
  /-- `s.wg.Wait()`. -/
  | waitHandlers
  | stopHttp
  | closeBroker
  | terminated
  deriving DecidableEq

structure ShutdownState where
  broker : Broker
  main : MainStep
  handlers : List Handler

inductive ShutdownLabel where
  /-- A command comes in on an open connection. -/
  | receive (i : ℕ) (cmd : PopCommand)
  /-- A handler takes up the next command in its reader. -/
  | take (i : ℕ)
  /-- A pop comes to its end. -/
  | finish (i : ℕ) (now : ℤ)
  /-- A handler finds its connection closed. -/
  | hangUp (i : ℕ)
  | main

/-- Whatever does not depend on a client. -/
def ShutdownLabel.internal : ShutdownLabel → Bool
  | .receive _ _ => false
  | _ => true

namespace ShutdownState

/-- `h` is what handler `i` does from now on. -/
def setHandler (s : ShutdownState) (i : ℕ) (h : Handler) : ShutdownState :=
  { s with handlers := s.handlers.set i h }

def mainStep (s : ShutdownState) : Option ShutdownState :=
  match s.main with
  | .stopServer => some { s with main := .waitHandlers }
  | .waitHandlers =>
      if s.handlers.all Handler.isFinished then some { s with main := .stopHttp } else none
  | .stopHttp => some { s with main := .closeBroker }
  | .closeBroker => some { s with broker := s.broker.close, main := .terminated }
  | .terminated => none

def step (s : ShutdownState) : ShutdownLabel → Option ShutdownState
  | .receive i cmd =>
      if s.main = .stopServer then
        match s.handlers[i]? with
        | some (.reading pending) => some (s.setHandler i (.reading (pending ++ [cmd])))
        | some (.popping cmd' pending) => some (s.setHandler i (.popping cmd' (pending ++ [cmd])))
        | _ => none
      else none
  | .take i =>
      match s.handlers[i]? with
      | some (.reading (cmd :: pending)) =>
          some ({ s with broker := (cmd.start s.broker).2 }.setHandler i
            (if (cmd.start s.broker).1 then .popping cmd pending else .reading pending))
      | _ => none
  | .finish i now =>
      match s.handlers[i]? with
      | some (.popping cmd pending) =>
          (cmd.finish s.broker now).map fun b ↦
            { s with broker := b }.setHandler i (.reading pending)
      | _ => none
  | .hangUp i =>
      match s.handlers[i]? with
      | some (.reading []) =>
          if s.main = .stopServer then none else some (s.setHandler i .finished)
      | _ => none
  | .main => s.mainStep

/-- `main` has not terminated, and nothing can happen that does not depend on a client. -/
def Stuck (s : ShutdownState) : Prop :=
  s.main ≠ .terminated ∧ ∀ l : ShutdownLabel, l.internal = true → s.step l = none

/-! ## Enough messages -/

/-- The pops in progress on a topic, if one of them has no deadline, do not outnumber its
messages. -/
def Supplied (s : ShutdownState) (name : Bytes) : Prop :=
  (∃ h ∈ s.handlers, h.waitsOn name = true) →
    s.handlers.countP (Handler.popsOn name) ≤ (s.broker.ringItems name).length

/-- The condition on a step: a pop is taken up only if there is a message for it and for all others
in progress on the topic, unless all of these have deadlines. -/
def Covered (s : ShutdownState) : ShutdownLabel → Prop
  | .take i =>
      ∀ cmd pending, s.handlers[i]? = some (.reading (cmd :: pending)) →
        (cmd.start s.broker).1 = true →
        (cmd.timeout = 0 ∨ ∃ h ∈ s.handlers, h.waitsOn cmd.topicName = true) →
        s.handlers.countP (Handler.popsOn cmd.topicName) + 1
          ≤ (s.broker.ringItems cmd.topicName).length
  | _ => True

variable {s s' : ShutdownState} {i : ℕ} {name : Bytes}

/-! ### Replacing a handler -/

theorem mem_setHandler {h h' : Handler} (hmem : h' ∈ (s.setHandler i h).handlers) :
    h' ∈ s.handlers ∨ h' = h :=
  List.mem_or_eq_of_mem_set hmem

theorem countP_setHandler {h : Handler} (hi : s.handlers[i]? = some h) (h' : Handler)
    (p : Handler → Bool) :
    (s.setHandler i h').handlers.countP p + (if p h then 1 else 0)
      = s.handlers.countP p + if p h' then 1 else 0 := by
  obtain ⟨hlt, hget⟩ := List.getElem?_eq_some_iff.mp hi
  have hset := List.countP_set (p := p) (a := h') hlt
  rw [hget] at hset
  have hpos : (if p h then 1 else 0) ≤ s.handlers.countP p := by
    split
    · rename_i hp
      exact List.countP_pos_iff.mpr ⟨h, List.mem_of_getElem? hi, hp⟩
    · exact Nat.zero_le _
  rw [setHandler, hset]
  omega

theorem Supplied.of_quiet (hs : s.Supplied name) {h h' : Handler} (hi : s.handlers[i]? = some h)
    (hpops : h'.popsOn name = h.popsOn name) (hwaits : h'.waitsOn name = h.waitsOn name) :
    (s.setHandler i h').Supplied name := by
  rintro ⟨g, hg, hgwaits⟩
  have hcount := countP_setHandler hi h' (Handler.popsOn name)
  rw [hpops, Nat.add_right_cancel_iff] at hcount
  rw [hcount]
  refine hs ?_
  rcases mem_setHandler hg with hg | rfl
  · exact ⟨g, hg, hgwaits⟩
  · exact ⟨h, List.mem_of_getElem? hi, hwaits ▸ hgwaits⟩

/-! ### Steps -/

theorem Supplied.take (hs : s.Supplied name) {cmd : PopCommand} {pending : List PopCommand}
    (hi : s.handlers[i]? = some (.reading (cmd :: pending))) (hguard : Covered s (.take i)) :
    ({ s with broker := (cmd.start s.broker).2 }.setHandler i
      (if (cmd.start s.broker).1 then .popping cmd pending else .reading pending)).Supplied
      name := by
  have hs' : { s with broker := (cmd.start s.broker).2 }.Supplied name := by
    intro hwaits
    rw [show (cmd.start s.broker).2.ringItems = s.broker.ringItems from cmd.ringItems_start _]
    exact hs hwaits
  by_cases hstart : (cmd.start s.broker).1 = true
  · rw [if_pos hstart]
    by_cases hname : cmd.topicName = name
    · subst hname
      rintro ⟨g, hg, hgwaits⟩
      -- one more pop on this topic; the guard has counted it already
      have hcount := countP_setHandler (s := { s with broker := (cmd.start s.broker).2 }) hi
        (.popping cmd pending) (Handler.popsOn cmd.topicName)
      rw [show (Handler.reading (cmd :: pending)).popsOn cmd.topicName = false from rfl,
        show (Handler.popping cmd pending).popsOn cmd.topicName = true from decide_eq_true rfl,
        if_neg Bool.false_ne_true, if_pos rfl, Nat.add_zero] at hcount
      rw [hcount]
      change _ ≤ ((cmd.start s.broker).2.ringItems cmd.topicName).length
      rw [cmd.ringItems_start]
      refine hguard cmd pending hi hstart ?_
      rcases mem_setHandler hg with hg | rfl
      · exact Or.inr ⟨g, hg, hgwaits⟩
      · rw [Handler.waitsOn, Bool.and_eq_true, decide_eq_true_iff, decide_eq_true_iff] at hgwaits
        exact Or.inl hgwaits.2
    · refine hs'.of_quiet hi ?_ ?_
      · exact decide_eq_false hname
      · rw [Handler.waitsOn, decide_eq_false hname]
        rfl
  · rw [if_neg hstart]
    exact hs'.of_quiet hi rfl rfl

theorem Supplied.finish (hs : s.Supplied name) {cmd : PopCommand} {pending : List PopCommand}
    (hi : s.handlers[i]? = some (.popping cmd pending)) {now : ℤ} {b : Broker}
    (hb : cmd.finish s.broker now = some b) :
    ({ s with broker := b }.setHandler i (.reading pending)).Supplied name := by
  rintro ⟨g, hg, hgwaits⟩
  have hlen := hs (by
    rcases mem_setHandler hg with hg | rfl
    · exact ⟨g, hg, hgwaits⟩
    · exact absurd hgwaits Bool.false_ne_true)
  have hcount := countP_setHandler (s := { s with broker := b }) hi
    (.reading pending) (Handler.popsOn name)
  rw [show (Handler.reading pending).popsOn name = false from rfl, if_neg Bool.false_ne_true,
    Nat.add_zero] at hcount
  change _ ≤ (b.ringItems name).length
  rw [PopCommand.ringItems_finish hb name]
  by_cases hname : cmd.topicName = name
  · rw [show (Handler.popping cmd pending).popsOn name = true from decide_eq_true hname,
      if_pos rfl] at hcount
    rw [if_pos hname.symm, List.length_tail]
    exact Nat.le_sub_one_of_lt (Nat.lt_of_lt_of_le (Nat.lt_of_succ_le hcount.le) hlen)
  · rw [show (Handler.popping cmd pending).popsOn name = false from decide_eq_false hname,
      if_neg Bool.false_ne_true, Nat.add_zero] at hcount
    rw [if_neg (Ne.symm hname), hcount]
    exact hlen

/-- **A step** leaves every topic supplied, as long as `main` goes on. -/
theorem supplied_step {l : ShutdownLabel} (hguard : Covered s l) (hstep : s.step l = some s')
    (h : s.main ≠ .terminated → ∀ name, s.Supplied name) (hmain : s'.main ≠ .terminated)
    (name : Bytes) : s'.Supplied name := by
  cases l with
  | receive i cmd =>
    obtain ⟨hopen, hstep⟩ := Option.ite_none_right_eq_some.mp hstep
    have hs := h (by rw [hopen]; decide) name
    split at hstep
    · rename_i pending hi
      rw [← Option.some_inj.mp hstep]
      exact hs.of_quiet hi rfl rfl
    · rename_i cmd' pending hi
      rw [← Option.some_inj.mp hstep]
      exact hs.of_quiet hi rfl rfl
    · exact absurd hstep (Option.some_ne_none _).symm
  | take i =>
    rw [step] at hstep
    split at hstep
    · rename_i cmd pending hi
      rw [← Option.some_inj.mp hstep] at hmain ⊢
      exact (h hmain name).take hi hguard
    · exact absurd hstep (Option.some_ne_none _).symm
  | finish i now =>
    rw [step] at hstep
    split at hstep
    · rename_i cmd pending hi
      obtain ⟨b, hb, rfl⟩ := Option.map_eq_some_iff.mp hstep
      exact (h hmain name).finish hi hb
    · exact absurd hstep (Option.some_ne_none _).symm
  | hangUp i =>
    rw [step] at hstep
    split at hstep
    · rename_i hi
      obtain ⟨-, hstep⟩ := Option.ite_none_left_eq_some.mp hstep
      rw [← Option.some_inj.mp hstep] at hmain ⊢
      exact (h hmain name).of_quiet hi rfl rfl
    · exact absurd hstep (Option.some_ne_none _).symm
  | main =>
    rw [step, mainStep] at hstep
    split at hstep
    · rename_i hs
      rw [← Option.some_inj.mp hstep]
      exact h (by rw [hs]; decide) name
    · rename_i hs
      obtain ⟨-, hstep⟩ := Option.ite_none_right_eq_some.mp hstep
      rw [← Option.some_inj.mp hstep]
      exact h (by rw [hs]; decide) name
    · rename_i hs
      rw [← Option.some_inj.mp hstep]
      exact h (by rw [hs]; decide) name
    · rw [← Option.some_inj.mp hstep] at hmain
      exact absurd rfl hmain
    · exact absurd hstep (Option.some_ne_none _).symm

/-! ### Something can happen -/

/-- A handler that is not finished can go on, once its connection has been closed. -/
theorem exists_step_of_handler (hclosed : s.main ≠ .stopServer)
    (hsupplied : ∀ name, s.Supplied name) {h : Handler} (hmem : h ∈ s.handlers)
    (hunfinished : h.isFinished = false) :
    ∃ l : ShutdownLabel, l.internal = true ∧ (s.step l).isSome := by
  obtain ⟨i, hi⟩ := List.mem_iff_getElem?.mp hmem
  cases h with
  | reading pending =>
    cases pending with
    | nil =>
      refine ⟨.hangUp i, rfl, ?_⟩
      simp only [step, hi, if_neg hclosed, Option.isSome_some]
    | cons cmd pending =>
      refine ⟨.take i, rfl, ?_⟩
      simp only [step, hi, Option.isSome_some]
  | popping cmd pending =>
    refine ⟨.finish i 0, rfl, ?_⟩
    simp only [step, hi, Option.isSome_map]
    refine PopCommand.finish_isSome ?_ 0
    by_cases htimeout : cmd.timeout = 0
    · refine Or.inr fun hempty ↦ ?_
      have hpops : (Handler.popping cmd pending).popsOn cmd.topicName = true := decide_eq_true rfl
      have hwaits : (Handler.popping cmd pending).waitsOn cmd.topicName = true := by
        rw [Handler.waitsOn, decide_eq_true htimeout, decide_eq_true rfl, Bool.and_true]
      have hle := hsupplied cmd.topicName ⟨_, hmem, hwaits⟩
      rw [hempty, List.length_nil] at hle
      exact absurd (List.countP_pos_iff.mpr ⟨_, hmem, hpops⟩) (Nat.not_lt.mpr hle)
    · exact Or.inl htimeout
  | finished => exact absurd hunfinished Bool.noConfusion

private theorem exists_step (hmain : s.main ≠ .terminated) (hsupplied : ∀ name, s.Supplied name) :
    ∃ l : ShutdownLabel, l.internal = true ∧ (s.step l).isSome := by
  cases hs : s.main with
  | stopServer => exact ⟨.main, rfl, by simp only [step, mainStep, hs, Option.isSome_some]⟩
  | waitHandlers =>
    by_cases hall : s.handlers.all Handler.isFinished = true
    · refine ⟨.main, rfl, ?_⟩
      simp only [step, mainStep, hs, if_pos hall, Option.isSome_some]
    · rw [List.all_eq_true] at hall
      push Not at hall
      obtain ⟨h, hmem, hunfinished⟩ := hall
      exact exists_step_of_handler (by rw [hs]; decide) hsupplied hmem
        (Bool.eq_false_iff.mpr hunfinished)
  | stopHttp => exact ⟨.main, rfl, by simp only [step, mainStep, hs, Option.isSome_some]⟩
  | closeBroker => exact ⟨.main, rfl, by simp only [step, mainStep, hs, Option.isSome_some]⟩
  | terminated => exact absurd hs hmain

/-- **Shutdown does not get stuck**, whatever handlers there are and whatever they do, as long as
pops without a deadline are in progress only where there are enough messages. -/
theorem not_stuck_of_covered {s₀ : ShutdownState} {labels : List ShutdownLabel}
    (hsupplied : ∀ name, s₀.Supplied name) (hrun : Run step (fun _ ↦ True) s₀ labels s)
    (hguard : Run.Guarded step Covered s₀ labels) : ¬s.Stuck := by
  have hinv := hrun.invariant_of_guarded
    (I := fun s : ShutdownState ↦ s.main ≠ .terminated → ∀ name, s.Supplied name)
    (fun _ _ _ hguard hstep h ↦ supplied_step hguard hstep h) hguard fun _ ↦ hsupplied
  rintro ⟨hmain, hnone⟩
  obtain ⟨l, hinternal, hsome⟩ := exists_step hmain (hinv hmain)
  rw [hnone l hinternal] at hsome
  exact Bool.false_ne_true hsome

/-! ### Shutdown comes to an end -/

def handlerSteps : Handler → ℕ
  | .reading pending => 2 * pending.length + 1
  | .popping _ pending => 2 * pending.length + 2
  | .finished => 0

def mainSteps : MainStep → ℕ
  | .stopServer => 4
  | .waitHandlers => 3
  | .stopHttp => 2
  | .closeBroker => 1
  | .terminated => 0

/-- How many steps are left, if no client sends anything. -/
def remaining (s : ShutdownState) : ℕ := mainSteps s.main + (s.handlers.map handlerSteps).sum

private theorem sum_set {handlers : List Handler} {h : Handler} (hi : handlers[i]? = some h)
    (h' : Handler) :
    ((handlers.set i h').map handlerSteps).sum + handlerSteps h
      = (handlers.map handlerSteps).sum + handlerSteps h' := by
  obtain ⟨hlt, hget⟩ := List.getElem?_eq_some_iff.mp hi
  have hperm := List.getElem_cons_eraseIdx_perm hlt
  have hperm' := List.set_perm_cons_eraseIdx hlt h'
  have hsum := (hperm.map handlerSteps).sum_eq
  have hsum' := (hperm'.map handlerSteps).sum_eq
  rw [hget, List.map_cons, List.sum_cons] at hsum
  rw [List.map_cons, List.sum_cons] at hsum'
  rw [hsum', ← hsum]
  omega

/-- Every step that does not depend on a client brings the end closer. -/
theorem remaining_step {l : ShutdownLabel} (hinternal : l.internal = true)
    (hstep : s.step l = some s') : s'.remaining < s.remaining := by
  cases l with
  | receive i cmd => exact absurd hinternal Bool.false_ne_true
  | take i =>
    rw [step] at hstep
    split at hstep
    · rename_i cmd pending hi
      rw [← Option.some_inj.mp hstep]
      have hsum := sum_set hi
        (if (cmd.start s.broker).1 then .popping cmd pending else .reading pending)
      have hlt : handlerSteps
          (if (cmd.start s.broker).1 then .popping cmd pending else .reading pending)
          < handlerSteps (.reading (cmd :: pending)) := by
        split <;> simp only [handlerSteps, List.length_cons] <;> omega
      refine Nat.add_lt_add_left ?_ (mainSteps s.main)
      change (List.map handlerSteps (s.handlers.set i _)).sum < _
      omega
    · exact absurd hstep (Option.some_ne_none _).symm
  | finish i now =>
    rw [step] at hstep
    split at hstep
    · rename_i cmd pending hi
      obtain ⟨b, -, rfl⟩ := Option.map_eq_some_iff.mp hstep
      have hsum := sum_set hi (.reading pending)
      refine Nat.add_lt_add_left ?_ (mainSteps s.main)
      change (List.map handlerSteps (s.handlers.set i _)).sum < _
      simp only [handlerSteps] at hsum
      omega
    · exact absurd hstep (Option.some_ne_none _).symm
  | hangUp i =>
    rw [step] at hstep
    split at hstep
    · rename_i hi
      obtain ⟨-, hstep⟩ := Option.ite_none_left_eq_some.mp hstep
      rw [← Option.some_inj.mp hstep]
      have hsum := sum_set hi .finished
      refine Nat.add_lt_add_left ?_ (mainSteps s.main)
      change (List.map handlerSteps (s.handlers.set i _)).sum < _
      simp only [handlerSteps, List.length_nil] at hsum
      omega
    · exact absurd hstep (Option.some_ne_none _).symm
  | main =>
    have hmain : mainSteps s'.main < mainSteps s.main ∧ s'.handlers = s.handlers := by
      rw [step, mainStep] at hstep
      split at hstep
      case h_2 =>
        rename_i hs
        obtain ⟨-, hstep⟩ := Option.ite_none_right_eq_some.mp hstep
        rw [← Option.some_inj.mp hstep, hs]
        exact ⟨Nat.lt_succ_self _, rfl⟩
      case h_5 => exact absurd hstep (Option.some_ne_none _).symm
      all_goals
        rename_i hs
        rw [← Option.some_inj.mp hstep, hs]
        exact ⟨Nat.lt_succ_self _, rfl⟩
    rw [remaining, remaining, hmain.2]
    exact Nat.add_lt_add_right hmain.1 _

/-- Once the clients are silent, the number of further steps is bounded. A run that takes them all
and is never stuck ends with the termination of `main`. -/
theorem length_add_remaining_le {labels : List ShutdownLabel}
    (hrun : Run step (fun _ ↦ True) s labels s') (hinternal : ∀ l ∈ labels, l.internal = true) :
    labels.length + s'.remaining ≤ s.remaining := by
  induction hrun with
  | nil _ => exact (Nat.zero_add _).le
  | @cons s u t l labels _ hstep _ ih =>
    have hrest := ih fun l hl ↦ hinternal l (List.mem_cons_of_mem _ hl)
    have hlt := remaining_step (hinternal l List.mem_cons_self) hstep
    rw [List.length_cons]
    omega

/-! ### One message, one waiting client -/

def brokerWith (msgs : List Message) : Broker :=
  msgs.foldl Broker.recover ((Broker.newBroker none 0).getOrCreateTopic (bytesOf "q")).2

def twoMessages : List Message :=
  [Message.newMessage (bytesOf "q") (some (bytesOf "a")) 0 1 [171, 205],
    Message.newMessage (bytesOf "q") (some (bytesOf "b")) 0 2 [171, 206]]

/-- The signal arrives while one client waits without a deadline; another has sent a command with
one. -/
def oneWaiting (msgs : List Message) : ShutdownState where
  broker := brokerWith msgs
  main := .stopServer
  handlers := [.popping (.consume (bytesOf "q") 0) [], .reading [.consume (bytesOf "q") 1000]]

private theorem supplied_oneWaiting (name : Bytes) : (oneWaiting twoMessages).Supplied name := by
  rintro ⟨h, hmem, hwaits⟩
  have hname : bytesOf "q" = name := by
    rcases List.mem_cons.mp hmem with rfl | hmem
    · rw [Handler.waitsOn, Bool.and_eq_true, decide_eq_true_iff] at hwaits
      exact hwaits.1
    · rw [List.mem_singleton.mp hmem] at hwaits
      exact absurd hwaits Bool.false_ne_true
  subst hname
  decide +kernel

/-- With a message for each of the two clients, `main` does not get stuck behind them. -/
theorem not_stuck_of_covered_oneWaiting :
    ∃ s, Run step (fun _ ↦ True) (oneWaiting twoMessages)
        [.take 1, .main, .finish 1 0, .finish 0 0] s ∧
      s.main = .waitHandlers ∧ ¬s.Stuck := by
  have hsome : (Run.exec step (fun _ ↦ True) (oneWaiting twoMessages)
      [.take 1, .main, .finish 1 0, .finish 0 0]).isSome := by decide +kernel
  have hrun := Run.of_exec (Option.some_get hsome).symm
  have htake : Covered (oneWaiting twoMessages) (.take 1) := by
    intro cmd pending hi _ _
    have hcmd : PopCommand.consume (bytesOf "q") 1000 = cmd :=
      (List.cons.inj (Handler.reading.inj (Option.some_inj.mp hi))).1
    rw [← hcmd]
    decide +kernel
  have hguard : Run.Guarded step Covered (oneWaiting twoMessages)
      [.take 1, .main, .finish 1 0, .finish 0 0] :=
    ⟨htake, fun _ _ ↦ ⟨trivial, fun _ _ ↦ ⟨trivial, fun _ _ ↦ ⟨trivial, fun _ _ ↦ trivial⟩⟩⟩⟩
  exact ⟨_, hrun, hrun.of_exec_map (f := ShutdownState.main) (by decide +kernel),
    not_stuck_of_covered supplied_oneWaiting hrun hguard⟩

/-- **Stuck.** Without a message, `main` waits for a handler that only a later step of `main` could
wake. -/
theorem stuck_behind_waiting_client :
    ∃ s, Run step (fun _ ↦ True) (oneWaiting []) [.main, .take 1, .finish 1 0, .hangUp 1] s ∧
      s.Stuck := by
  have hsome : (Run.exec step (fun _ ↦ True) (oneWaiting [])
      [.main, .take 1, .finish 1 0, .hangUp 1]).isSome := by decide +kernel
  have hrun := Run.of_exec (Option.some_get hsome).symm
  obtain ⟨s, hs⟩ : ∃ s, s = (Run.exec step (fun _ ↦ True) (oneWaiting [])
      [.main, .take 1, .finish 1 0, .hangUp 1]).get hsome := ⟨_, rfl⟩
  rw [← hs] at hrun
  have hmain := hrun.of_exec_map (f := ShutdownState.main) (a := .waitHandlers) (by decide +kernel)
  have hhandlers := hrun.of_exec_map (f := ShutdownState.handlers)
    (a := [.popping (.consume (bytesOf "q") 0) [], .finished]) (by decide +kernel)
  have hwaits := hrun.of_exec_map (f := fun s ↦ (s.broker.consume (bytesOf "q") 0).isNone)
    (a := true) (by decide +kernel)
  refine ⟨s, hrun, by rw [hmain]; decide, fun l hinternal ↦ ?_⟩
  cases l with
  | receive i cmd => exact absurd hinternal Bool.false_ne_true
  | take i =>
    rw [step, hhandlers]
    rcases i with - | - | i <;> rfl
  | finish i now =>
    rw [step, hhandlers]
    rcases i with - | - | i
    · change ((s.broker.consume (bytesOf "q") 0).map Prod.snd).map _ = none
      rw [Option.isNone_iff_eq_none.mp hwaits]
      rfl
    · rfl
    · rfl
  | hangUp i =>
    rw [step, hhandlers]
    rcases i with - | - | i <;> rfl
  | main =>
    rw [step, mainStep, hmain, hhandlers]
    rfl

end ShutdownState

end VortexMQ
