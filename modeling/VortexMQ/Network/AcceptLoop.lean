import VortexMQ.Basic.Run
import VortexMQ.Network.Authentication

/-!
# Accepting and stopping

`acceptLoop`, the connection handlers and `Server.Stop`, one critical section or call at a time, in
any interleaving. A connection is a number. What a handler reads from a closed connection is what
had arrived before, and it may fail to read at any time, so whether a connection is closed does not
show in the steps.

`Stop` waits for the handlers that have been counted, and `acceptLoop` counts a handler some time
after `Accept` has given it the connection. In between it takes the lock, but it does not look at
the flag that `Stop` has set.
-/

namespace VortexMQ

/-- Where `acceptLoop` is. -/
inductive AcceptPhase where
  /-- In `Accept`. -/
  | accept
  /-- `Accept` has returned an error. -/
  | failed
  /-- `Accept` has returned a connection, and the lock is to be taken. -/
  | accepted (conn : ℕ)
  /-- There are too many clients, and the connection is to be closed. -/
  | refused (conn : ℕ)
  /-- The connection is in the map, and `s.wg.Add(1)` is next. -/
  | registered (conn : ℕ)
  /-- The handler is counted, and is to be started. -/
  | counted (conn : ℕ)
  | returned
  deriving DecidableEq

/-- Where a handler is. -/
inductive ServePhase where
  /-- In its loop. -/
  | serving (session : Session)
  /-- In the deferred function, before it takes the lock. -/
  | leaving
  /-- Its connection is no longer in the map, and `s.wg.Done()` is next. -/
  | deleted

def ServePhase.isDeleted : ServePhase → Bool
  | .deleted => true
  | _ => false

structure ConnHandler where
  conn : ℕ
  phase : ServePhase

/-- Where the first call of `Stop` is. -/
inductive StopPhase where
  | notCalled
  /-- In `s.wg.Wait()`. -/
  | waiting
  | returned
  deriving DecidableEq

/-- The state of the server. -/
structure Listening where
  acceptLoop : AcceptPhase
  stop : StopPhase
  /-- Some call of `Stop` has returned. -/
  stopped : Bool
  /-- `s.conns`. -/
  conns : List ℕ
  /-- `s.closed`. -/
  closed : Bool
  /-- The listener has not been closed. -/
  isOpen : Bool
  wg : ℕ
  /-- The handlers that have not called `s.wg.Done()`. -/
  handlers : List ConnHandler
  broker : Broker
  /-- The number of connections so far. -/
  dialled : ℕ

namespace Listening

/-- After `Start`. -/
def start (b : Broker) : Listening where
  acceptLoop := .accept
  stop := .notCalled
  stopped := false
  conns := []
  closed := false
  isOpen := true
  wg := 0
  handlers := []
  broker := b
  dialled := 0

inductive Label where
  /-- `Accept` returns a connection. -/
  | dial
  /-- `Accept` returns an error. -/
  | acceptError
  /-- `acceptLoop` looks at the flag. -/
  | checkFlag
  /-- The critical section of `acceptLoop`. -/
  | register
  | refuse
  | count
  | spawn
  /-- A handler reads a command and executes it. -/
  | command (i : ℕ) (cmd : Command) (buffered : ℕ) (env : Env)
  /-- A handler fails to read. -/
  | hangup (i : ℕ)
  | unregister (i : ℕ)
  | done (i : ℕ)
  /-- The critical section of `Stop`. It takes effect when it closes the listener: until then
  `Accept`, which does not need the lock, may return a connection. -/
  | stop
  /-- `s.wg.Wait()` returns. -/
  | wait
  /-- A later call of `Stop`, which finds the flag set and returns. -/
  | stopAgain
  /-- The rest of the process changes the broker. -/
  | others (b : Broker)

/-- The handler goes on, or to its deferred function. -/
def phaseOf (session : Session) : ServePhase :=
  if session.live then .serving session else .leaving

def setPhase (s : Listening) (i : ℕ) (conn : ℕ) (phase : ServePhase) : Listening :=
  { s with handlers := s.handlers.set i ⟨conn, phase⟩ }

/-- One step. The limit is `s.cfg.MaxClients`. -/
def step (srv : Server) (maxClients : ℤ) (s : Listening) : Label → Option Listening
  | .dial =>
      if s.acceptLoop = .accept ∧ s.isOpen then
        some { s with acceptLoop := .accepted s.dialled, dialled := s.dialled + 1 }
      else none
  | .acceptError =>
      if s.acceptLoop = .accept then some { s with acceptLoop := .failed } else none
  | .checkFlag =>
      if s.acceptLoop = .failed then
        some { s with acceptLoop := if s.closed then .returned else .accept }
      else none
  | .register =>
      match s.acceptLoop with
      | .accepted conn =>
          if 0 < maxClients ∧ maxClients ≤ s.conns.length then
            some { s with acceptLoop := .refused conn }
          else some { s with acceptLoop := .registered conn, conns := conn :: s.conns }
      | _ => none
  | .refuse =>
      match s.acceptLoop with
      | .refused _ => some { s with acceptLoop := .accept }
      | _ => none
  | .count =>
      match s.acceptLoop with
      | .registered conn => some { s with acceptLoop := .counted conn, wg := s.wg + 1 }
      | _ => none
  | .spawn =>
      match s.acceptLoop with
      | .counted conn =>
          some { s with
            acceptLoop := .accept
            handlers := s.handlers ++ [⟨conn, .serving (Session.start srv s.broker)⟩] }
      | _ => none
  | .command i cmd buffered env =>
      match s.handlers[i]? with
      | some ⟨conn, .serving session⟩ =>
          ((session.onto s.broker).step srv (.command cmd buffered env)).map fun session' ↦
            { s.setPhase i conn (phaseOf session') with broker := session'.conn.broker }
      | _ => none
  | .hangup i =>
      match s.handlers[i]? with
      | some ⟨conn, .serving _⟩ => some (s.setPhase i conn .leaving)
      | _ => none
  | .unregister i =>
      match s.handlers[i]? with
      | some ⟨conn, .leaving⟩ =>
          some { s.setPhase i conn .deleted with conns := s.conns.filter fun c ↦ c ≠ conn }
      | _ => none
  | .done i =>
      match s.handlers[i]? with
      | some ⟨_, .deleted⟩ =>
          some { s with handlers := s.handlers.eraseIdx i, wg := s.wg - 1 }
      | _ => none
  | .stop =>
      if s.stop = .notCalled then
        some { s with closed := true, isOpen := false, stop := .waiting }
      else none
  | .wait =>
      if s.stop = .waiting ∧ s.wg = 0 then some { s with stop := .returned, stopped := true }
      else none
  | .stopAgain => if s.closed then some { s with stopped := true } else none
  | .others b => some { s with broker := b }

/-- Nothing is left: no connection, no handler, and so nothing that could execute a command. -/
def Finished (s : Listening) : Prop := s.conns = [] ∧ s.handlers = []

/-- `acceptLoop` has a connection whose handler is not counted. -/
def Holding : AcceptPhase → Prop
  | .accepted _ | .registered _ => True
  | _ => False

instance (phase : AcceptPhase) : Decidable (Holding phase) := by
  cases phase <;> unfold Holding <;> infer_instance

/-- `Stop` does not close the listener while it has, and is not called again before it has
returned. -/
def Clear (s : Listening) : Label → Prop
  | .stop => ¬Holding s.acceptLoop
  | .stopAgain => s.stop = .returned
  | _ => True

instance (s : Listening) (l : Label) : Decidable (s.Clear l) := by
  cases l <;> unfold Clear <;> infer_instance

/-! ## The invariant -/

/-- A connection in the map belongs to a handler, or to `acceptLoop`. -/
def Owned (s : Listening) (conn : ℕ) : Prop :=
  (∃ h ∈ s.handlers, h.conn = conn ∧ h.phase.isDeleted = false) ∨
    s.acceptLoop = .registered conn ∨ s.acceptLoop = .counted conn

def pending : AcceptPhase → ℕ
  | .counted _ => 1
  | _ => 0

structure Orderly (s : Listening) : Prop where
  wg : s.wg = s.handlers.length + pending s.acceptLoop
  conns : ∀ conn ∈ s.conns, s.Owned conn
  closed : s.stop ≠ .notCalled → s.isOpen = false ∧ ¬Holding s.acceptLoop
  waited : s.stop = .returned → s.wg = 0
  stopped : s.stopped = true → s.stop = .returned

private theorem orderly_start (b : Broker) : (start b).Orderly where
  wg := rfl
  conns := fun _ h ↦ absurd h List.not_mem_nil
  closed := fun h ↦ absurd rfl h
  waited := nofun
  stopped := nofun

theorem Orderly.finished {s : Listening} (h : s.Orderly) (hstopped : s.stopped = true) :
    s.Finished := by
  have hstop := h.stopped hstopped
  have hwg := h.wg
  rw [h.waited hstop] at hwg
  have hhandlers : s.handlers = [] := List.length_eq_zero_iff.mp (by omega)
  have hpending : pending s.acceptLoop = 0 := by omega
  have hholding := (h.closed (by rw [hstop]; exact nofun)).2
  refine ⟨List.eq_nil_iff_forall_not_mem.mpr fun conn hconn ↦ ?_, hhandlers⟩
  rcases h.conns conn hconn with ⟨handler, hmem, -⟩ | haccept | haccept
  · rw [hhandlers] at hmem
    exact List.not_mem_nil hmem
  · rw [haccept] at hholding
    exact hholding trivial
  · rw [haccept] at hpending
    exact Nat.one_ne_zero hpending

/-! ## The steps -/

section Steps

variable {s t : Listening} {i conn c : ℕ} {phase phase' : ServePhase}

theorem Owned.setPhase (h : s.Owned c) (hi : s.handlers[i]? = some ⟨conn, phase⟩)
    (hphase : c = conn → phase'.isDeleted = false) : (s.setPhase i conn phase').Owned c := by
  rcases h with ⟨owner, hmem, rfl, hdeleted⟩ | haccept
  · left
    obtain ⟨j, hj⟩ := List.mem_iff_getElem?.mp hmem
    by_cases hij : i = j
    · subst hij
      obtain rfl := Option.some_inj.mp (hi.symm.trans hj)
      have hlt : i < s.handlers.length := (List.getElem?_eq_some_iff.mp hi).1
      exact ⟨_, List.mem_set hlt _, rfl, hphase rfl⟩
    · refine ⟨owner, List.mem_of_getElem? (i := j) ?_, rfl, hdeleted⟩
      rw [Listening.setPhase, List.getElem?_set_ne hij]
      exact hj
  · exact Or.inr haccept

theorem Owned.eraseIdx (h : s.Owned c) (hi : s.handlers[i]? = some ⟨conn, .deleted⟩) :
    Owned { s with handlers := s.handlers.eraseIdx i, wg := s.wg - 1 } c := by
  rcases h with ⟨owner, hmem, hconn, hdeleted⟩ | haccept
  · left
    obtain ⟨j, hj⟩ := List.mem_iff_getElem?.mp hmem
    have hij : j ≠ i := by
      rintro rfl
      obtain rfl := Option.some_inj.mp (hi.symm.trans hj)
      exact Bool.false_ne_true hdeleted.symm
    exact ⟨owner, List.mem_eraseIdx_iff_getElem?.mpr ⟨j, hij, hj⟩, hconn, hdeleted⟩
  · exact Or.inr haccept

theorem Orderly.setPhase (h : s.Orderly) (hi : s.handlers[i]? = some ⟨conn, phase⟩)
    (hphase : phase'.isDeleted = false) (b : Broker) :
    Orderly { s.setPhase i conn phase' with broker := b } where
  wg := h.wg.trans (congrArg (· + _) List.length_set.symm)
  conns := fun c hc ↦ (h.conns c hc).setPhase hi fun _ ↦ hphase
  closed := h.closed
  waited := h.waited
  stopped := h.stopped

theorem Orderly.moveOn (h : s.Orderly) {next : AcceptPhase}
    (hpending : pending next = pending s.acceptLoop)
    (howned : ∀ conn, s.acceptLoop ≠ .registered conn ∧ s.acceptLoop ≠ .counted conn)
    (hholding : s.stop ≠ .notCalled → ¬Holding next) (n : ℕ) :
    Orderly { s with acceptLoop := next, dialled := n } where
  wg := by
    rw [h.wg, ← hpending]
  conns := fun c hc ↦ Or.inl ((h.conns c hc).resolve_right fun haccept ↦
    haccept.elim (howned c).1 (howned c).2)
  closed := fun hstop ↦ ⟨(h.closed hstop).1, hholding hstop⟩
  waited := h.waited
  stopped := h.stopped

/-- **A step keeps order**, if `Stop` does not come at the wrong time. -/
theorem Orderly.step {srv : Server} {maxClients : ℤ} {l : Label} (h : s.Orderly)
    (hclear : s.Clear l) (hstep : s.step srv maxClients l = some t) : t.Orderly := by
  cases l with
  | dial =>
    rw [Listening.step, Option.ite_none_right_eq_some, Option.some_inj] at hstep
    obtain ⟨⟨haccept, hopen⟩, rfl⟩ := hstep
    refine h.moveOn (by rw [haccept]; rfl) (fun conn ↦ by rw [haccept]; exact ⟨nofun, nofun⟩)
      (fun hstop ↦ ?_) _
    exact absurd ((h.closed hstop).1.symm.trans hopen) Bool.false_ne_true
  | acceptError =>
    rw [Listening.step, Option.ite_none_right_eq_some, Option.some_inj] at hstep
    obtain ⟨haccept, rfl⟩ := hstep
    exact h.moveOn (by rw [haccept]; rfl) (fun conn ↦ by rw [haccept]; exact ⟨nofun, nofun⟩)
      (fun _ ↦ id) _
  | checkFlag =>
    rw [Listening.step, Option.ite_none_right_eq_some, Option.some_inj] at hstep
    obtain ⟨haccept, rfl⟩ := hstep
    refine h.moveOn ?_ (fun conn ↦ by rw [haccept]; exact ⟨nofun, nofun⟩) (fun _ ↦ ?_) _
    · rw [haccept]
      split <;> rfl
    · split <;> exact id
  | register =>
    rw [Listening.step] at hstep
    split at hstep
    · rename_i conn haccept
      split at hstep
      · obtain rfl := Option.some_inj.mp hstep
        exact h.moveOn (by rw [haccept]; rfl) (fun conn ↦ by rw [haccept]; exact ⟨nofun, nofun⟩)
          (fun _ ↦ id) _
      · obtain rfl := Option.some_inj.mp hstep
        have hrunning : s.stop = .notCalled := by
          by_contra hstop
          exact (h.closed hstop).2 (haccept ▸ trivial)
        refine ⟨?_, fun c hc ↦ ?_, fun hstop ↦ absurd hrunning hstop, h.waited,
          h.stopped⟩
        · rw [h.wg, haccept]
          rfl
        · rcases List.mem_cons.mp hc with rfl | hc
          · exact Or.inr (Or.inl rfl)
          · refine Or.inl ((h.conns c hc).resolve_right ?_)
            rw [haccept]
            exact fun hor ↦ hor.elim nofun nofun
    · exact absurd hstep (Option.some_ne_none _).symm
  | refuse =>
    rw [Listening.step] at hstep
    split at hstep
    · rename_i conn haccept
      obtain rfl := Option.some_inj.mp hstep
      exact h.moveOn (by rw [haccept]; rfl) (fun conn ↦ by rw [haccept]; exact ⟨nofun, nofun⟩)
        (fun _ ↦ id) _
    · exact absurd hstep (Option.some_ne_none _).symm
  | count =>
    rw [Listening.step] at hstep
    split at hstep
    · rename_i conn haccept
      obtain rfl := Option.some_inj.mp hstep
      have hrunning : s.stop = .notCalled := by
        by_contra hstop
        exact (h.closed hstop).2 (haccept ▸ trivial)
      refine ⟨?_, fun c hc ↦ ?_, fun hstop ↦ absurd hrunning hstop, fun hstop ↦ ?_,
        h.stopped⟩
      · rw [h.wg, haccept]
        rfl
      · rcases h.conns c hc with hhandler | hregistered | hcounted
        · exact Or.inl hhandler
        · rw [haccept] at hregistered
          obtain rfl := AcceptPhase.registered.inj hregistered
          exact Or.inr (Or.inr rfl)
        · rw [haccept] at hcounted
          exact nomatch hcounted
      · rw [hrunning] at hstop
        exact nomatch hstop
    · exact absurd hstep (Option.some_ne_none _).symm
  | spawn =>
    rw [Listening.step] at hstep
    split at hstep
    · rename_i conn haccept
      obtain rfl := Option.some_inj.mp hstep
      refine ⟨?_, fun c hc ↦ ?_, fun hstop ↦ ⟨(h.closed hstop).1, id⟩, h.waited, h.stopped⟩
      · rw [h.wg, haccept, List.length_append]
        rfl
      · rcases h.conns c hc with ⟨owner, hmem, howner⟩ | hregistered | hcounted
        · exact Or.inl ⟨owner, List.mem_append_left _ hmem, howner⟩
        · rw [haccept] at hregistered
          exact nomatch hregistered
        · rw [haccept] at hcounted
          obtain rfl := AcceptPhase.counted.inj hcounted
          exact Or.inl ⟨_, List.mem_append_right _ List.mem_cons_self, rfl, rfl⟩
    · exact absurd hstep (Option.some_ne_none _).symm
  | command i cmd buffered env =>
    rw [Listening.step] at hstep
    split at hstep
    · rename_i conn session hi
      obtain ⟨session', -, rfl⟩ := Option.map_eq_some_iff.mp hstep
      refine h.setPhase hi ?_ _
      rw [phaseOf]
      split <;> rfl
    · exact absurd hstep (Option.some_ne_none _).symm
  | hangup i =>
    rw [Listening.step] at hstep
    split at hstep
    · rename_i conn session hi
      obtain rfl := Option.some_inj.mp hstep
      exact h.setPhase hi rfl s.broker
    · exact absurd hstep (Option.some_ne_none _).symm
  | unregister i =>
    rw [Listening.step] at hstep
    split at hstep
    · rename_i conn hi
      obtain rfl := Option.some_inj.mp hstep
      refine ⟨h.wg.trans (congrArg (· + _) List.length_set.symm), fun c hc ↦ ?_, h.closed,
        h.waited, h.stopped⟩
      obtain ⟨hmem, hne⟩ := List.mem_filter.mp hc
      exact (h.conns c hmem).setPhase hi fun heq ↦ absurd heq (of_decide_eq_true hne)
    · exact absurd hstep (Option.some_ne_none _).symm
  | done i =>
    rw [Listening.step] at hstep
    split at hstep
    · rename_i conn hi
      obtain rfl := Option.some_inj.mp hstep
      have hlt : i < s.handlers.length := (List.getElem?_eq_some_iff.mp hi).1
      have hlen := List.length_eraseIdx_of_lt hlt
      have hwg := h.wg
      refine ⟨?_, fun c hc ↦ (h.conns c hc).eraseIdx hi, h.closed, fun hstop ↦ ?_,
        h.stopped⟩
      · change s.wg - 1 = (s.handlers.eraseIdx i).length + pending s.acceptLoop
        omega
      · change s.wg - 1 = 0
        rw [h.waited hstop]
    · exact absurd hstep (Option.some_ne_none _).symm
  | stop =>
    rw [Listening.step, Option.ite_none_right_eq_some, Option.some_inj] at hstep
    obtain ⟨hrunning, rfl⟩ := hstep
    refine ⟨h.wg, h.conns, fun _ ↦ ⟨rfl, hclear⟩, nofun, fun hstopped ↦ ?_⟩
    exact nomatch hrunning.symm.trans (h.stopped hstopped)
  | wait =>
    rw [Listening.step, Option.ite_none_right_eq_some, Option.some_inj] at hstep
    obtain ⟨⟨hwaiting, hwg⟩, rfl⟩ := hstep
    refine ⟨h.wg, h.conns, fun _ ↦ h.closed ?_, fun _ ↦ hwg, fun _ ↦ rfl⟩
    rw [hwaiting]
    exact nofun
  | stopAgain =>
    rw [Listening.step, Option.ite_none_right_eq_some, Option.some_inj] at hstep
    obtain ⟨-, rfl⟩ := hstep
    exact ⟨h.wg, h.conns, h.closed, h.waited, fun _ ↦ hclear⟩
  | others b =>
    obtain rfl := Option.some_inj.mp hstep
    exact ⟨h.wg, h.conns, h.closed, h.waited, h.stopped⟩

end Steps

/-! ## The end -/

/-- **`Stop` is final** in every run in which `acceptLoop` has no connection whose handler is not
yet counted when `Stop` closes the listener, and `Stop` is not called again before it returns:
whenever it has returned, the map is empty, no handler runs, and no command can be executed. -/
theorem finished_of_clear (srv : Server) (maxClients : ℤ) (b : Broker) {labels : List Label}
    {t : Listening}
    (hrun : Run (step srv maxClients) (fun _ ↦ True) (start b) labels t)
    (hclear : Run.Guarded (step srv maxClients) Clear (start b) labels)
    (hstopped : t.stopped = true) :
    t.Finished ∧
      ∀ i cmd buffered env, t.step srv maxClients (.command i cmd buffered env) = none := by
  have horderly := hrun.invariant_of_guarded (I := Orderly)
    (fun _ _ _ hclear hstep h ↦ h.step hclear hstep) hclear (orderly_start b)
  have hfinished := horderly.finished hstopped
  refine ⟨hfinished, fun i cmd buffered env ↦ ?_⟩
  rw [step, hfinished.2]
  rfl

/-- A client comes and sends a command, `Stop` disconnects it and waits for its handler. -/
theorem finished_of_clear_one_client :
    ∃ t, Run (step Session.openServer 0) (fun _ ↦ True) (start (Broker.newBroker none 0))
        [.dial, .register, .count, .spawn,
          .command 0 ⟨bytesOf "RPUSH", [some (bytesOf "q"), some (bytesOf "x")]⟩ 0
            Session.restingEnv,
          .stop, .acceptError, .checkFlag, .hangup 0, .unregister 0, .done 0, .wait,
          .stopAgain] t ∧
      t.Finished := by
  have hsome : (Run.exec (step Session.openServer 0) (fun _ ↦ True)
      (start (Broker.newBroker none 0))
      [.dial, .register, .count, .spawn,
        .command 0 ⟨bytesOf "RPUSH", [some (bytesOf "q"), some (bytesOf "x")]⟩ 0
          Session.restingEnv,
        .stop, .acceptError, .checkFlag, .hangup 0, .unregister 0, .done 0, .wait,
          .stopAgain]).isSome := by
    decide +kernel
  have hrun := Run.of_exec (Option.some_get hsome).symm
  have hcheck : Run.checkGuard (step Session.openServer 0) (fun s l ↦ decide (s.Clear l))
      (start (Broker.newBroker none 0))
      [.dial, .register, .count, .spawn,
        .command 0 ⟨bytesOf "RPUSH", [some (bytesOf "q"), some (bytesOf "x")]⟩ 0
          Session.restingEnv,
        .stop, .acceptError, .checkFlag, .hangup 0, .unregister 0, .done 0, .wait,
          .stopAgain] = true := by
    decide +kernel
  have hclear := Run.guarded_of_checkGuard hcheck
  simp only [decide_eq_true_eq] at hclear
  have hstopped := hrun.of_exec_map (f := fun s ↦ s.stopped) (a := true) (by decide +kernel)
  exact ⟨_, hrun, (finished_of_clear _ _ _ hrun hclear hstopped).1⟩

/-- A client is accepted, `Stop` finds nobody to wait for and returns, and then the client is
registered and served. -/
theorem served_after_stop :
    ∃ t, Run (step Session.openServer 0) (fun _ ↦ True) (start (Broker.newBroker none 0))
        [.dial, .stop, .wait, .register, .count, .spawn,
          .command 0 ⟨bytesOf "RPUSH", [some (bytesOf "q"), some (bytesOf "x")]⟩ 0
            Session.restingEnv] t ∧
      t.stopped = true ∧ t.conns = [0] ∧ t.handlers.length = 1 ∧
      (t.broker.ringItems (bytesOf "q")).map Message.payload = [some (bytesOf "x")] ∧
      ¬t.Finished := by
  have hsome : (Run.exec (step Session.openServer 0) (fun _ ↦ True)
      (start (Broker.newBroker none 0))
      [.dial, .stop, .wait, .register, .count, .spawn,
        .command 0 ⟨bytesOf "RPUSH", [some (bytesOf "q"), some (bytesOf "x")]⟩ 0
          Session.restingEnv]).isSome := by decide +kernel
  have hrun := Run.of_exec (Option.some_get hsome).symm
  have hend := hrun.of_exec_map (f := fun s ↦ (s.stopped, s.conns, s.handlers.length))
    (a := (true, [0], 1)) (by decide +kernel)
  have hitems := hrun.of_exec_map
    (f := fun s ↦ (s.broker.ringItems (bytesOf "q")).map Message.payload)
    (a := [some (bytesOf "x")]) (by decide +kernel)
  simp only [Prod.mk.injEq] at hend
  obtain ⟨hstop, hconns, hhandlers⟩ := hend
  refine ⟨_, hrun, hstop, hconns, hhandlers, hitems, fun hfinished ↦ ?_⟩
  exact absurd (hconns.symm.trans hfinished.1) (List.cons_ne_nil _ _)

end Listening

end VortexMQ
