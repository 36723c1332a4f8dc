import VortexMQ.Network.Connection

/-!
# The password

A server with a password. Until a client has sent it, nothing that the client does depends on the
broker or has an effect on it: of all commands only `AUTH` and `QUIT` get past the check at the top
of the loop, and neither touches the broker. This is a statement about two runs, on two brokers that
need not have anything in common.
-/

namespace VortexMQ

namespace Server

variable {srv : Server}

/-- An `AUTH` with exactly the password as its single argument. -/
def IsLogin (srv : Server) (cmd : Command) : Prop :=
  cmd.name = bytesOf "AUTH" ∧ ∃ arg : Option Bytes, cmd.args = [arg] ∧ arg.getD [] = srv.password

private theorem auth_of_not_password {args : Args} (hpassword : srv.password ≠ [])
    (h : ¬∃ arg : Option Bytes, args = [arg] ∧ arg.getD [] = srv.password) :
    ∃ msg, ∀ c, srv.auth c args = .ok (c.error msg) := by
  by_cases hlen : args.length = 1
  · obtain ⟨arg, rfl⟩ := List.length_eq_one_iff.mp hlen
    have hne : arg.getD [] ≠ srv.password := fun harg ↦ h ⟨arg, rfl, harg⟩
    refine ⟨bytesOf "ERR invalid password", fun c ↦ ?_⟩
    rw [auth, if_neg (not_not.mpr hlen), Args.text_eq Nat.zero_lt_one, Ending.ok_bind,
      if_neg fun hand ↦ hne hand.2, if_neg hpassword]
    rfl
  · exact ⟨bytesOf "wrong number of arguments for 'auth'", fun c ↦ if_pos hlen⟩

/-- **Before the login** a command is answered without the broker. -/
theorem dispatch_of_not_login (hpassword : srv.password ≠ []) {cmd : Command}
    (hcmd : ¬srv.IsLogin cmd) (w : Writer) :
    ∃ w' exit, ∀ env b, srv.dispatch env ⟨w, b, false⟩ cmd = .ok (⟨w', b, false⟩, exit) := by
  by_cases hauth : cmd.name = bytesOf "AUTH"
  · obtain ⟨msg, hmsg⟩ := auth_of_not_password hpassword fun h ↦ hcmd ⟨hauth, h⟩
    have hverb : Verb.ofName (bytesOf "AUTH") = some .auth := by decide +kernel
    refine ⟨w.writeError msg, .flush, fun env b ↦ ?_⟩
    rw [dispatch, if_neg fun h ↦ h.2.1 hauth, hauth, hverb]
    simp only [handle, hmsg]
    rfl
  by_cases hquit : cmd.name = bytesOf "QUIT"
  · have hverb : Verb.ofName (bytesOf "QUIT") = some .quit := by decide +kernel
    refine ⟨w.writeRaw Resp.ok, .quit, fun env b ↦ ?_⟩
    rw [dispatch, if_neg fun h ↦ h.2.2 hquit, hquit, hverb]
    rfl
  · refine ⟨w.writeError (bytesOf "NOAUTH Authentication required."), .flush, fun env b ↦ ?_⟩
    exact if_pos ⟨rfl, hauth, hquit⟩

end Server

namespace Session

variable {srv : Server}

/-- Handle a sequence of commands, each with the number of bytes behind it in the reader's buffer,
until the handler returns. -/
def serve (srv : Server) (env : ℕ → Env) : List (Command × ℕ) → Session → Option Session
  | [], s => some s
  | call :: calls, s =>
      if s.live then
        (s.step srv (.command call.1 call.2 (env s.handled))).bind (serve srv env calls)
      else some s

/-- The same session on another broker. -/
def onto (s : Session) (b : Broker) : Session := { s with conn := { s.conn with broker := b } }

private theorem finish_onto (s : Session) (b : Broker) (exit : Exit) :
    (s.onto b).finish exit = (s.finish exit).onto b := by
  cases exit with
  | flush =>
    by_cases h : s.buffered = 0
    · rw [finish, finish, settle, settle, if_pos h, if_pos (show (s.onto b).buffered = 0 from h)]
      rfl
    · rw [finish, finish, settle, settle, if_neg h, if_neg (show (s.onto b).buffered ≠ 0 from h)]
  | skip => rfl
  | quit => rfl

/-- A command before the login takes the sessions on all brokers to the same session. -/
theorem step_of_not_login (hpassword : srv.password ≠ []) {cmd : Command}
    (hcmd : ¬srv.IsLogin cmd) {s : Session} (hlive : s.live = true)
    (hauth : s.conn.authenticated = false) (buffered : ℕ) :
    ∃ s' : Session, s'.conn.authenticated = false ∧
      ∀ env b, (s.onto b).step srv (.command cmd buffered env) = some (s'.onto b) := by
  obtain ⟨w, exit, hw⟩ := Server.dispatch_of_not_login hpassword hcmd s.conn.writer
  let after : Session :=
    { s with
      conn := ⟨w, s.conn.broker, false⟩
      buffered := buffered
      handled := s.handled + 1 }
  have hafter : (after.finish exit).conn.authenticated = false :=
    (after.finish_spec exit).2.2.2.2
  refine ⟨after.finish exit, hafter, fun env b ↦ ?_⟩
  have hconn : (s.onto b).conn = ⟨s.conn.writer, b, false⟩ :=
    congrArg (Conn.mk s.conn.writer b) hauth
  have hdispatch : srv.dispatch env (s.onto b).conn cmd = .ok (⟨w, b, false⟩, exit) := by
    rw [hconn]
    exact hw env b
  rw [step, if_pos (show (s.onto b).live = true from hlive), hdispatch, ← finish_onto]
  rfl

private theorem serve_of_not_login (hpassword : srv.password ≠ []) : ∀ {calls : List (Command × ℕ)}
    {s : Session}, (∀ call ∈ calls, ¬srv.IsLogin call.1) → s.conn.authenticated = false →
    ∃ s' : Session, s'.conn.authenticated = false ∧
      ∀ env b, serve srv env calls (s.onto b) = some (s'.onto b) := by
  intro calls
  induction calls with
  | nil => intro s _ hauth; exact ⟨s, hauth, fun _ _ ↦ rfl⟩
  | cons call calls ih =>
    intro s hcalls hauth
    by_cases hlive : s.live = true
    · obtain ⟨s₁, hauth₁, hstep⟩ := step_of_not_login hpassword (hcalls call List.mem_cons_self)
        hlive hauth call.2
      obtain ⟨s₂, hauth₂, hserve⟩ :=
        ih (fun call' h ↦ hcalls call' (List.mem_cons_of_mem _ h)) hauth₁
      refine ⟨s₂, hauth₂, fun env b ↦ ?_⟩
      rw [serve, if_pos (show (s.onto b).live = true from hlive), hstep, Option.bind_some, hserve]
    · exact ⟨s, hauth, fun env b ↦ if_neg hlive⟩

private theorem authenticated_of_step {s s' : Session} {l : Label} (h : s.step srv l = some s')
    (hauth : s.conn.authenticated = true) : s'.conn.authenticated = true := by
  cases l with
  | command cmd buffered env =>
    obtain ⟨-, r, hr, rfl⟩ := step_command h
    rw [(finish_spec _ r.2).2.2.2.2]
    exact ((Server.dispatch_spec cmd).of_ok hr).2.1 hauth
  | hangup =>
    rw [step_hangup h]
    exact hauth
  | others b =>
    rw [← Option.some_inj.mp h]
    exact hauth

/-- **The password keeps everybody else out.** On any two brokers, a sequence of commands without
the login is handled to the end, leaves both brokers as they were, and gets the same bytes for an
answer; the connection is not marked. A connection that is marked stays so. -/
theorem noninterference (srv : Server) (hpassword : srv.password ≠ [])
    (calls : List (Command × ℕ)) (hcalls : ∀ call ∈ calls, ¬srv.IsLogin call.1) (b b' : Broker)
    (env env' : ℕ → Env) :
    (∃ s s', serve srv env calls (start srv b) = some s ∧
      serve srv env' calls (start srv b') = some s' ∧
      s.conn.broker = b ∧ s'.conn.broker = b' ∧ s.conn.writer = s'.conn.writer ∧
      s.conn.authenticated = false ∧ s'.conn.authenticated = false) ∧
      ∀ {s t : Session} {ls : List Label}, s.conn.authenticated = true →
        Run (step srv) (fun _ ↦ True) s ls t → t.conn.authenticated = true := by
  constructor
  · obtain ⟨s, hauth, hserve⟩ :=
      serve_of_not_login (s := start srv b) hpassword hcalls (decide_eq_false hpassword)
    exact ⟨s.onto b, s.onto b', hserve env b, hserve env' b', rfl, rfl, rfl, hauth, hauth⟩
  · intro s t ls hauth hrun
    exact hrun.invariant (I := fun s ↦ s.conn.authenticated = true)
      (fun _ _ _ _ _ hstep h ↦ authenticated_of_step hstep h) hauth

/-- Three attempts to get in, and a farewell. -/
theorem noninterference_guessing :
    ∃ s s' : Session,
      serve ⟨bytesOf "secret", id, MessageJson.codec⟩ (fun _ ↦ restingEnv)
        [(⟨bytesOf "LLEN", [some (bytesOf "q")]⟩, 0), (⟨bytesOf "AUTH", [none]⟩, 0),
          (⟨bytesOf "AUTH", [some (bytesOf "secret"), some (bytesOf "secret")]⟩, 0),
          (⟨bytesOf "QUIT", []⟩, 0)]
        (start ⟨bytesOf "secret", id, MessageJson.codec⟩ (Broker.newBroker none 0)) = some s ∧
      serve ⟨bytesOf "secret", id, MessageJson.codec⟩ (fun _ ↦ restingEnv)
        [(⟨bytesOf "LLEN", [some (bytesOf "q")]⟩, 0), (⟨bytesOf "AUTH", [none]⟩, 0),
          (⟨bytesOf "AUTH", [some (bytesOf "secret"), some (bytesOf "secret")]⟩, 0),
          (⟨bytesOf "QUIT", []⟩, 0)]
        (start ⟨bytesOf "secret", id, MessageJson.codec⟩
          (Broker.newBroker (some (Wal.openWAL ∅ .always)) 7)) = some s' ∧
      s.conn.writer = s'.conn.writer := by
  obtain ⟨⟨s, s', hs, hs', -, -, hwriter, -⟩, -⟩ :=
    noninterference ⟨bytesOf "secret", id, MessageJson.codec⟩ (by decide)
      [(⟨bytesOf "LLEN", [some (bytesOf "q")]⟩, 0), (⟨bytesOf "AUTH", [none]⟩, 0),
        (⟨bytesOf "AUTH", [some (bytesOf "secret"), some (bytesOf "secret")]⟩, 0),
        (⟨bytesOf "QUIT", []⟩, 0)]
      (by
        intro call hcall
        rintro ⟨hname, arg, harg, hpassword⟩
        fin_cases hcall
        · exact absurd hname (by decide)
        · obtain rfl := List.singleton_inj.mp harg.symm
          exact absurd hpassword (by decide)
        · exact absurd (List.cons.inj harg).2 (List.cons_ne_nil _ _)
        · exact absurd hname (by decide))
      (Broker.newBroker none 0) (Broker.newBroker (some (Wal.openWAL ∅ .always)) 7)
      (fun _ ↦ restingEnv) (fun _ ↦ restingEnv)
  exact ⟨s, s', hs, hs', hwriter⟩

end Session

end VortexMQ
