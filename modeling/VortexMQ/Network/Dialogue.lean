import VortexMQ.Network.Aliasing
import VortexMQ.Network.Client

/-!
# The client and the server

The command-line client and the server's end of its connection are two parties. Each of them has
sent so many bytes, and has received so many of those that the other one has sent; what is between
the two numbers is in flight.

They are in step if the client has sent its command whenever it waits for a reply, and if, whenever
it has read the replies to all of its commands, it has received these and nothing else and has
printed them in their order. Since the
client does not flush its writer, it gets out of step with its first command, whatever that is. A
command that fits into the buffer is not sent at all. Then the client waits for the server, and the
server waits for the client.
-/

namespace VortexMQ

/-! ## The two parties -/

/-- A client and the server's end of its connection. -/
structure Dialogue where
  client : Client
  server : Endpoint

namespace Dialogue

inductive Label where
  /-- The client goes on. -/
  | go
  /-- These bytes reach the client. -/
  | answer (data : Bytes)
  /-- The client finds that the server has closed the connection. -/
  | eof
  | server (l : Endpoint.Label)

def start (srv : Server) (b : Broker) (input : Cli.Input) : Dialogue :=
  ⟨.start input, .accept srv b⟩

variable (d : Dialogue)

/-- What the server has sent. -/
def replies : Bytes := d.server.session.conn.writer.sent

/-- What the client has sent and the server has not received. -/
def toServer : Bytes := d.client.writer.sent.drop d.server.received.length

/-- What the server has sent and the client has not received. -/
def toClient : Bytes := d.replies.drop d.client.received.length

/-- Which steps of the server the connection admits: bytes arrive in order, and the connection ends
when the client has closed it and everything has arrived. -/
def Arrives : Endpoint.Label → Prop
  | .receive data => data <+: d.toServer
  | .hangup => d.client.phase.isDone ∧ d.toServer = []
  | _ => True

instance (l : Endpoint.Label) : Decidable (d.Arrives l) :=
  match l with
  | .receive data => inferInstanceAs (Decidable (data <+: d.toServer))
  | .hangup => inferInstanceAs (Decidable (d.client.phase.isDone ∧ d.toServer = []))
  | .parse | .fill | .handle _ | .close | .others _ | .release _ => inferInstanceAs (Decidable True)

def step (srv : Server) (d : Dialogue) : Label → Option Dialogue
  | .go => (d.client.go srv.upper).map fun c ↦ { d with client := c }
  | .answer data =>
      if data ≠ [] ∧ data <+: d.toClient then
        (d.client.receive data).map fun c ↦ { d with client := c }
      else none
  | .eof =>
      if d.server.session.live = false ∧ d.toClient = [] then
        (d.client.eof srv.upper).map fun c ↦ { d with client := c }
      else none
  | .server l =>
      if d.Arrives l then (d.server.step srv l).map fun e ↦ { d with server := e } else none

/-- The bytes of the commands that the client has written. -/
def requests : Bytes := d.client.issued.flatMap fun cmd ↦ Resp.arrayBytes (cmd.map some)

/-- What may be printed for a reply: its bytes, as after the command in the arguments, or what a
bulk string stands for, as at the prompt. -/
def Shows : Resp.Value → Bytes → Prop
  | .bulk none, text => text = Resp.Value.bytes (.bulk none) ∨ text = bytesOf "(nil)\n"
  | .bulk (some s), text => text = Resp.Value.bytes (.bulk (some s)) ∨ text = s ++ [10]
  | v, text => text = v.bytes

/-- Which of the replies are printed: all but the one to `AUTH`. -/
def shown (vs : List Resp.Value) : List Resp.Value :=
  if d.client.input.password = [] then vs else vs.tail

/-- The two parties are in step. While the client waits for a reply it has sent all of its commands.
When all of them have been answered it has received as many replies of the server, and nothing else,
and these are the replies that it has printed. -/
structure InStep : Prop where
  sent : d.client.phase.Waiting → d.client.writer.sent = d.requests
  received : d.client.answered = d.client.issued.length →
    ∃ (vs : List Resp.Value) (rest : Bytes), vs.length = d.client.answered ∧
      d.client.received = Resp.Value.allBytes vs ∧ d.replies = d.client.received ++ rest ∧
      List.Forall₂ Shows (d.shown vs) d.client.printed

end Dialogue

/-! ## The commands of the client -/

namespace Dialogue

variable {srv : Server} {b : Broker} {input : Cli.Input} {d d' : Dialogue} {l : Label}
  {ls : List Label}

private theorem client_step (h : d.step srv l = some d') :
    d.client.Moves d'.client ∨ d'.client = d.client := by
  cases l with
  | go =>
    obtain ⟨c, hc, rfl⟩ := Option.map_eq_some_iff.mp h
    exact Or.inl (Client.moves_go hc)
  | answer data =>
    rw [step] at h
    split at h
    · obtain ⟨c, hc, rfl⟩ := Option.map_eq_some_iff.mp h
      exact Or.inl (Client.moves_receive hc)
    · cases h
  | eof =>
    rw [step] at h
    split at h
    · obtain ⟨c, hc, rfl⟩ := Option.map_eq_some_iff.mp h
      exact Or.inl (Client.moves_eof hc)
    · cases h
  | server l =>
    rw [step] at h
    split at h
    · obtain ⟨e, -, rfl⟩ := Option.map_eq_some_iff.mp h
      exact Or.inr rfl
    · cases h

private theorem follows (hrun : Run (step srv) (fun _ ↦ True) (start srv b input) ls d) :
    Client.Follows input d.client := by
  refine hrun.invariant (I := fun d ↦ Client.Follows input d.client) ?_
    (Client.follows_start input)
  intro d l d' _ _ hstep hd
  rcases client_step hstep with hmoves | hsame
  · exact hmoves.follows hd
  · rwa [hsame]

end Dialogue

/-! ## The first command -/

namespace Dialogue

variable {srv : Server} {b : Broker} {input : Cli.Input} {cmd : List Bytes} {d d' : Dialogue}
  {ls : List Label}

private theorem exists_after : ∀ (n : ℕ) {d : Dialogue}, d.client.stage < n → d.client.Before cmd →
    ∃ ls t, Run (step srv) (fun _ ↦ True) d ls t ∧ t.client.After cmd := by
  -- The stage bounds the steps that are left, since each step before the command decreases it.
  intro n
  induction n with
  | zero => exact fun hstage ↦ absurd hstage (Nat.not_lt_zero _)
  | succ n ih =>
    intro d hstage hd
    obtain ⟨c, hgo, hc⟩ := hd.go srv.upper
    have hstep : d.step srv .go = some { d with client := c } := by
      rw [step, hgo]
      rfl
    rcases hc with ⟨hbefore, hlt⟩ | hafter
    · obtain ⟨ls, t, hrun, ht⟩ :=
        @ih { d with client := c } (hlt.trans_le (Nat.le_of_lt_succ hstage)) hbefore
      exact ⟨.go :: ls, t, .cons trivial hstep hrun, ht⟩
    · exact ⟨[.go], _, .cons trivial hstep (.nil trivial), hafter⟩

private theorem sent_ne_of_after (h : d.client.After cmd) : d.client.writer.sent ≠ d.requests := by
  have hstream : d.client.writer.sent ++ d.client.writer.w.buf = d.requests := by
    rw [h.writer, requests, h.issued, List.flatMap_singleton]
    exact Writer.stream_writeArray Writer.new (cmd.map some)
  intro hsent
  rw [hsent] at hstream
  exact h.buf_ne_nil (List.append_right_eq_self.mp hstream)

/-- **The client and the server.** The two parties are in step in every state that they reach,
exactly if the client is given no command. -/
theorem inStep_iff (srv : Server) (b : Broker) (input : Cli.Input) :
    (∀ ls d, Run (step srv) (fun _ ↦ True) (start srv b input) ls d → d.InStep) ↔
      input.commands = [] := by
  constructor
  · intro h
    cases hcommands : input.commands with
    | nil => rfl
    | cons cmd more =>
      -- behind the first command the client waits, and the end of the command is in its buffer
      obtain ⟨ls, d, hrun, hd⟩ :=
        exists_after _ (Nat.lt_succ_self _) (d := start srv b input)
          (Client.before_start hcommands)
      exact absurd ((h ls d hrun).sent hd.waiting) (sent_ne_of_after hd)
  · intro hcommands ls d hrun
    have hfollows := follows hrun
    have hissued : d.client.issued = [] := by
      have hprefix := (List.prefix_append _ _).trans hfollows.commands
      rw [hcommands] at hprefix
      exact List.prefix_nil.mp hprefix
    obtain ⟨hwait, hreceived, hanswered, hprinted⟩ := hfollows.idle hissued
    refine ⟨fun h ↦ absurd h hwait, fun _ ↦ ⟨[], d.replies, ?_, ?_, ?_, ?_⟩⟩
    · exact hanswered.symm
    · exact hreceived
    · rw [hreceived]
      rfl
    · rw [hprinted, shown, List.tail_nil, ite_self]
      exact .nil

/-- `vortexmq-cli PING`: the client waits for the reply to a command of which it has sent nothing,
and the server waits for the command. -/
theorem ping_waits :
    ∃ d, Run (step Session.openServer) (fun _ ↦ True)
        (start Session.openServer (Broker.newBroker none 0) ⟨[], [bytesOf "PING"], []⟩)
        [.go, .go, .server .fill] d ∧
      d.client.phase.Waiting ∧ d.client.writer.sent = [] ∧
      d.requests = bytesOf "*1\r\n$4\r\nPING\r\n" ∧ d.server.reader.reading = true ∧
      ¬d.InStep := by
  have hsome : (Run.exec (step Session.openServer) (fun _ ↦ True)
      (start Session.openServer (Broker.newBroker none 0) ⟨[], [bytesOf "PING"], []⟩)
      [.go, .go, .server .fill]).isSome := by decide +kernel
  have hrun := Run.of_exec (Option.some_get hsome).symm
  have hwait := of_decide_eq_true (hrun.of_exec_map (f := fun d ↦ decide d.client.phase.Waiting)
    (a := true) (by decide +kernel))
  have hsent := hrun.of_exec_map (f := fun d ↦ d.client.writer.sent) (a := [])
    (by decide +kernel)
  have hrequests := hrun.of_exec_map (f := requests) (a := bytesOf "*1\r\n$4\r\nPING\r\n")
    (by decide +kernel)
  have hreading := hrun.of_exec_map (f := fun d ↦ d.server.reader.reading) (a := true)
    (by decide +kernel)
  refine ⟨_, hrun, hwait, hsent, hrequests, hreading, fun h ↦ ?_⟩
  have hall := (h.sent hwait).symm.trans hsent
  rw [hrequests] at hall
  exact absurd hall (by decide)

/-! ## Waiting for each other -/

/-- Nothing has been sent by either party. -/
structure Silent (cmd : List Bytes) (d : Dialogue) : Prop where
  client : d.client.Before cmd ∨ d.client.After cmd
  received : d.server.received = []
  live : d.server.session.live = true
  idle : d.server.reader.Idle
  replies : d.replies = []

private theorem silent_start {more : List (List Bytes)} (h : input.commands = cmd :: more) :
    (start srv b input).Silent cmd :=
  ⟨Or.inl (Client.before_start h), rfl, rfl, ⟨rfl, rfl⟩, rfl⟩

theorem Silent.answered (h : d.Silent cmd) : d.client.answered = 0 :=
  h.client.elim (·.answered) (·.answered)

theorem Silent.sent (h : d.Silent cmd)
    (hfits : (Resp.arrayBytes (cmd.map some)).length ≤ 64 * 1024) : d.client.writer.sent = [] := by
  rcases h.client with hbefore | hafter
  · rw [hbefore.writer]
    rfl
  · rw [hafter.writer]
    exact Writer.sent_writeArray_new hfits

theorem Silent.not_done (h : d.Silent cmd) : ¬d.client.phase.isDone := by
  intro hdone
  cases hphase : d.client.phase with
  | done =>
    rcases h.client with hbefore | hafter
    · obtain ⟨more, hpending⟩ := hbefore.pending
      simp only [Client.pending, hphase] at hpending
      cases hpending
    · exact absurd hafter.waiting (by rw [hphase]; exact id)
  | _ =>
    rw [hphase] at hdone
    cases hdone

theorem Silent.toServer (h : d.Silent cmd)
    (hfits : (Resp.arrayBytes (cmd.map some)).length ≤ 64 * 1024) : d.toServer = [] := by
  rw [Dialogue.toServer, h.sent hfits, List.drop_nil]

theorem Silent.toClient (h : d.Silent cmd) : d.toClient = [] := by
  rw [Dialogue.toClient, h.replies, List.drop_nil]

theorem Silent.server_step {l : Endpoint.Label} {e : Endpoint} (h : d.Silent cmd)
    (hfits : (Resp.arrayBytes (cmd.map some)).length ≤ 64 * 1024) (harrives : d.Arrives l)
    (hstep : d.server.step srv l = some e) : Silent cmd { d with server := e } := by
  cases l with
  | parse =>
    rw [Endpoint.step, if_pos h.live, h.idle.parse_eq] at hstep
    cases hstep
  | fill =>
    rw [Endpoint.step, if_pos h.live] at hstep
    obtain ⟨r, hfill, rfl⟩ := Option.map_eq_some_iff.mp hstep
    exact ⟨h.client, h.received, h.live, h.idle.fill hfill, h.replies⟩
  | receive data =>
    -- there is nothing to receive
    obtain rfl : data = [] := List.prefix_nil.mp (h.toServer hfits ▸ harrives)
    have hnone : d.server.reader.receive [] = none := if_neg fun hread ↦ hread.2 rfl
    rw [Endpoint.step, hnone, Option.map_none, ite_self] at hstep
    cases hstep
  | hangup => exact absurd harrives.1 h.not_done
  | handle env =>
    simp only [Endpoint.step, h.idle.1] at hstep
    cases hstep
  | close =>
    simp only [Endpoint.step, h.idle.1] at hstep
    cases hstep
  | others b =>
    rw [Endpoint.step, Option.ite_none_right_eq_some, Option.some_inj] at hstep
    obtain ⟨-, rfl⟩ := hstep
    exact ⟨h.client, h.received, h.live, h.idle, h.replies⟩
  | release x =>
    rw [Endpoint.step, Option.ite_none_right_eq_some, Option.some_inj] at hstep
    obtain ⟨-, rfl⟩ := hstep
    exact ⟨h.client, h.received, h.live, h.idle, h.replies⟩

theorem Silent.step {l : Label} (h : d.Silent cmd)
    (hfits : (Resp.arrayBytes (cmd.map some)).length ≤ 64 * 1024)
    (hstep : d.step srv l = some d') : d'.Silent cmd := by
  cases l with
  | go =>
    obtain ⟨c, hgo, rfl⟩ := Option.map_eq_some_iff.mp hstep
    refine ⟨?_, h.received, h.live, h.idle, h.replies⟩
    rcases h.client with hbefore | hafter
    · obtain ⟨c', hgo', hc'⟩ := hbefore.go srv.upper
      obtain rfl := Option.some_inj.mp (hgo.symm.trans hgo')
      exact hc'.imp_left And.left
    · exact Or.inr (hafter.go hgo)
  | answer data =>
    rw [Dialogue.step, h.toClient,
      if_neg fun hdata ↦ hdata.1 (List.prefix_nil.mp hdata.2)] at hstep
    cases hstep
  | eof =>
    rw [Dialogue.step, h.live, if_neg fun hlive ↦ Bool.false_ne_true hlive.1.symm] at hstep
    cases hstep
  | server l =>
    rw [Dialogue.step] at hstep
    split at hstep
    · rename_i harrives
      obtain ⟨e, he, rfl⟩ := Option.map_eq_some_iff.mp hstep
      exact h.server_step hfits harrives he
    · cases hstep

/-- **Waiting for each other.** If the first command fits into the buffer, then nothing is ever sent
by either party, and no command is ever answered. -/
theorem silent_forever (srv : Server) (b : Broker) {more : List (List Bytes)}
    (hcommands : input.commands = cmd :: more)
    (hfits : (Resp.arrayBytes (cmd.map some)).length ≤ 64 * 1024)
    (hrun : Run (Dialogue.step srv) (fun _ ↦ True) (start srv b input) ls d) :
    d.client.writer.sent = [] ∧ d.replies = [] ∧ d.client.answered = 0 := by
  have hsilent : d.Silent cmd := hrun.invariant (fun _ _ _ _ _ hstep h ↦ h.step hfits hstep)
    (silent_start hcommands)
  exact ⟨hsilent.sent hfits, hsilent.replies, hsilent.answered⟩

end Dialogue

end VortexMQ
