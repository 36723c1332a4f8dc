import VortexMQ.Network.Commands
import VortexMQ.Network.Connection
import VortexMQ.Protocol.BufferedReader
import VortexMQ.Queue.Holdings

/-!
# Payloads and the buffer they came through

`NewMessage` keeps the slice it is given. For an argument of an array that is memory of its own. For
a word of a line it is a view of the reader's buffer, and the next bytes that arrive on the
connection may be written over it while the message is still in the queue.

Here a connection handler reads from its buffer, and for everything that the broker holds it is
recorded where the bytes of the payload are. A record is kept when the message leaves the broker:
whoever has taken it out, to deliver it or to put it somewhere else, has a pointer to the same
bytes. It goes when nobody has the message any more.

The broker itself is the one of `VortexMQ.Queue.Broker`, with payloads as they were when they were
published; no operation looks into a payload, so what becomes of a message does not depend on what
becomes of its bytes. What a client is sent are the bytes in memory. So the replies of the model are
those of the source as long as memory agrees with the broker, which is a part of `Endpoint.Intact`.

However the input arrives, the commands are those of the stream that the client has sent, and a
payload is the argument at the moment of its publication. It remains the argument as long as the
reader does not write over it.
-/

namespace VortexMQ

/-- Where a payload is: which argument of which command on the connection, and the slice that it
is. -/
structure Origin where
  command : ℕ
  arg : ℕ
  slice : Option Resp.Slice

/-- Something that the broker holds. It has no origin if it came from elsewhere: another connection,
another part of the server, or a text that the handler has made. -/
structure Stored where
  holding : HeldPayload
  origin : Option Origin

/-- A connection handler with the reader of its connection. -/
structure Endpoint where
  session : Session
  reader : Resp.Reader
  /-- The bytes that have arrived. -/
  received : Bytes
  /-- A `Read` has failed. The connection stays at its end. -/
  ended : Bool
  /-- What the broker holds, or an operation that has taken it out of the broker. -/
  stored : List Stored
  /-- What the commands of the connection have brought into the broker. -/
  published : List Stored
  /-- What nobody has any more. -/
  released : List HeldPayload

namespace Endpoint

inductive Label where
  /-- `ReadCommand` goes on with what is in the buffer. -/
  | parse
  /-- A `Read` of the connection starts. -/
  | fill
  /-- The `Read` returns these bytes. -/
  | receive (data : Bytes)
  /-- The `Read` fails. -/
  | hangup
  /-- The command is handled. -/
  | handle (env : Env)
  /-- `ReadCommand` has failed, and the handler returns. -/
  | close
  /-- The rest of the server has changed the broker. -/
  | others (b : Broker)
  /-- The last one who had the payload is through with it: it has been sent, or dropped. -/
  | release (x : HeldPayload)

def broker (e : Endpoint) : Broker := e.session.conn.broker

/-- The contents of the buffer. -/
def memory (e : Endpoint) : Memory := e.reader.rd.buf

/-- A new connection. -/
def accept (srv : Server) (b : Broker) : Endpoint where
  session := Session.start srv b
  reader := .new
  received := []
  ended := false
  stored := b.holdings.map fun x ↦ ⟨x, none⟩
  published := []
  released := []

/-- The arguments of a command as they are in memory. -/
def values (m : Memory) (args : List (Option Resp.Slice)) : Args :=
  args.map (Option.map (Resp.Slice.read m))

/-- The `i`-th argument of a command, as an origin. -/
def origin (command : ℕ) (args : List (Option Resp.Slice)) (i : ℕ) : Origin :=
  ⟨command, i, (args[i]?).join⟩

/-- What a command stores, if the broker takes it. The text of `XADD` is no argument. -/
def stores (m : Memory) (command : ℕ) (env : Env) (args : List (Option Resp.Slice)) (verb : Verb) :
    List Stored :=
  (Server.published (values m args) verb).map (fun x ↦
    ⟨((env.stamp x.1).message [] x.2).holding,
      if verb = .xadd then none else some (origin command args (x.1 + 1))⟩) ++
  (Server.broadcasts (values m args) verb).map fun x ↦
    ⟨(.channel x.1, x.2), some (origin command args 1)⟩

/-- The records of what is in the broker. -/
def held (b : Broker) (stored : List Stored) : List Stored :=
  stored.filter fun s ↦ s.holding ∈ b.holdings

/-- What the rest of the server brings into the broker. A message that another operation has had in
its hands is not among it, since there is a record of it. -/
def arriving (e : Endpoint) (b : Broker) : List HeldPayload :=
  b.holdings.filter fun x ↦ x ∉ e.stored.map Stored.holding

/-- A message that nobody has does not come back. (The same bytes may be broadcast again.) -/
def Admits (e : Endpoint) (b : Broker) : Prop :=
  ∀ x ∈ e.arriving b, x.1.isMessage = true → x ∉ e.released

instance (e : Endpoint) (b : Broker) : Decidable (e.Admits b) :=
  inferInstanceAs (Decidable (∀ x ∈ e.arriving b, x.1.isMessage = true → x ∉ e.released))

def step (srv : Server) (e : Endpoint) : Label → Option Endpoint
  | .parse =>
      if e.session.live then (e.reader.parse srv.upper).map fun r ↦ { e with reader := r } else none
  | .fill => if e.session.live then e.reader.fill.map fun r ↦ { e with reader := r } else none
  | .receive data =>
      if e.session.live ∧ e.ended = false then
        (e.reader.receive data).map fun r ↦
          { e with reader := r, received := e.received ++ data }
      else none
  | .hangup =>
      if e.session.live then
        (e.reader.hangup srv.upper).map fun r ↦ { e with reader := r, ended := true }
      else none
  | .handle env =>
      match e.reader.phase with
      | .command name args =>
          (e.session.step srv (.command ⟨name, values e.memory args⟩ e.reader.rd.buffered env)).map
            fun session ↦
              let new := held session.conn.broker
                ((Verb.ofName name).elim [] (stores e.memory e.session.handled env args))
              { e with
                session := session
                reader := e.reader.again
                stored := e.stored ++ new
                published := e.published ++ new }
      | _ => none
  | .close =>
      match e.reader.phase with
      | .failed _ => (e.session.step srv .hangup).map fun session ↦ { e with session := session }
      | _ => none
  | .others b =>
      if e.Admits b then
        some { e with
          session := { e.session with conn := { e.session.conn with broker := b } }
          stored := e.stored ++ (e.arriving b).map fun x ↦ ⟨x, none⟩ }
      else none
  | .release x =>
      if x ∉ e.broker.holdings then
        some { e with
          stored := e.stored.filter fun s ↦ s.holding ≠ x
          released := e.released ++ [x] }
      else none

/-! ## The properties -/

/-- The views among the payloads of the connection. -/
def views (e : Endpoint) : List View :=
  e.stored.filterMap fun s ↦ s.origin.bind fun o ↦ o.slice.bind Resp.Slice.view?

/-- Nothing is written over a payload that somebody has, be it the broker or an operation: neither
are the unread bytes moved over it, nor are new bytes read over it. -/
def Spared (e : Endpoint) : Label → Prop
  | .fill => ∀ v ∈ e.views, e.reader.rd.slid ≤ v.off
  | .receive data => ¬e.reader.Direct → ∀ v ∈ e.views,
      v.off + v.len ≤ e.reader.rd.w ∨ e.reader.rd.w + data.length ≤ v.off
  | _ => True

instance (e : Endpoint) (l : Label) : Decidable (e.Spared l) := by
  cases l <;> unfold Spared <;> infer_instance

/-- Every payload that came from the connection is the argument that was sent. -/
structure Intact (srv : Server) (e : Endpoint) : Prop where
  /-- Everything that the broker holds is recorded. -/
  located : ∀ x ∈ e.broker.holdings, ∃ s ∈ e.stored, s.holding = x
  /-- What a command has published is recorded, with its origin, until nobody has it any more. -/
  kept : ∀ s ∈ e.published, s ∈ e.stored ∨ s.holding ∈ e.released
  /-- The stream is read as so many commands, and the bytes in memory are those of the argument. -/
  bytes : ∃ cmds rest, Resp.readCommands srv.upper e.session.handled e.received = .ok (cmds, rest) ∧
    ∀ s ∈ e.stored, ∀ o ∈ s.origin, (cmds[o.command]?.bind fun cmd ↦ cmd.args[o.arg]?)
      = some (o.slice.map (Resp.Slice.read e.memory))
  /-- They are also what the broker is thought to hold, so a reply is made of them. -/
  agrees : ∀ s ∈ e.stored, ∀ o ∈ s.origin, o.slice.map (Resp.Slice.read e.memory) = s.holding.2

end Endpoint

/-! ## Streams -/

namespace Resp

variable {upper : Char → Char}

private theorem length_readCommands : ∀ {n : ℕ} {s rest : Bytes} {cmds : List Command},
    readCommands upper n s = .ok (cmds, rest) → cmds.length = n := by
  intro n
  induction n with
  | zero =>
    intro s rest cmds h
    obtain ⟨rfl, -⟩ := Prod.mk.inj (Except.ok.inj h)
    rfl
  | succ n ih =>
    intro s rest cmds h
    rw [readCommands] at h
    split at h
    · cases h
    · split at h
      · cases h
      · rename_i hrest
        obtain ⟨rfl, -⟩ := Prod.mk.inj (Except.ok.inj h)
        rw [List.length_cons, ih hrest]

private theorem readCommands_succ : ∀ {n : ℕ} {s s' rest : Bytes} {cmds : List Command}
    {cmd : Command},
    readCommands upper n s = .ok (cmds, s') → readCommand upper s' = .ok (cmd, rest) →
      readCommands upper (n + 1) s = .ok (cmds ++ [cmd], rest) := by
  intro n
  induction n with
  | zero =>
    intro s s' rest cmds cmd h hcmd
    obtain ⟨rfl, rfl⟩ := Prod.mk.inj (Except.ok.inj h)
    rw [readCommands, hcmd]
    rfl
  | succ n ih =>
    intro s s' rest cmds cmd h hcmd
    rw [readCommands] at h
    split at h
    · cases h
    · rename_i first s₁ hfirst
      split at h
      · cases h
      · rename_i more s₂ hmore
        obtain ⟨rfl, rfl⟩ := Prod.mk.inj (Except.ok.inj h)
        rw [readCommands, hfirst]
        simp only [ih hmore hcmd, List.cons_append]

end Resp

theorem Subscriber.Carry.broadcast {S : HeldPayload → Prop} {channel : Bytes}
    {subs : List Subscriber} {payload : Option Bytes} (h : Carry S channel subs)
    (hpayload : S (.channel channel, payload)) :
    Carry S channel (subs.map fun sub ↦
      if Broker.Subscriber.HasRoom sub then { sub with queue := sub.queue ++ [payload] }
      else sub) := by
  intro sub hsub p hp
  obtain ⟨sub', hsub', rfl⟩ := List.mem_map.mp hsub
  split at hp
  · rcases List.mem_append.mp hp with hp | hp
    · exact h sub' hsub' p hp
    · exact List.mem_singleton.mp hp ▸ hpayload
  · exact h sub' hsub' p hp

/-! ## What is stored -/

namespace Endpoint

variable {srv : Server} {e e' : Endpoint}

theorem mem_held {b : Broker} {stored : List Stored} {s : Stored} :
    s ∈ held b stored ↔ s ∈ stored ∧ s.holding ∈ b.holdings := by
  rw [held, List.mem_filter, decide_eq_true_eq]

private theorem getElem?_values {m : Memory} {args : List (Option Resp.Slice)} {i : ℕ}
    {payload : Option Bytes} (h : (values m args)[i]? = some payload) :
    ((args[i]?).join).map (Resp.Slice.read m) = payload := by
  rw [values, List.getElem?_map] at h
  obtain ⟨slice, hslice, rfl⟩ := Option.map_eq_some_iff.mp h
  rw [hslice]
  rfl

/-- What is published with the stamp of number `i` is the argument of number `i + 1`. -/
theorem getElem?_of_mem_published {args : Args} {verb : Verb} (hverb : verb ≠ .xadd)
    {x : ℕ × Option Bytes} (h : x ∈ Server.published args verb) : args[x.1 + 1]? = some x.2 := by
  have htail : x ∈ args.tail.mapIdx (fun i payload ↦ (i, payload)) →
      args[x.1 + 1]? = some x.2 := by
    intro h
    obtain ⟨i, hi, rfl⟩ := List.mem_mapIdx.mp h
    rw [← List.getElem?_tail]
    exact List.getElem?_eq_getElem hi
  cases verb with
  | lpush | rpush | vmqPublishBatch => exact htail h
  | vmqPublish =>
    obtain ⟨payload, hpayload, rfl⟩ := Option.map_eq_some_iff.mp (Option.mem_toList.mp h)
    exact hpayload
  | xadd => exact absurd rfl hverb
  | _ => exact absurd h List.not_mem_nil

/-- A record is made with the slice of an argument, which holds the payload at that moment. -/
theorem origin_of_mem_stores {m : Memory} {command : ℕ} {env : Env}
    {args : List (Option Resp.Slice)} {verb : Verb} {s : Stored}
    (h : s ∈ stores m command env args verb) {o : Origin} (ho : o ∈ s.origin) :
    o.command = command ∧ (values m args)[o.arg]? = some s.holding.2 ∧
      o.slice.map (Resp.Slice.read m) = s.holding.2 := by
  rcases List.mem_append.mp h with h | h
  · obtain ⟨x, hx, rfl⟩ := List.mem_map.mp h
    by_cases hverb : verb = .xadd
    · rw [if_pos hverb] at ho
      exact absurd ho (Option.not_mem_none o)
    · rw [if_neg hverb] at ho
      obtain rfl := Option.some_inj.mp ho
      have hx' := getElem?_of_mem_published hverb hx
      exact ⟨rfl, hx', getElem?_values hx'⟩
  · obtain ⟨x, hx, rfl⟩ := List.mem_map.mp h
    obtain rfl := Option.some_inj.mp ho
    cases verb with
    | vmqBroadcast =>
      obtain ⟨payload, hpayload, rfl⟩ := Option.map_eq_some_iff.mp (Option.mem_toList.mp hx)
      exact ⟨rfl, hpayload, getElem?_values hpayload⟩
    | _ => exact absurd hx List.not_mem_nil

theorem mem_args_of_mem_stores {m : Memory} {command : ℕ} {env : Env}
    {args : List (Option Resp.Slice)} {verb : Verb} {s : Stored}
    (h : s ∈ stores m command env args verb) {o : Origin} (ho : o ∈ s.origin) {slice : Resp.Slice}
    (hslice : slice ∈ o.slice) : some slice ∈ args := by
  have horigin : ∃ i, o = origin command args i := by
    rcases List.mem_append.mp h with h | h
    · obtain ⟨x, -, rfl⟩ := List.mem_map.mp h
      by_cases hverb : verb = .xadd
      · rw [if_pos hverb] at ho
        exact absurd ho (Option.not_mem_none o)
      · rw [if_neg hverb] at ho
        exact ⟨_, (Option.some_inj.mp ho).symm⟩
    · obtain ⟨x, -, rfl⟩ := List.mem_map.mp h
      exact ⟨_, (Option.some_inj.mp ho).symm⟩
  obtain ⟨i, rfl⟩ := horigin
  exact List.mem_of_getElem? (Option.join_eq_some_iff.mp hslice)

private theorem exists_mem_stores_of_published {m : Memory} {command : ℕ} {env : Env}
    {args : List (Option Resp.Slice)} {verb : Verb} {x : ℕ × Option Bytes}
    (h : x ∈ Server.published (values m args) verb) (topicName : Bytes) :
    ∃ s ∈ stores m command env args verb,
      s.holding = ((env.stamp x.1).message topicName x.2).holding :=
  ⟨_, List.mem_append_left _ (List.mem_map_of_mem h), rfl⟩

private theorem exists_mem_stores_of_broadcast {m : Memory} {command : ℕ} {env : Env}
    {args : List (Option Resp.Slice)} {verb : Verb} {x : Bytes × Option Bytes}
    (h : x ∈ Server.broadcasts (values m args) verb) :
    ∃ s ∈ stores m command env args verb, s.holding = (.channel x.1, x.2) :=
  ⟨_, List.mem_append_right _ (List.mem_map_of_mem h), rfl⟩

/-- A command brings into the broker what it stores, and nothing else. -/
theorem holdings_of_dispatch {c : Conn} {env : Env} {name : Bytes}
    {args : List (Option Resp.Slice)} {m : Memory} {r : Conn × Exit}
    (h : srv.dispatch env c ⟨name, values m args⟩ = .ok r) (command : ℕ) {x : HeldPayload}
    (hx : x ∈ r.1.broker.holdings) :
    x ∈ c.broker.holdings ∨
      ∃ s ∈ (Verb.ofName name).elim [] (stores m command env args), s.holding = x := by
  let S : HeldPayload → Prop := fun x ↦ x ∈ c.broker.holdings ∨
    ∃ s ∈ (Verb.ofName name).elim [] (stores m command env args), s.holding = x
  have hstart : c.broker.Every (Topic.Carries S) (Subscriber.Carry S) :=
    Broker.forall_holdings_iff.mp fun _ ↦ Or.inl
  have hnew : ∀ verb, Verb.ofName name = some verb → ∀ x,
      (∃ s ∈ stores m command env args verb, s.holding = x) → S x := by
    intro verb hverb x hs
    refine Or.inr ?_
    rw [hverb]
    exact hs
  have hleaves : Server.ExitLeaves (Topic.Carries S) (Subscriber.Carry S)
      (srv.dispatch env c ⟨name, values m args⟩) := by
    refine Server.dispatch_every Topic.kept_carries ?_ ?_ hstart
    · intro verb hverb x hx topicName
      exact hnew verb hverb _ (exists_mem_stores_of_published hx topicName)
    · intro verb hverb x hx subs hsubs
      exact hsubs.broadcast (hnew verb hverb _ (exists_mem_stores_of_broadcast hx))
  exact Broker.forall_holdings_iff.mpr (hleaves.of_ok h) x hx

/-! ## The stream is followed -/

/-- The commands handled so far, and the bytes from which the next one is being read. -/
structure Tracks (srv : Server) (e : Endpoint) (cmds : List Command) (pending : Bytes) : Prop where
  valid : e.reader.Valid
  read : ∀ s, (e.ended = true → s = []) →
    Resp.readCommands srv.upper e.session.handled (e.received ++ s) = .ok (cmds, pending ++ s)
  resume : ∀ s, (e.ended = true → s = []) →
    e.reader.resume srv.upper s = Resp.readCommand srv.upper (pending ++ s)
  sent : ∀ s ∈ e.stored, ∀ o ∈ s.origin,
    (cmds[o.command]?.bind fun cmd ↦ cmd.args[o.arg]?) = some s.holding.2
  located : ∀ x ∈ e.broker.holdings, ∃ s ∈ e.stored, s.holding = x
  kept : ∀ s ∈ e.published, s ∈ e.stored ∨ s.holding ∈ e.released

theorem resume_again (r : Resp.Reader) (s : Bytes) :
    r.again.resume srv.upper s = Resp.readCommand srv.upper (r.rd.unread ++ s) := by
  rw [Resp.readCommand_eq]
  rfl

theorem tracks_accept (srv : Server) (b : Broker) : (accept srv b).Tracks srv [] [] where
  valid := Resp.Reader.valid_of_not_reading rfl
  read s _ := rfl
  resume s _ := resume_again .new s
  sent s hs o ho := by
    obtain ⟨x, -, rfl⟩ := List.mem_map.mp hs
    exact absurd ho (Option.not_mem_none o)
  located x hx := ⟨⟨x, none⟩, List.mem_map_of_mem hx, rfl⟩
  kept s hs := absurd hs List.not_mem_nil

namespace Tracks

variable {cmds : List Command} {pending : Bytes}

theorem setReader (h : e.Tracks srv cmds pending) {r : Resp.Reader} (hr : r.Valid)
    (hresume : ∀ s, (e.ended = true → s = []) →
      r.resume srv.upper s = e.reader.resume srv.upper s) :
    { e with reader := r }.Tracks srv cmds pending where
  valid := hr
  read := h.read
  resume s hs := (hresume s hs).trans (h.resume s hs)
  sent := h.sent
  located := h.located
  kept := h.kept

theorem receive (h : e.Tracks srv cmds pending) (hended : e.ended = false) {data : Bytes}
    {r : Resp.Reader} (hr : e.reader.receive data = some r) :
    { e with reader := r, received := e.received ++ data }.Tracks srv cmds
      (pending ++ data) := by
  obtain ⟨hvalid, hresume, -⟩ := Resp.Reader.receive_spec srv.upper h.valid hr
  have hopen : ∀ s : Bytes, e.ended = true → s = [] :=
    fun s htrue ↦ absurd (hended.symm.trans htrue) Bool.false_ne_true
  refine ⟨hvalid, fun s _ ↦ ?_, fun s _ ↦ ?_, h.sent, h.located, h.kept⟩
  · rw [List.append_assoc, List.append_assoc]
    exact h.read _ (hopen _)
  · rw [List.append_assoc]
    exact (hresume s).trans (h.resume _ (hopen _))

private theorem hangup (h : e.Tracks srv cmds pending) {r : Resp.Reader}
    (hr : e.reader.hangup srv.upper = some r) :
    { e with reader := r, ended := true }.Tracks srv cmds pending := by
  obtain ⟨hvalid, -, hresume⟩ := Resp.Reader.hangup_spec h.valid hr
  refine ⟨hvalid, fun s hs ↦ ?_, fun s hs ↦ ?_, h.sent, h.located, h.kept⟩
  · obtain rfl := hs rfl
    exact h.read [] fun _ ↦ rfl
  · obtain rfl := hs rfl
    exact hresume.trans (h.resume [] fun _ ↦ rfl)

theorem handle (h : e.Tracks srv cmds pending) {env : Env}
    (hstep : e.step srv (.handle env) = some e') :
    ∃ cmd, e'.Tracks srv (cmds ++ [cmd]) e.reader.rd.unread := by
  rw [step] at hstep
  split at hstep
  · rename_i name args hphase
    obtain ⟨session, hsession, rfl⟩ := Option.map_eq_some_iff.mp hstep
    obtain ⟨-, r, hr, rfl⟩ := Session.step_command hsession
    obtain ⟨-, -, hhandled, hbroker, -⟩ := Session.finish_spec
      { e.session with
        conn := r.1
        buffered := e.reader.rd.buffered
        handled := e.session.handled + 1 } r.2
    have hcmd : ∀ s, (e.ended = true → s = []) → Resp.readCommand srv.upper (pending ++ s)
        = .ok (⟨name, values e.memory args⟩, e.reader.rd.unread ++ s) := by
      intro s hs
      rw [← h.resume s hs, Resp.Reader.resume, hphase]
      rfl
    have hlen : cmds.length = e.session.handled :=
      Resp.length_readCommands (h.read [] fun _ ↦ rfl)
    refine ⟨⟨name, values e.memory args⟩, ?_, ?_, ?_, ?_, ?_, ?_⟩
    · refine Resp.Reader.valid_of_not_reading (Bool.not_eq_true _ ▸ fun hreading ↦ ?_)
      exact (h.valid hreading).not_command name args hphase
    · intro s hs
      rw [hhandled]
      exact Resp.readCommands_succ (h.read s hs) (hcmd s hs)
    · exact fun s _ ↦ resume_again e.reader s
    · intro s hs o ho
      rcases List.mem_append.mp hs with hs | hs
      · have hold := h.sent s hs o ho
        obtain ⟨cmd, hcmd, -⟩ := Option.bind_eq_some_iff.mp hold
        rw [List.getElem?_append_left (List.getElem?_eq_some_iff.mp hcmd).1]
        exact hold
      · replace hs := (mem_held.mp hs).1
        cases hverb : Verb.ofName name with
        | none =>
          rw [hverb] at hs
          exact absurd hs List.not_mem_nil
        | some verb =>
          rw [hverb] at hs
          obtain ⟨hcommand, harg, -⟩ := origin_of_mem_stores hs ho
          rw [hcommand, ← hlen, List.getElem?_concat_length]
          exact harg
    · intro x hx
      have hx' : x ∈ r.1.broker.holdings := by
        rw [← hbroker]
        exact hx
      rcases holdings_of_dispatch hr e.session.handled hx' with hx' | ⟨s, hs, rfl⟩
      · obtain ⟨s, hs, rfl⟩ := h.located x hx'
        exact ⟨s, List.mem_append_left _ hs, rfl⟩
      · exact ⟨s, List.mem_append_right _ (mem_held.mpr ⟨hs, hx⟩), rfl⟩
    · intro s hs
      rcases List.mem_append.mp hs with hs | hs
      · exact (h.kept s hs).imp_left (List.mem_append_left _)
      · exact Or.inl (List.mem_append_right _ hs)
  · exact absurd hstep (Option.some_ne_none e').symm

theorem others (h : e.Tracks srv cmds pending) {b : Broker}
    (hstep : e.step srv (.others b) = some e') : e'.Tracks srv cmds pending := by
  rw [Endpoint.step, Option.ite_none_right_eq_some, Option.some_inj] at hstep
  obtain ⟨-, rfl⟩ := hstep
  refine ⟨h.valid, h.read, h.resume, fun s hs o ho ↦ ?_, fun x hx ↦ ?_, fun s hs ↦ ?_⟩
  · rcases List.mem_append.mp hs with hs | hs
    · exact h.sent s hs o ho
    · obtain ⟨x, -, rfl⟩ := List.mem_map.mp hs
      exact absurd ho (Option.not_mem_none o)
  · by_cases hold : x ∈ e.stored.map Stored.holding
    · obtain ⟨s, hs, rfl⟩ := List.mem_map.mp hold
      exact ⟨s, List.mem_append_left _ hs, rfl⟩
    · refine ⟨⟨x, none⟩, List.mem_append_right _ (List.mem_map_of_mem ?_), rfl⟩
      exact List.mem_filter.mpr ⟨hx, decide_eq_true hold⟩
  · exact (h.kept s hs).imp_left (List.mem_append_left _)

theorem release (h : e.Tracks srv cmds pending) {x : HeldPayload}
    (hstep : e.step srv (.release x) = some e') : e'.Tracks srv cmds pending := by
  rw [Endpoint.step, Option.ite_none_right_eq_some, Option.some_inj] at hstep
  obtain ⟨hx, rfl⟩ := hstep
  refine ⟨h.valid, h.read, h.resume, fun s hs o ho ↦ ?_, fun y hy ↦ ?_, fun s hs ↦ ?_⟩
  · exact h.sent s (List.mem_filter.mp hs).1 o ho
  · obtain ⟨s, hs, rfl⟩ := h.located y hy
    exact ⟨s, List.mem_filter.mpr ⟨hs, decide_eq_true fun heq ↦ hx (heq ▸ hy)⟩, rfl⟩
  · by_cases heq : s.holding = x
    · exact Or.inr (List.mem_append_right _ (List.mem_singleton.mpr heq))
    · exact (h.kept s hs).imp (fun hs ↦ List.mem_filter.mpr ⟨hs, decide_eq_true heq⟩)
        (List.mem_append_left _)

/-- **The commands are those of the stream**, whatever step is taken. -/
theorem step (h : e.Tracks srv cmds pending) {l : Label} (hstep : e.step srv l = some e') :
    ∃ cmds' pending', e'.Tracks srv cmds' pending' := by
  cases l with
  | parse =>
    rw [Endpoint.step, Option.ite_none_right_eq_some] at hstep
    obtain ⟨r, hr, rfl⟩ := Option.map_eq_some_iff.mp hstep.2
    obtain ⟨hvalid, -, hresume⟩ := Resp.Reader.parse_spec hr
    exact ⟨cmds, pending, h.setReader hvalid fun s _ ↦ hresume s⟩
  | fill =>
    rw [Endpoint.step, Option.ite_none_right_eq_some] at hstep
    obtain ⟨r, hr, rfl⟩ := Option.map_eq_some_iff.mp hstep.2
    obtain ⟨hvalid, hresume, -⟩ := Resp.Reader.fill_spec srv.upper hr
    exact ⟨cmds, pending, h.setReader hvalid fun s _ ↦ hresume s⟩
  | receive data =>
    rw [Endpoint.step, Option.ite_none_right_eq_some] at hstep
    obtain ⟨r, hr, rfl⟩ := Option.map_eq_some_iff.mp hstep.2
    exact ⟨cmds, _, h.receive hstep.1.2 hr⟩
  | hangup =>
    rw [Endpoint.step, Option.ite_none_right_eq_some] at hstep
    obtain ⟨r, hr, rfl⟩ := Option.map_eq_some_iff.mp hstep.2
    exact ⟨cmds, pending, h.hangup hr⟩
  | handle env =>
    obtain ⟨cmd, h'⟩ := h.handle hstep
    exact ⟨_, _, h'⟩
  | close =>
    rw [Endpoint.step] at hstep
    split at hstep
    · obtain ⟨session, hsession, rfl⟩ := Option.map_eq_some_iff.mp hstep
      rw [Session.step_hangup hsession]
      exact ⟨cmds, pending, h.valid, h.read, h.resume, h.sent, h.located, h.kept⟩
    · exact absurd hstep (Option.some_ne_none e').symm
  | others b => exact ⟨cmds, pending, h.others hstep⟩
  | release x => exact ⟨cmds, pending, h.release hstep⟩

end Tracks

/-! ## Payloads stay as they were -/

/-- The bytes in memory are those that were published. -/
def Fresh (e : Endpoint) : Prop :=
  ∀ s ∈ e.stored, ∀ o ∈ s.origin, o.slice.map (Resp.Slice.read e.memory) = s.holding.2

theorem fresh_accept (srv : Server) (b : Broker) : (accept srv b).Fresh := by
  intro s hs o ho
  obtain ⟨x, -, rfl⟩ := List.mem_map.mp hs
  exact absurd ho (Option.not_mem_none o)

theorem Fresh.of_views (h : e.Fresh) (hstored : e'.stored = e.stored)
    (hviews : ∀ v ∈ e.views, e'.memory.read v.off v.len = e.memory.read v.off v.len) :
    e'.Fresh := by
  intro s hs o ho
  rw [hstored] at hs
  rw [← h s hs o ho]
  cases hslice : o.slice with
  | none => rfl
  | some slice =>
    cases slice with
    | own bytes => rfl
    | view v =>
      refine congrArg some (hviews v (List.mem_filterMap.mpr ⟨s, hs, ?_⟩))
      rw [Option.mem_def.mp ho, Option.bind_some, hslice]
      rfl

theorem Fresh.handle (h : e.Fresh) {env : Env} (hstep : e.step srv (.handle env) = some e') :
    e'.Fresh := by
  rw [step] at hstep
  split at hstep
  · rename_i name args hphase
    obtain ⟨session, -, rfl⟩ := Option.map_eq_some_iff.mp hstep
    intro s hs o ho
    rcases List.mem_append.mp hs with hs | hs
    · exact h s hs o ho
    · replace hs := (mem_held.mp hs).1
      cases hverb : Verb.ofName name with
      | none =>
        rw [hverb] at hs
        exact absurd hs List.not_mem_nil
      | some verb =>
        rw [hverb] at hs
        exact (origin_of_mem_stores hs ho).2.2
  · exact absurd hstep (Option.some_ne_none e').symm

theorem Fresh.step (h : e.Fresh) (hvalid : e.reader.Valid) {l : Label} (hspared : e.Spared l)
    (hstep : e.step srv l = some e') : e'.Fresh := by
  cases l with
  | parse =>
    rw [Endpoint.step, Option.ite_none_right_eq_some] at hstep
    obtain ⟨r, hr, rfl⟩ := Option.map_eq_some_iff.mp hstep.2
    have hbuf := (Resp.Reader.parse_spec hr).2.1
    exact h.of_views rfl fun v _ ↦ congrArg (fun m : Memory ↦ m.read v.off v.len) hbuf
  | fill =>
    rw [Endpoint.step, Option.ite_none_right_eq_some] at hstep
    obtain ⟨r, hr, rfl⟩ := Option.map_eq_some_iff.mp hstep.2
    obtain ⟨-, -, hview⟩ := Resp.Reader.fill_spec srv.upper hr
    exact h.of_views rfl fun v hv ↦ hview v (hspared v hv)
  | receive data =>
    rw [Endpoint.step, Option.ite_none_right_eq_some] at hstep
    obtain ⟨r, hr, rfl⟩ := Option.map_eq_some_iff.mp hstep.2
    obtain ⟨-, -, hview⟩ := Resp.Reader.receive_spec srv.upper hvalid hr
    exact h.of_views rfl fun v hv ↦ hview v fun hdirect ↦ hspared hdirect v hv
  | hangup =>
    rw [Endpoint.step, Option.ite_none_right_eq_some] at hstep
    obtain ⟨r, hr, rfl⟩ := Option.map_eq_some_iff.mp hstep.2
    have hbuf := (Resp.Reader.hangup_spec hvalid hr).2.1
    exact h.of_views rfl fun v _ ↦ congrArg (fun m : Memory ↦ m.read v.off v.len) hbuf
  | handle env => exact h.handle hstep
  | close =>
    rw [Endpoint.step] at hstep
    split at hstep
    · obtain ⟨session, -, rfl⟩ := Option.map_eq_some_iff.mp hstep
      exact h
    · exact absurd hstep (Option.some_ne_none e').symm
  | others b =>
    rw [Endpoint.step, Option.ite_none_right_eq_some, Option.some_inj] at hstep
    obtain ⟨-, rfl⟩ := hstep
    intro s hs o ho
    rcases List.mem_append.mp hs with hs | hs
    · exact h s hs o ho
    · obtain ⟨x, -, rfl⟩ := List.mem_map.mp hs
      exact absurd ho (Option.not_mem_none o)
  | release x =>
    rw [Endpoint.step, Option.ite_none_right_eq_some, Option.some_inj] at hstep
    obtain ⟨-, rfl⟩ := hstep
    exact fun s hs o ho ↦ h s (List.mem_filter.mp hs).1 o ho

theorem Tracks.intact {cmds : List Command} {pending : Bytes} (h : e.Tracks srv cmds pending)
    (hfresh : e.Fresh) : e.Intact srv := by
  have hread := h.read [] fun _ ↦ rfl
  rw [List.append_nil] at hread
  refine ⟨h.located, h.kept, ⟨cmds, _, hread, fun s hs o ho ↦ ?_⟩, hfresh⟩
  rw [h.sent s hs o ho, hfresh s hs o ho]

/-- **Stored payloads do not change.** Accept a connection, and let the client send what it likes in
any pieces, and the rest of the server do what it likes: take messages out of the broker, have them
in its hands, put them back or deliver them. If the reader never writes over a payload that somebody
still has, then at every moment everything that the handler has published and somebody still has is,
byte for byte, the argument that was sent. -/
theorem intact_of_spared (srv : Server) (b : Broker) {ls : List Label}
    (hrun : Run (step srv) (fun _ ↦ True) (accept srv b) ls e)
    (hguard : Run.Guarded (step srv) Spared (accept srv b) ls) : e.Intact srv := by
  -- that the reader is in order comes with the invariant of all runs
  have hinv : (∃ cmds pending, e.Tracks srv cmds pending) ∧ e.Fresh := by
    refine hrun.invariant_of_guarded
      (I := fun e ↦ (∃ cmds pending, e.Tracks srv cmds pending) ∧ e.Fresh) ?_ hguard
      ⟨⟨[], [], tracks_accept srv b⟩, fresh_accept srv b⟩
    rintro e l e' hspared hstep ⟨⟨cmds, pending, htracks⟩, hfresh⟩
    exact ⟨htracks.step hstep, hfresh.step htracks.valid hspared hstep⟩
  obtain ⟨⟨cmds, pending, htracks⟩, hfresh⟩ := hinv
  exact htracks.intact hfresh

/-- A word of a line is published and popped; the second line is too short to reach it. With the
reply under way, its place is used again. -/
def pushAndPop : List Label :=
  [.fill, .receive (bytesOf "RPUSH q hello\r\n"), .parse, .handle Session.restingEnv, .fill,
    .receive (bytesOf "LPOP q\r\n"), .parse, .handle Session.restingEnv,
    .release ((Session.restingEnv.stamp 0).message (bytesOf "q") (some (bytesOf "hello"))).holding,
    .fill, .receive (bytesOf "RPUSH q world\r\n")]

theorem intact_of_spared_pushAndPop :
    ∃ e, Run (step Session.openServer) (fun _ ↦ True)
        (accept Session.openServer (Broker.newBroker none 0)) pushAndPop e ∧
      e.session.conn.writer.sent = bytesOf ":1\r\n$5\r\nhello\r\n" ∧
      e.Intact Session.openServer := by
  have hsome : (Run.exec (step Session.openServer) (fun _ ↦ True)
      (accept Session.openServer (Broker.newBroker none 0)) pushAndPop).isSome := by
    decide +kernel
  have hrun := Run.of_exec (Option.some_get hsome).symm
  have hsent := hrun.of_exec_map (f := fun e ↦ e.session.conn.writer.sent)
    (a := bytesOf ":1\r\n$5\r\nhello\r\n") (by decide +kernel)
  have hcheck : Run.checkGuard (step Session.openServer) (fun e l ↦ decide (e.Spared l))
      (accept Session.openServer (Broker.newBroker none 0)) pushAndPop = true := by
    decide +kernel
  have hguarded := Run.guarded_of_checkGuard hcheck
  simp only [decide_eq_true_eq] at hguarded
  exact ⟨_, hrun, hsent, intact_of_spared Session.openServer _ hrun hguarded⟩

/-- As long as another operation has the message in its hands, its place is not free. -/
example : Run.checkGuard (step Session.openServer) (fun e l ↦ decide (e.Spared l))
    (accept Session.openServer (Broker.newBroker none 0))
    [.fill, .receive (bytesOf "RPUSH q hello\r\n"), .parse, .handle Session.restingEnv,
      .others (Broker.newBroker none 0), .fill, .receive (bytesOf "RPUSH q world\r\n")]
      = false := by
  decide +kernel

def pushTwice : List Label :=
  [.fill, .receive (bytesOf "RPUSH q hello\r\n"), .parse, .handle Session.restingEnv, .fill,
    .receive (bytesOf "RPUSH q world\r\n")]

/-- The second one takes the place of the first, before it is even parsed: what is in the queue, and
what the next consumer gets, is `world`. -/
theorem payload_overwritten :
    ∃ e, Run (step Session.openServer) (fun _ ↦ True)
        (accept Session.openServer (Broker.newBroker none 0)) pushTwice e ∧
      (e.stored.map fun s ↦ (s.holding.2, s.origin.map fun o ↦
        o.slice.map (Resp.Slice.read e.memory)))
        = [(some (bytesOf "hello"), some (some (bytesOf "world")))] ∧
      ¬e.Intact Session.openServer := by
  have hsome : (Run.exec (step Session.openServer) (fun _ ↦ True)
      (accept Session.openServer (Broker.newBroker none 0)) pushTwice).isSome := by
    decide +kernel
  have hrun := Run.of_exec (Option.some_get hsome).symm
  have hstored := hrun.of_exec_map
    (f := fun e ↦ e.stored.map fun s ↦ (s.holding.2, s.origin.map fun o ↦
      o.slice.map (Resp.Slice.read e.memory)))
    (a := [(some (bytesOf "hello"), some (some (bytesOf "world")))]) (by decide +kernel)
  refine ⟨_, hrun, hstored, fun hintact ↦ ?_⟩
  obtain ⟨s, hs, hpair⟩ := List.mem_map.mp (hstored ▸ List.mem_singleton.mpr rfl)
  obtain ⟨hpayload, horigin⟩ := Prod.mk.inj hpair
  obtain ⟨o, ho, hbytes⟩ := Option.map_eq_some_iff.mp horigin
  have hsame := hintact.agrees s hs o ho
  exact absurd (hbytes.symm.trans (hsame.trans hpayload)) (by decide)

end Endpoint

end VortexMQ
