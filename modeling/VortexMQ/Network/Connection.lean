import VortexMQ.Basic.Run
import VortexMQ.Network.Replies

/-!
# Runs of a connection handler

What holds between any two calls of `ReadCommand`, whatever the commands. Every command has added
one reply to the stream, but a reply that quotes the name of an unknown command is a value of the
protocol only if that name fits in a line. And the stream has reached the client before the handler
waits for more input, but not after the cases that leave the switch by `continue`: these forget the
flush.
-/

namespace VortexMQ

/-! ## The writer -/

namespace Writer

variable (w : Writer)

@[simp] theorem size_write (p : Bytes) : (w.write p).w.size = w.w.size :=
  size_pass (w.w.appends_write p)

@[simp] theorem size_writeString (s : Bytes) : (w.writeString s).w.size = w.w.size :=
  size_pass (w.w.appends_writeString s)

@[simp] theorem size_writeByte (x : UInt8) : (w.writeByte x).w.size = w.w.size :=
  size_pass (w.w.appends_writeByte x)

theorem buf_write_ne_nil {p : Bytes} (hp : p ≠ []) (hlen : p.length ≤ w.w.size) :
    (w.write p).w.buf ≠ [] := BufWriter.buf_write_ne_nil hp hlen

theorem buf_writeBulkString_ne_nil (hsize : 64 ≤ w.w.size) (b : Option Bytes) :
    (w.writeBulkString b).w.buf ≠ [] := by
  cases b with
  | none => exact w.buf_write_ne_nil (by decide) (le_trans (by decide) hsize)
  | some b =>
    rw [writeBulkString]
    refine buf_write_ne_nil _ (by decide) (le_trans (by decide) (hsize.trans_eq ?_))
    simp only [size_write, size_writeString, size_writeByte]

/-- And so does a list of them, if something is in the buffer before it. -/
theorem buf_foldl_writeBulkString_ne_nil : ∀ (elements : List (Option Bytes)) (w : Writer),
    64 ≤ w.w.size → w.w.buf ≠ [] → (elements.foldl writeBulkString w).w.buf ≠ [] := by
  intro elements
  induction elements with
  | nil => exact fun w _ hne ↦ hne
  | cons b elements ih =>
    intro w hsize _
    exact ih (w.writeBulkString b) (hsize.trans_eq (w.keeps_writeBulkString b).size.symm)
      (w.buf_writeBulkString_ne_nil hsize b)

theorem buf_writeArray_ne_nil (hsize : 64 ≤ w.w.size) (elements : List (Option Bytes)) :
    (w.writeArray (some elements)).w.buf ≠ [] := by
  have hhead : 64 ≤ ((w.writeByte 42).writeString (Decimal.ofNat elements.length)).w.size := by
    rwa [size_writeString, size_writeByte]
  refine buf_foldl_writeBulkString_ne_nil elements _ (hhead.trans_eq (size_write _ _).symm) ?_
  exact buf_write_ne_nil _ (by decide) (le_trans (by decide) hhead)

end Writer

namespace Reply

variable {w : Writer} {reply : Reply}

private theorem write_spec (hsize : 64 ≤ w.w.size) (h : reply.Proper) :
    (reply.write w).w.size = w.w.size ∧ (reply.write w).w.buf ≠ [] := by
  cases reply with
  | error msg =>
    refine ⟨?_, ?_⟩
    · simp only [write, Writer.writeError, Writer.size_write, Writer.size_writeString]
    · refine Writer.buf_write_ne_nil _ (by decide) (le_trans (by decide) (hsize.trans_eq ?_))
      simp only [Writer.size_writeString]
  | raw data =>
    have hconstants : ∀ d ∈ [Resp.ok, Resp.pong, Resp.nullBulk, Resp.emptyArray],
        d ≠ [] ∧ d.length ≤ 64 := by decide
    have hdata := hconstants data h
    exact ⟨w.size_write data, w.buf_write_ne_nil hdata.1 (hdata.2.trans hsize)⟩
  | integer n =>
    refine ⟨?_, ?_⟩
    · simp only [write, Writer.writeInteger, Writer.size_write, Writer.size_writeString,
        Writer.size_writeByte]
    · refine Writer.buf_write_ne_nil _ (by decide) (le_trans (by decide) (hsize.trans_eq ?_))
      simp only [Writer.size_writeString, Writer.size_writeByte]
  | bulk b => exact ⟨(w.keeps_writeBulkString b).size, w.buf_writeBulkString_ne_nil hsize b⟩
  | array elements =>
    exact ⟨(w.keeps_writeArray elements).size, w.buf_writeArray_ne_nil hsize elements⟩

private theorem size_writeError (w : Writer) (msg : Bytes) :
    (w.writeError msg).w.size = w.w.size := by
  simp only [Writer.writeError, Writer.size_write, Writer.size_writeString]

/-! ### Values -/

open Resp (Value)

theorem flatMap_bulkBytes (elements : List (Option Bytes)) :
    elements.flatMap Resp.bulkBytes = Value.allBytes (elements.map Value.bulk) := by
  have hbulk : ∀ b : Option Bytes, Resp.bulkBytes b = (Value.bulk b).bytes := by
    intro b
    cases b with
    | none => rw [Value.bytes]; decide
    | some b =>
      rw [Resp.bulkBytes, Value.bytes]
      simp only [List.append_assoc, List.cons_append]
  rw [Value.allBytes_eq, List.flatMap_map]
  exact List.flatMap_congr fun b _ ↦ hbulk b

theorem stream_integer (w : Writer) (n : ℤ) :
    ((Reply.integer n).write w).stream = w.stream ++ (Value.integer n).bytes := by
  rw [write, Writer.stream_writeInteger, Value.bytes]
  rfl

theorem stream_bulk (w : Writer) (b : Option Bytes) :
    ((Reply.bulk b).write w).stream = w.stream ++ (Value.bulk b).bytes := by
  have hone := flatMap_bulkBytes [b]
  rw [List.flatMap_singleton, List.map_singleton, Value.allBytes, Value.allBytes,
    List.append_nil] at hone
  rw [write, Writer.stream_writeBulkString, hone]

/-- **A proper reply is a value.** -/
theorem exists_value (reply : Reply) (h : reply.Proper) (w : Writer) :
    ∃ v : Value, (reply.write w).stream = w.stream ++ v.bytes := by
  cases reply with
  | error msg =>
    have hplain : Resp.Plain (bytesOf "ERR " ++ msg) :=
      Resp.plain_append.mpr ⟨by decide, h⟩
    refine ⟨.error ⟨_, hplain⟩, ?_⟩
    rw [write, Writer.stream_writeError, Value.bytes]
    rfl
  | raw data =>
    have hdata : data = Resp.ok ∨ data = Resp.pong ∨ data = Resp.nullBulk ∨
        data = Resp.emptyArray := by simpa [Proper] using h
    rw [write, Writer.writeRaw, Writer.stream_write]
    rcases hdata with rfl | rfl | rfl | rfl
    · exact ⟨.simple ⟨bytesOf "OK", by decide⟩, by rw [Value.bytes]; rfl⟩
    · exact ⟨.simple ⟨bytesOf "PONG", by decide⟩, by rw [Value.bytes]; rfl⟩
    · exact ⟨.bulk none, by rw [Value.bytes]; rfl⟩
    · exact ⟨.array [], by rw [Value.bytes, Value.allBytes]; rfl⟩
  | integer n => exact ⟨.integer n, stream_integer w n⟩
  | bulk b => exact ⟨.bulk b, stream_bulk w b⟩
  | array elements =>
    refine ⟨.array (elements.map Value.bulk), ?_⟩
    rw [write, Writer.stream_writeArray, Value.bytes, Resp.arrayBytes, flatMap_bulkBytes,
      List.length_map]
    rfl

private theorem plain_of_value {msg : Bytes} {v : Value} (h : Resp.errorBytes msg = v.bytes) :
    Resp.Plain msg := by
  have hhead := congrArg List.head? h
  rw [Value.head?_bytes] at hhead
  have htag : (45 : UInt8) = v.tag := Option.some_inj.mp hhead
  cases v with
  | error line =>
    rw [Value.bytes] at h
    have hline : bytesOf "ERR " ++ msg = line.1 :=
      List.append_cancel_right (List.cons.inj h).2
    exact (Resp.plain_append.mp (hline ▸ line.2)).2
  | _ => exact absurd htag (by rw [Value.tag]; decide)

end Reply

/-! ## The switch -/

namespace Server

variable {srv : Server} {env : Env} {c : Conn}

/-- The command comes to the default case. -/
def Unknown (c : Conn) (cmd : Command) : Prop := ¬Refused c cmd ∧ Verb.ofName cmd.name = none

instance (c : Conn) (cmd : Command) : Decidable (Unknown c cmd) :=
  inferInstanceAs (Decidable (_ ∧ _))

/-- How the body of the loop is left. -/
def exit (srv : Server) (c : Conn) (cmd : Command) : Exit :=
  if Refused c cmd then .flush
  else
    match Verb.ofName cmd.name with
    | some verb => srv.exitOf cmd.args verb
    | none => .flush

private theorem plain_unknownCommand {name : Bytes} :
    Resp.Plain (unknownCommand name) ↔ Resp.Plain name := by
  rw [unknownCommand, Resp.plain_append, Resp.plain_append]
  exact ⟨fun h ↦ h.1.2, fun h ↦ ⟨⟨by decide, h⟩, by decide⟩⟩

/-- **The switch**: one reply, which is proper unless it quotes an improper name. -/
theorem dispatch_spec (cmd : Command) :
    (srv.dispatch env c cmd).Sat
      (fun r ↦ (∃ reply : Reply, r.1.writer = reply.write c.writer ∧
          (¬Unknown c cmd ∧ reply.Proper ∨
            Unknown c cmd ∧ reply = .error (unknownCommand cmd.name))) ∧
        (c.authenticated = true → r.1.authenticated = true) ∧ r.2 = srv.exit c cmd)
      (Mishap c) := by
  rw [dispatch]
  by_cases hrefused : Refused c cmd
  · rw [if_pos hrefused, exit, if_pos hrefused]
    exact ⟨⟨.error _, rfl, Or.inl ⟨fun h ↦ h.1 hrefused, (by decide : Resp.Plain _)⟩⟩, id, rfl⟩
  · rw [if_neg hrefused, exit, if_neg hrefused]
    cases hverb : Verb.ofName cmd.name with
    | none => exact ⟨⟨.error _, rfl, Or.inr ⟨⟨hrefused, hverb⟩, rfl⟩⟩, id, rfl⟩
    | some verb =>
      refine (handle_spec verb).mono (fun r hr ↦ ⟨?_, hr.1.loggedIn, hr.2⟩) fun _ he ↦ he
      obtain ⟨reply, hproper, hwrite⟩ := hr.1.reply
      refine ⟨reply, hwrite, Or.inl ⟨fun h ↦ ?_, hproper⟩⟩
      exact Option.some_ne_none verb (hverb.symm.trans h.2)

end Server

/-! ## Steps of a session -/

namespace Session

variable {srv : Server} {s s' : Session}

theorem step_command {cmd : Command} {buffered : ℕ} {env : Env}
    (h : s.step srv (.command cmd buffered env) = some s') :
    s.live = true ∧ ∃ r, srv.dispatch env s.conn cmd = .ok r ∧
      s' = { s with conn := r.1, buffered := buffered, handled := s.handled + 1 }.finish r.2 := by
  rw [step] at h
  split at h
  · rename_i hlive
    split at h
    · rename_i r hr
      exact ⟨hlive, r, hr, (Option.some_inj.mp h).symm⟩
    · exact absurd h (Option.some_ne_none _).symm
    · exact absurd h (Option.some_ne_none _).symm
  · exact absurd h (Option.some_ne_none _).symm

theorem step_hangup (h : s.step srv .hangup = some s') : s' = s.leave := by
  rw [step, Option.ite_none_right_eq_some, Option.some_inj] at h
  exact h.2.symm

theorem finish_spec (s : Session) (exit : Exit) :
    (s.finish exit).conn.writer.stream = s.conn.writer.stream ∧
      (s.finish exit).conn.writer.w.size = s.conn.writer.w.size ∧
      (s.finish exit).handled = s.handled ∧ (s.finish exit).conn.broker = s.conn.broker ∧
      (s.finish exit).conn.authenticated = s.conn.authenticated := by
  have hflush := s.conn.writer.stream_flush
  cases exit with
  | flush =>
    rw [finish, settle]
    split
    · exact ⟨hflush, rfl, rfl, rfl, rfl⟩
    · exact ⟨rfl, rfl, rfl, rfl, rfl⟩
  | skip => exact ⟨rfl, rfl, rfl, rfl, rfl⟩
  | quit => exact ⟨hflush, rfl, rfl, rfl, rfl⟩

/-! ## Replies reach the client -/

/-- Before the handler waits for input, everything it has written is with the client. -/
def Flushed (s : Session) : Prop :=
  s.live = true → s.buffered = 0 → s.conn.writer.w.buf = []

/-- No command that misses the flush is the last one at hand. -/
def Prompt (srv : Server) (s : Session) : Label → Prop
  | .command cmd buffered _ => buffered = 0 → srv.exit s.conn cmd ≠ .skip
  | _ => True

instance (srv : Server) (s : Session) (l : Label) : Decidable (Prompt srv s l) := by
  cases l <;> unfold Prompt <;> infer_instance

private theorem flushed_finish (hne : s.conn.writer.w.buf ≠ []) (hlive : s.live = true)
    (exit : Exit) : (s.finish exit).Flushed ↔ (s.buffered = 0 → exit ≠ .skip) := by
  cases exit with
  | flush =>
    refine iff_of_true ?_ fun _ ↦ nofun
    rw [finish, settle]
    split
    · exact fun _ _ ↦ rfl
    · rename_i hbuffered
      exact fun _ h ↦ absurd h hbuffered
  | skip =>
    constructor
    · intro h hbuffered
      exact absurd (h hlive hbuffered) hne
    · intro h _ hbuffered
      exact absurd rfl (h hbuffered)
  | quit => exact iff_of_true (fun h ↦ absurd h Bool.false_ne_true) fun _ ↦ nofun

/-- One step, from a state in which everything has been flushed that has to be. -/
theorem flushed_step {l : Label} (hsize : 64 ≤ s.conn.writer.w.size) (hs : s.Flushed)
    (h : s.step srv l = some s') :
    (s'.Flushed ↔ Prompt srv s l) ∧ 64 ≤ s'.conn.writer.w.size := by
  cases l with
  | command cmd buffered env =>
    obtain ⟨hlive, r, hr, rfl⟩ := step_command h
    obtain ⟨⟨reply, hwrite, hproper⟩, -, hexit⟩ := (Server.dispatch_spec cmd).of_ok hr
    have hkeep : r.1.writer.w.size = s.conn.writer.w.size ∧ r.1.writer.w.buf ≠ [] := by
      rw [hwrite]
      rcases hproper with ⟨-, hproper⟩ | ⟨-, rfl⟩
      · exact Reply.write_spec hsize hproper
      · refine ⟨Reply.size_writeError _ _, ?_⟩
        refine Writer.buf_write_ne_nil _ (by decide) (le_trans (by decide) (hsize.trans_eq ?_))
        simp only [Writer.size_writeString]
    refine ⟨?_, ?_⟩
    · rw [Prompt, ← hexit]
      exact flushed_finish
        (s := { s with conn := r.1, buffered := buffered, handled := s.handled + 1 })
        hkeep.2 hlive r.2
    · rw [(finish_spec _ r.2).2.1]
      exact hsize.trans_eq hkeep.1.symm
  | hangup =>
    rw [step_hangup h]
    exact ⟨iff_of_true (fun h ↦ absurd h Bool.false_ne_true) trivial, hsize⟩
  | others b =>
    rw [← Option.some_inj.mp h]
    exact ⟨iff_of_true hs trivial, hsize⟩

/-- **Replies are not withheld**, whatever the commands and however they arrive, in exactly the runs
in which no command that misses the flush is the last one at hand. -/
theorem flushed_iff_prompt (srv : Server) (b : Broker) {ls : List Label} {t : Session}
    (h : Run (step srv) (fun _ ↦ True) (start srv b) ls t) :
    Run.AllSteps (step srv) (fun _ _ s ↦ s.Flushed) (start srv b) ls ↔
      Run.Guarded (step srv) (Prompt srv) (start srv b) ls := by
  refine Run.allSteps_iff_guarded (I := fun s ↦ 64 ≤ s.conn.writer.w.size ∧ s.Flushed) ?_ h
    ⟨(by decide : 64 ≤ 64 * 1024), fun _ _ ↦ rfl⟩
  rintro s l u ⟨hsize, hs⟩ hstep
  obtain ⟨hiff, hkeep⟩ := flushed_step hsize hs hstep
  exact ⟨hiff, fun hu ↦ ⟨hkeep, hu⟩⟩

/-- A server without a password or a log, and an environment at rest. -/
def openServer : Server := ⟨[], id, MessageJson.codec⟩

def restingEnv : Env :=
  ⟨fun _ ↦ ⟨0, 1, [171, 205], int64Range_zero⟩, 0, ⟨0, id, fun _ ↦ List.Perm.refl _⟩⟩

/-- A new connection to it. -/
def firstContact : Session := start openServer (Broker.newBroker none 0)

/-- `XADD` with too few arguments, and more input behind it. -/
theorem flushed_iff_prompt_pipelined :
    ∃ t, Run (step openServer) (fun _ ↦ True) firstContact
        [.command ⟨bytesOf "XADD", [some (bytesOf "s")]⟩ 6 restingEnv,
          .command ⟨bytesOf "PING", []⟩ 0 restingEnv] t ∧
      Run.AllSteps (step openServer) (fun _ _ s ↦ s.Flushed) firstContact
        [.command ⟨bytesOf "XADD", [some (bytesOf "s")]⟩ 6 restingEnv,
          .command ⟨bytesOf "PING", []⟩ 0 restingEnv] := by
  have hsome : (Run.exec (step openServer) (fun _ ↦ True) firstContact
      [.command ⟨bytesOf "XADD", [some (bytesOf "s")]⟩ 6 restingEnv,
        .command ⟨bytesOf "PING", []⟩ 0 restingEnv]).isSome := by decide +kernel
  have hrun := Run.of_exec (Option.some_get hsome).symm
  refine ⟨_, hrun, (flushed_iff_prompt openServer (Broker.newBroker none 0) hrun).mpr ?_⟩
  have hcheck : Run.checkGuard (step openServer) (fun s l ↦ decide (Prompt openServer s l))
      firstContact [.command ⟨bytesOf "XADD", [some (bytesOf "s")]⟩ 6 restingEnv,
        .command ⟨bytesOf "PING", []⟩ 0 restingEnv] = true := by decide +kernel
  have hguarded := Run.guarded_of_checkGuard hcheck
  simp only [decide_eq_true_eq] at hguarded
  exact hguarded

/-- Client and server wait for each other: the client has sent one line, the server has read it and
has not sent its reply. -/
theorem reply_withheld :
    Resp.readCommand id (bytesOf "XADD s\r\n")
        = .ok (⟨bytesOf "XADD", [some (bytesOf "s")]⟩, []) ∧
      ∃ t, Run (step openServer) (fun _ ↦ True) firstContact
          [.command ⟨bytesOf "XADD", [some (bytesOf "s")]⟩ 0 restingEnv] t ∧
        t.conn.writer.sent = [] ∧ ¬t.Flushed := by
  refine ⟨by decide +kernel, ?_⟩
  have hsome : (Run.exec (step openServer) (fun _ ↦ True) firstContact
      [.command ⟨bytesOf "XADD", [some (bytesOf "s")]⟩ 0 restingEnv]).isSome := by decide +kernel
  have hrun := Run.of_exec (Option.some_get hsome).symm
  have hend := hrun.of_exec_map
    (f := fun s ↦ (s.live, s.buffered, s.conn.writer.sent, s.conn.writer.w.buf))
    (a := (true, 0, [], bytesOf "-ERR wrong number of arguments for 'xadd'\r\n"))
    (by decide +kernel)
  simp only [Prod.mk.injEq] at hend
  obtain ⟨hlive, hbuffered, hsent, hbuf⟩ := hend
  refine ⟨_, hrun, hsent, fun hflushed ↦ ?_⟩
  exact absurd (hbuf.symm.trans (hflushed hlive hbuffered)) (by decide)

/-! ## One reply for each command -/

open Resp (Value)

/-- The stream is, in exactly one way, a sequence of values, one for each command. -/
def OneEach (s : Session) : Prop :=
  ∃! vs : List Value, vs.length = s.handled ∧ s.conn.writer.stream = vs.flatMap Value.bytes

theorem oneEach_iff : s.OneEach ↔
    ∃ vs : List Value, vs.length = s.handled ∧ s.conn.writer.stream = vs.flatMap Value.bytes := by
  refine ⟨ExistsUnique.exists, fun ⟨vs, hvs⟩ ↦ ⟨vs, hvs, fun vs' hvs' ↦ ?_⟩⟩
  exact Value.flatMap_bytes_injective (hvs'.2.symm.trans hvs.2)

/-- The name of an unknown command fits in a line. -/
def Quotable (s : Session) : Label → Prop
  | .command cmd _ _ => Server.Unknown s.conn cmd → Resp.Plain cmd.name
  | _ => True

instance (s : Session) (l : Label) : Decidable (Quotable s l) := by
  cases l <;> unfold Quotable <;> infer_instance

/-- A reply continues a stream of values if and only if it is a value. -/
theorem oneEach_append {stream : Bytes} (hs : s.OneEach) (hhandled : s'.handled = s.handled + 1)
    (hstream : s'.conn.writer.stream = s.conn.writer.stream ++ stream) :
    s'.OneEach ↔ ∃ v : Value, stream = v.bytes := by
  obtain ⟨vs, hlen, hvs⟩ := oneEach_iff.mp hs
  rw [oneEach_iff]
  constructor
  · rintro ⟨vs', hlen', hvs'⟩
    rw [hstream, hvs] at hvs'
    obtain ⟨rest, rfl, hrest⟩ :=
      Value.selfDelimiting_bytes.exists_of_append hvs' (by rw [hlen', hhandled, hlen]; omega)
    rw [List.length_append] at hlen'
    obtain ⟨v, rfl⟩ := List.length_eq_one_iff.mp (show rest.length = 1 by omega)
    exact ⟨v, hrest.trans (List.flatMap_singleton _ _)⟩
  · rintro ⟨v, rfl⟩
    refine ⟨vs ++ [v], ?_, ?_⟩
    · rw [List.length_append, List.length_singleton, hhandled, hlen]
    · rw [hstream, hvs, List.flatMap_append, List.flatMap_singleton]

theorem oneEach_step {l : Label} (hs : s.OneEach) (h : s.step srv l = some s') :
    s'.OneEach ↔ Quotable s l := by
  cases l with
  | command cmd buffered env =>
    obtain ⟨-, r, hr, rfl⟩ := step_command h
    obtain ⟨⟨reply, hwrite, hproper⟩, -⟩ := (Server.dispatch_spec cmd).of_ok hr
    obtain ⟨hstream, -, hhandled, -, -⟩ := finish_spec
      { s with conn := r.1, buffered := buffered, handled := s.handled + 1 } r.2
    have hwritten := hstream.trans (congrArg Writer.stream hwrite)
    rcases hproper with ⟨hknown, hproper⟩ | ⟨hunknown, rfl⟩
    · obtain ⟨v, hv⟩ := reply.exists_value hproper s.conn.writer
      rw [oneEach_append hs hhandled (hwritten.trans hv)]
      exact iff_of_true ⟨v, rfl⟩ fun hu ↦ absurd hu hknown
    · rw [oneEach_append hs hhandled (hwritten.trans (Writer.stream_writeError _ _)), Quotable]
      constructor
      · rintro ⟨v, hv⟩ -
        exact Server.plain_unknownCommand.mp (Reply.plain_of_value hv)
      · intro hplain
        obtain ⟨v, hv⟩ := Reply.exists_value (.error (Server.unknownCommand cmd.name))
          (Server.plain_unknownCommand.mpr (hplain hunknown)) s.conn.writer
        rw [Reply.write, Writer.stream_writeError] at hv
        exact ⟨v, List.append_cancel_left hv⟩
  | hangup =>
    rw [step_hangup h]
    refine iff_of_true ?_ trivial
    rw [oneEach_iff] at hs ⊢
    obtain ⟨vs, hlen, hvs⟩ := hs
    exact ⟨vs, hlen, (s.conn.writer.stream_flush).trans hvs⟩
  | others b =>
    rw [← Option.some_inj.mp h]
    exact iff_of_true hs trivial

/-- **One command, one reply**, in exactly the runs in which the names of unknown commands fit in a
line. The values are counted after every command, so that they stand in the order of the
commands. -/
theorem oneEach_iff_quotable (srv : Server) (b : Broker) {ls : List Label} {t : Session}
    (h : Run (step srv) (fun _ ↦ True) (start srv b) ls t) :
    Run.AllSteps (step srv) (fun _ _ s ↦ s.OneEach) (start srv b) ls ↔
      Run.Guarded (step srv) Quotable (start srv b) ls := by
  refine Run.allSteps_iff_guarded (I := OneEach) ?_ h (oneEach_iff.mpr ⟨[], rfl, rfl⟩)
  intro s l u hs hstep
  exact ⟨oneEach_step hs hstep, id⟩

/-- Two unknown commands. -/
theorem oneEach_iff_quotable_unknown :
    ∃ t, Run (step openServer) (fun _ ↦ True) firstContact
        [.command ⟨bytesOf "A", []⟩ 1 restingEnv, .command ⟨bytesOf "B", []⟩ 0 restingEnv] t ∧
      Run.AllSteps (step openServer) (fun _ _ s ↦ s.OneEach) firstContact
        [.command ⟨bytesOf "A", []⟩ 1 restingEnv, .command ⟨bytesOf "B", []⟩ 0 restingEnv] := by
  have hsome : (Run.exec (step openServer) (fun _ ↦ True) firstContact
      [.command ⟨bytesOf "A", []⟩ 1 restingEnv,
        .command ⟨bytesOf "B", []⟩ 0 restingEnv]).isSome := by decide +kernel
  have hrun := Run.of_exec (Option.some_get hsome).symm
  refine ⟨_, hrun, (oneEach_iff_quotable openServer (Broker.newBroker none 0) hrun).mpr ?_⟩
  refine Run.guarded_of_forall fun l hl s ↦ ?_
  rcases List.mem_pair.mp hl with rfl | rfl
  · exact fun _ ↦ (by decide : Resp.Plain (bytesOf "A"))
  · exact fun _ ↦ (by decide : Resp.Plain (bytesOf "B"))

/-- A name with a line break makes two lines of the reply. -/
theorem reply_broken_by_name :
    Resp.readCommand id (bytesOf "*1\r\n$8\r\nA\r\n+OK\r\n\r\n")
        = .ok (⟨bytesOf "A\r\n+OK\r\n", []⟩, []) ∧
      ∃ t, Run (step openServer) (fun _ ↦ True) firstContact
          [.command ⟨bytesOf "A\r\n+OK\r\n", []⟩ 0 restingEnv] t ∧
        t.conn.writer.sent = bytesOf "-ERR unknown command 'A\r\n+OK\r\n'\r\n" ∧ ¬t.OneEach := by
  refine ⟨by decide +kernel, ?_⟩
  have hsome : (Run.exec (step openServer) (fun _ ↦ True) firstContact
      [.command ⟨bytesOf "A\r\n+OK\r\n", []⟩ 0 restingEnv]).isSome := by decide +kernel
  have hrun := Run.of_exec (Option.some_get hsome).symm
  refine ⟨_, hrun, hrun.of_exec_map (f := fun s ↦ s.conn.writer.sent) (by decide +kernel), ?_⟩
  cases hrun with
  | cons _ hstep hnil =>
    cases hnil with
    | nil _ =>
      intro hone
      have hquotable := (oneEach_step (oneEach_iff.mpr ⟨[], rfl, rfl⟩) hstep).mp hone
      exact absurd hquotable (by decide +kernel)

end Session

end VortexMQ
