import VortexMQ.Basic.Ending
import VortexMQ.Protocol.Reader
import VortexMQ.Queue.Stats
import VortexMQ.Wal.MessageJson

/-!
# The connection handler

`handleConnection` of `internal/network/server.go`: read a command, let a switch of two dozen cases
write a reply, flush when no further input is at hand. The cases leave the switch in three ways, by
its end, by `continue`, which skips the flush, and by `return`.

A case ends with a reply, or it waits for a message, or it brings the process down. Arguments are
taken from their slice by index, as in the source, and an index out of range is a fault; so is a
pointer to a topic that is not there.
-/

namespace VortexMQ

/-- The run-time panics of the source. -/
inductive Panic where
  /-- An index or a slice out of range. -/
  | index
  /-- `make` with a negative length, or one that no slice can have. -/
  | allocation
  | nilPointer
  | negativeShift
  | closedChannel
  /-- In a call of the log. -/
  | log
  deriving DecidableEq

/-! ## Channels -/

namespace Broker

variable (b : Broker) (channel : Bytes)

def subscribeChannel : Broker :=
  { b with
    channels := b.channels.insert channel (⟨[], false⟩ :: (b.channels.lookup channel).getD []) }

/-- `UnsubscribeChannel`, by the position of the subscriber. Its Go channel is closed when it is no
longer in the map. -/
def unsubscribeChannel (i : ℕ) : Broker :=
  match b.channels.lookup channel with
  | none => b
  | some subs =>
      if subs.eraseIdx i = [] then { b with channels := b.channels.erase channel }
      else { b with channels := b.channels.insert channel (subs.eraseIdx i) }

/-- The buffer of a subscriber has room. -/
def Subscriber.HasRoom (sub : Subscriber) : Prop := sub.queue.length < 1024

instance (sub : Subscriber) : Decidable (Subscriber.HasRoom sub) :=
  inferInstanceAs (Decidable (_ < _))

/-- `Broadcast`: a subscriber whose buffer is full misses the payload. -/
def broadcast (payload : Option Bytes) : Ending Panic (ℕ × Broker) :=
  match b.channels.lookup channel with
  | none => .ok (0, b)
  | some subs =>
      if subs.any Subscriber.closed then .fault .closedChannel
      else
        .ok ((subs.filter fun sub ↦ Subscriber.HasRoom sub).length,
          { b with
            channels := b.channels.insert channel (subs.map fun sub ↦
              if Subscriber.HasRoom sub then { sub with queue := sub.queue ++ [payload] }
              else sub) })

end Broker

/-! ## State -/

/-- What stays the same while the server runs: its password, the case table of Unicode, and the JSON
of messages. -/
structure Server where
  password : Bytes
  upper : Char → Char
  codec : Codec

/-- What a command takes from its environment: a stamp for each message that it makes, the time, and
the survey of `Stats`. -/
structure Env where
  stamp : ℕ → Stamp
  now : ℤ
  survey : Survey

/-- The variables of a handler, and the broker. -/
structure Conn where
  writer : Writer
  broker : Broker
  authenticated : Bool

/-- How a case leaves the switch. -/
inductive Exit
  | flush
  /-- By `continue`. -/
  | skip
  /-- By `return`. -/
  | quit
  deriving DecidableEq

namespace Conn

variable (c : Conn)

def error (msg : Bytes) : Conn := { c with writer := c.writer.writeError msg }

def raw (data : Bytes) : Conn := { c with writer := c.writer.writeRaw data }

def integer (n : ℤ) : Conn := { c with writer := c.writer.writeInteger n }

def bulk (b : Option Bytes) : Conn := { c with writer := c.writer.writeBulkString b }

def array (elements : List (Option Bytes)) : Conn :=
  { c with writer := c.writer.writeArray (some elements) }

/-- The end of the cases for publishing: the identifier, or the error. -/
def answerID (r : Except Bytes Message × Broker) : Conn :=
  match r.1 with
  | .error err => { c with broker := r.2 }.error err
  | .ok msg => { c with broker := r.2 }.bulk (some msg.id)

/-- The end of the cases that succeed or are rejected. -/
def answerOK (ok : Bool) (b : Broker) (rejected : Bytes) : Conn :=
  if ok then { c with broker := b }.raw Resp.ok else { c with broker := b }.error rejected

end Conn

/-! ## Calls of the broker -/

/-- The arguments of a command; a nil argument is one of negative length. -/
abbrev Args := List (Option Bytes)

namespace Args

/-- `cmd.Args[i]`. -/
def arg (args : Args) (i : ℕ) : Ending Panic (Option Bytes) :=
  .ofOption (.fault .index) args[i]?

/-- `string(cmd.Args[i])`. -/
def text (args : Args) (i : ℕ) : Ending Panic Bytes := do
  let arg ← args.arg i
  return arg.getD []

/-- `cmd.Args[i:]`. -/
def after (args : Args) (i : ℕ) : Ending Panic Args :=
  if i ≤ args.length then .ok (args.drop i) else .fault .index

end Args

/-- A call that can fail only in the log. -/
def Ending.ofLog {α : Type} (x : Option α) : Ending Panic α := .ofOption (.fault .log) x

/-- A call that returns unless it has to wait. -/
def Ending.ofPop {α : Type} (x : Option α) : Ending Panic α := .ofOption .wait x

/-! ## The cases -/

namespace Server

variable (srv : Server) (env : Env) (c : Conn) (args : Args)

def ping : Ending Panic Conn :=
  if 0 < args.length then do
    let arg ← args.arg 0
    return c.bulk arg
  else return c.raw Resp.pong

def echo : Ending Panic Conn :=
  if 0 < args.length then do
    let arg ← args.arg 0
    return c.bulk arg
  else return c.error (bytesOf "wrong number of arguments for 'echo'")

def auth : Ending Panic Conn :=
  if args.length ≠ 1 then return c.error (bytesOf "wrong number of arguments for 'auth'")
  else do
    let arg ← args.text 0
    if srv.password ≠ [] ∧ arg = srv.password then
      return { c with authenticated := true }.raw Resp.ok
    else if srv.password = [] then return { c with authenticated := true }.raw Resp.ok
    else return c.error (bytesOf "ERR invalid password")

def info : Conn := c.bulk (some (c.broker.stats env.survey).info)

/-! ### Lists -/

/-- The loop over the values of a push; errors are ignored. -/
def pushAll (front : Bool) (topicName : Bytes) : Args → ℕ → Broker → Ending Panic Broker
  | [], _, b => return b
  | val :: vals, i, b => do
      let r ← .ofLog (if front then b.publishFront srv.codec topicName val (env.stamp i)
        else b.publish srv.codec topicName val (env.stamp i))
      pushAll front topicName vals (i + 1) r.2

/-- `LPUSH` and `RPUSH`. -/
def pushWith (front : Bool) (usage : Bytes) : Ending Panic Conn :=
  if args.length < 2 then return c.error usage
  else do
    let topicName ← args.text 0
    let vals ← args.after 1
    let b ← srv.pushAll env front topicName vals 0 c.broker
    let t ← .ofOption (.fault .nilPointer) (b.getTopic topicName)
    return { c with broker := b }.integer t.stats.length

def lpush : Ending Panic Conn :=
  srv.pushWith env c args true (bytesOf "wrong number of arguments for 'lpush'")

def rpush : Ending Panic Conn :=
  srv.pushWith env c args false (bytesOf "wrong number of arguments for 'rpush'")

/-- `LPOP` and `RPOP`. -/
def popWith (usage : Bytes) : Ending Panic Conn :=
  if args.length < 1 then return c.error usage
  else do
    let topicName ← args.text 0
    let r ← .ofPop (c.broker.consume topicName 0)
    return { c with broker := r.2 }.bulk (r.1.bind Message.payload)

def lpop : Ending Panic Conn := popWith c args (bytesOf "wrong number of arguments for 'lpop'")

def rpop : Ending Panic Conn := popWith c args (bytesOf "wrong number of arguments for 'rpop'")

/-- `BRPOP` and `BLPOP`; the last argument is the timeout in seconds. -/
def brpop : Ending Panic Conn :=
  if args.length < 2 then return c.error (bytesOf "wrong number of arguments for blocking pop")
  else do
    let topicName ← args.text 0
    let timeoutSec ← args.text (args.length - 1)
    let r ← .ofPop (c.broker.consume topicName (wrap64 ((Text.atoi timeoutSec).1 * second)))
    match r.1 with
    | none => return { c with broker := r.2 }.raw Resp.nullBulk
    | some msg => return { c with broker := r.2 }.array [some topicName, msg.payload]

def llen : Ending Panic Conn :=
  if args.length ≠ 1 then return c.error (bytesOf "wrong number of arguments for 'llen'")
  else do
    let topicName ← args.text 0
    match c.broker.getTopic topicName with
    | some t => return c.integer t.stats.length
    | none => return c.integer 0

/-! ### Streams -/

/-- Set an entry of a `map[string]string`, kept in the order in which `json.Marshal` writes it. -/
def setEntry (key val : Bytes) : List (Bytes × Bytes) → List (Bytes × Bytes)
  | [] => [(key, val)]
  | e :: es =>
      if key < e.1 then (key, val) :: e :: es
      else if key = e.1 then (key, val) :: es
      else e :: setEntry key val es

/-- The loop over the fields and values of `XADD` at position `i`; an odd one at the end is ignored.
Every round but the last one takes two arguments. -/
def payloadMap : ℕ → ℕ → List (Bytes × Bytes) → Ending Panic (List (Bytes × Bytes))
  | 0, _, m => return m
  | fuel + 1, i, m =>
      if i + 1 < args.length then do
        let key ← args.text i
        let val ← args.text (i + 1)
        payloadMap fuel (i + 2) (setEntry key val m)
      else return m

/-- `json.Marshal(payloadMap)`. -/
def payloadBytes (m : List (Bytes × Bytes)) : Bytes := 123 :: (MessageJson.entriesText m ++ [125])

def xadd : Ending Panic (Conn × Exit) :=
  if args.length < 3 then
    return (c.error (bytesOf "wrong number of arguments for 'xadd'"), .skip)
  else do
    let topicName ← args.text 0
    let rest ← args.after 2
    let m ← payloadMap rest rest.length 0 []
    let r ← .ofLog (c.broker.publish srv.codec topicName (some (payloadBytes m)) (env.stamp 0))
    return (c.answerID r, .flush)

/-- The beginning of the condition in `XGROUP`, which looks at an argument only if there is one. -/
def isCreate : Ending Panic Bool :=
  if 4 ≤ args.length then do
    let sub ← args.text 0
    return Text.toUpper srv.upper sub = bytesOf "CREATE"
  else return false

def xgroup : Ending Panic Conn := do
  if ← srv.isCreate args then
    let topicName ← args.text 1
    let groupName ← args.text 2
    let found := c.broker.getOrCreateTopic topicName
    return { c with
      broker := found.2.setTopic topicName
        (found.1.getOrCreateGroup groupName (30 * second)) }.raw Resp.ok
  else return c.error (bytesOf "unsupported xgroup subcommand")

/-- What `XREADGROUP` is asked for. -/
structure GroupRead where
  groupName : Bytes
  consumerID : Bytes
  topicName : Bytes
  blockMs : ℤ

/-- The loop over the arguments of `XREADGROUP` at position `i`. -/
def groupRead : ℕ → ℕ → GroupRead → Ending Panic GroupRead
  | 0, _, q => return q
  | fuel + 1, i, q =>
      if i < args.length then do
        let arg ← args.text i
        let word := Text.toUpper srv.upper arg
        if word = bytesOf "GROUP" ∧ i + 2 < args.length then
          let groupName ← args.text (i + 1)
          let consumerID ← args.text (i + 2)
          groupRead fuel (i + 3) { q with groupName := groupName, consumerID := consumerID }
        else if word = bytesOf "BLOCK" ∧ i + 1 < args.length then
          let ms ← args.text (i + 1)
          groupRead fuel (i + 2) { q with blockMs := (Text.atoi ms).1 }
        else if word = bytesOf "STREAMS" ∧ i + 1 < args.length then
          let topicName ← args.text (i + 1)
          return { q with topicName := topicName }
        else groupRead fuel (i + 1) q
      else return q

/-- The whole loop; `blockMs` is the value of that variable before it. -/
def parseGroupRead (blockMs : ℤ) : Ending Panic GroupRead :=
  srv.groupRead args args.length 0 ⟨[], [], [], blockMs⟩

def xreadgroup : Ending Panic (Conn × Exit) := do
  let q ← srv.parseGroupRead args 0
  if q.topicName = [] ∨ q.groupName = [] then
    return (c.error (bytesOf "invalid xreadgroup arguments"), .skip)
  else
    let r ← .ofPop (c.broker.consumeGroup q.topicName q.groupName q.consumerID
      (wrap64 (q.blockMs * millisecond)) env.now)
    match r.1 with
    | none => return ({ c with broker := r.2 }.raw Resp.nullBulk, .flush)
    | some msg => return ({ c with broker := r.2 }.array [some msg.id, msg.payload], .flush)

/-- The loop over the identifiers of `XACK`. -/
def ackAll (topicName groupName : Bytes) : Args → ℤ → Broker → Ending Panic (ℤ × Broker)
  | [], ackedCount, b => return (ackedCount, b)
  | id :: ids, ackedCount, b => do
      let r ← .ofLog (b.ack topicName groupName (id.getD []))
      ackAll topicName groupName ids (if r.1 then ackedCount + 1 else ackedCount) r.2

def xack : Ending Panic (Conn × Exit) :=
  if args.length < 3 then
    return (c.error (bytesOf "wrong number of arguments for 'xack'"), .skip)
  else do
    let topicName ← args.text 0
    let groupName ← args.text 1
    let ids ← args.after 2
    let r ← ackAll topicName groupName ids 0 c.broker
    return ({ c with broker := r.2 }.integer r.1, .flush)

/-! ### Native commands -/

/-- The delay of `VMQ.PUBLISH`. -/
def publishDelay : Ending Panic ℤ :=
  if 3 ≤ args.length then do
    let arg ← args.text 2
    let ms := Text.atoi arg
    return if ms.2 ∧ 0 < ms.1 then wrap64 (ms.1 * millisecond) else 0
  else return 0

def vmqPublish : Ending Panic (Conn × Exit) :=
  if args.length < 2 then
    return (c.error (bytesOf "wrong number of arguments for 'vmq.publish'"), .skip)
  else do
    let topicName ← args.text 0
    let payload ← args.arg 1
    let delay ← publishDelay args
    let r ← .ofLog (if 0 < delay then
        c.broker.publishDelayed srv.codec topicName payload delay (env.stamp 0) env.now
      else c.broker.publish srv.codec topicName payload (env.stamp 0))
    return (c.answerID r, .flush)

/-- The timeout of `VMQ.CONSUME`. -/
def consumeTimeout : Ending Panic ℤ :=
  if 2 ≤ args.length then do
    let arg ← args.text 1
    let ms := Text.atoi arg
    return if ms.2 then wrap64 (ms.1 * millisecond) else 0
  else return 0

def vmqConsume : Ending Panic (Conn × Exit) :=
  if args.length < 1 then
    return (c.error (bytesOf "wrong number of arguments for 'vmq.consume'"), .skip)
  else do
    let topicName ← args.text 0
    let timeout ← consumeTimeout args
    let r ← .ofPop (c.broker.consume topicName timeout)
    match r.1 with
    | none => return ({ c with broker := r.2 }.raw Resp.nullBulk, .flush)
    | some msg => return ({ c with broker := r.2 }.bulk msg.payload, .flush)

def vmqAck : Ending Panic (Conn × Exit) :=
  if args.length ≠ 3 then
    return (c.error (bytesOf "usage: VMQ.ACK <topic> <group> <msg_id>"), .skip)
  else do
    let topicName ← args.text 0
    let groupName ← args.text 1
    let msgID ← args.text 2
    let r ← .ofLog (c.broker.ack topicName groupName msgID)
    return (c.answerOK r.1 r.2 (bytesOf "ACK rejected: message not found in pending list"), .flush)

/-- The reason of `VMQ.NACK`. -/
def nackReason : Ending Panic Bytes :=
  if 4 ≤ args.length then args.text 3 else return bytesOf "processing failed"

def vmqNack : Ending Panic (Conn × Exit) :=
  if args.length < 3 then
    return (c.error (bytesOf "usage: VMQ.NACK <topic> <group> <msg_id> [reason]"), .skip)
  else do
    let reason ← nackReason args
    let topicName ← args.text 0
    let groupName ← args.text 1
    let msgID ← args.text 2
    let r ← .ofOption (.fault .negativeShift)
      (c.broker.nack topicName groupName msgID reason env.now)
    return (c.answerOK r.1 r.2 (bytesOf "NACK rejected: message not found in pending list"), .flush)

def vmqReplay : Ending Panic (Conn × Exit) :=
  if args.length ≠ 2 then
    return (c.error (bytesOf "usage: VMQ.REPLAY <topic> <msg_id>"), .skip)
  else do
    let topicName ← args.text 0
    let msgID ← args.text 1
    let r := c.broker.replayDLQ topicName msgID env.now
    return (c.answerOK r.1.isSome r.2 (bytesOf "message not found in dead letter queue"), .flush)

def vmqPublishBatch : Ending Panic Conn :=
  if args.length < 2 then
    return c.error (bytesOf "usage: VMQ.PUBLISH_BATCH <topic> <payload1> [payload2...]")
  else do
    let topicName ← args.text 0
    let payloads ← args.after 1
    let r ← .ofLog (c.broker.publishBatch srv.codec topicName
      (payloads.mapIdx fun i p ↦ (p, env.stamp i)))
    return { c with broker := r.2 }.integer r.1

def vmqBroadcast : Ending Panic Conn :=
  if args.length ≠ 2 then return c.error (bytesOf "usage: VMQ.BROADCAST <channel> <message>")
  else do
    let channel ← args.text 0
    let payload ← args.arg 1
    let r ← c.broker.broadcast channel payload
    return { c with broker := r.2 }.integer r.1

def vmqStats : Conn := c.bulk (some (c.broker.stats env.survey).marshal)

end Server

/-! ## The switch -/

/-- The cases of the switch. -/
inductive Verb
  | ping | echo | auth | command | info
  | lpush | rpush | lpop | rpop | brpop | llen
  | xadd | xgroup | xreadgroup | xack
  | vmqPublish | vmqConsume | vmqAck | vmqNack | vmqReplay | vmqPublishBatch | vmqBroadcast
  | vmqStats | quit
  deriving DecidableEq

def Verb.table : List (Bytes × Verb) :=
  [(bytesOf "PING", .ping), (bytesOf "ECHO", .echo), (bytesOf "AUTH", .auth),
    (bytesOf "COMMAND", .command), (bytesOf "INFO", .info), (bytesOf "LPUSH", .lpush),
    (bytesOf "RPUSH", .rpush), (bytesOf "LPOP", .lpop), (bytesOf "RPOP", .rpop),
    (bytesOf "BRPOP", .brpop), (bytesOf "BLPOP", .brpop), (bytesOf "LLEN", .llen),
    (bytesOf "XADD", .xadd), (bytesOf "XGROUP", .xgroup), (bytesOf "XREADGROUP", .xreadgroup),
    (bytesOf "XACK", .xack), (bytesOf "VMQ.PUBLISH", .vmqPublish),
    (bytesOf "VMQ.CONSUME", .vmqConsume), (bytesOf "VMQ.ACK", .vmqAck),
    (bytesOf "VMQ.NACK", .vmqNack), (bytesOf "VMQ.REPLAY", .vmqReplay),
    (bytesOf "VMQ.PUBLISH_BATCH", .vmqPublishBatch), (bytesOf "VMQ.BROADCAST", .vmqBroadcast),
    (bytesOf "VMQ.STATS", .vmqStats), (bytesOf "QUIT", .quit)]

/-- The case for a name; `none` is the default. -/
def Verb.ofName (name : Bytes) : Option Verb := Verb.table.lookup name

namespace Server

variable (srv : Server) (env : Env) (c : Conn)

/-- A case that is left by its end. -/
def thenFlush (x : Ending Panic Conn) : Ending Panic (Conn × Exit) := do
  let c ← x
  return (c, .flush)

/-- The body of a case. -/
def handle (args : Args) : Verb → Ending Panic (Conn × Exit)
  | .ping => thenFlush (ping c args)
  | .echo => thenFlush (echo c args)
  | .auth => thenFlush (srv.auth c args)
  | .command => return (c.raw Resp.emptyArray, .flush)
  | .info => return (info env c, .flush)
  | .lpush => thenFlush (srv.lpush env c args)
  | .rpush => thenFlush (srv.rpush env c args)
  | .lpop => thenFlush (lpop c args)
  | .rpop => thenFlush (rpop c args)
  | .brpop => thenFlush (brpop c args)
  | .llen => thenFlush (llen c args)
  | .xadd => srv.xadd env c args
  | .xgroup => thenFlush (srv.xgroup c args)
  | .xreadgroup => srv.xreadgroup env c args
  | .xack => xack c args
  | .vmqPublish => srv.vmqPublish env c args
  | .vmqConsume => vmqConsume c args
  | .vmqAck => vmqAck c args
  | .vmqNack => vmqNack env c args
  | .vmqReplay => vmqReplay env c args
  | .vmqPublishBatch => thenFlush (srv.vmqPublishBatch env c args)
  | .vmqBroadcast => thenFlush (vmqBroadcast c args)
  | .vmqStats => return (vmqStats env c, .flush)
  | .quit => return (c.raw Resp.ok, .quit)

/-- A command is turned away for lack of a password. -/
def Refused (cmd : Command) : Prop :=
  c.authenticated = false ∧ cmd.name ≠ bytesOf "AUTH" ∧ cmd.name ≠ bytesOf "QUIT"

instance (cmd : Command) : Decidable (Refused c cmd) := by
  unfold Refused
  infer_instance

/-- The text of the default case. -/
def unknownCommand (name : Bytes) : Bytes := bytesOf "unknown command '" ++ name ++ bytesOf "'"

/-- What is done with a command, up to the flush. The check of the password has a conditional flush
of its own, so that its `continue` skips nothing. -/
def dispatch (cmd : Command) : Ending Panic (Conn × Exit) :=
  if Refused c cmd then return (c.error (bytesOf "NOAUTH Authentication required."), .flush)
  else
    match Verb.ofName cmd.name with
    | some verb => srv.handle env c cmd.args verb
    | none => return (c.error (unknownCommand cmd.name), .flush)

end Server

/-! ## The loop -/

/-- A handler before a call of `ReadCommand`, or after its end. -/
structure Session where
  conn : Conn
  /-- `reader.Buffered()`. -/
  buffered : ℕ
  /-- How many commands have been handled. -/
  handled : ℕ
  live : Bool

namespace Session

/-- `handleConnection` up to its first `ReadCommand`. -/
def start (srv : Server) (b : Broker) : Session where
  conn := { writer := Writer.new, broker := b, authenticated := srv.password = [] }
  buffered := 0
  handled := 0
  live := true

inductive Label
  /-- `ReadCommand` has returned a command, with so many bytes left in the reader's buffer. -/
  | command (cmd : Command) (buffered : ℕ) (env : Env)
  /-- `ReadCommand` has failed. -/
  | hangup
  /-- The rest of the server has changed the broker. -/
  | others (b : Broker)

/-- The function returns, and its deferred call flushes. -/
def leave (s : Session) : Session :=
  { s with conn := { s.conn with writer := s.conn.writer.flush }, live := false }

/-- The end of the loop's body: the flush, if no input is at hand. -/
def settle (s : Session) : Session :=
  if s.buffered = 0 then { s with conn := { s.conn with writer := s.conn.writer.flush } } else s

/-- The rest of the loop's body, by the way the switch was left. -/
def finish (s : Session) : Exit → Session
  | .flush => s.settle
  | .skip => s
  | .quit => s.leave

/-- From one call of `ReadCommand` to the next. -/
def step (srv : Server) (s : Session) : Label → Option Session
  | .command cmd buffered env =>
      if s.live then
        match srv.dispatch env s.conn cmd with
        | .ok r =>
            some ({ s with conn := r.1, buffered := buffered, handled := s.handled + 1 }.finish r.2)
        | .wait | .fault _ => none
      else none
  | .hangup => if s.live then some s.leave else none
  | .others b => some { s with conn := { s.conn with broker := b } }

end Session

end VortexMQ
