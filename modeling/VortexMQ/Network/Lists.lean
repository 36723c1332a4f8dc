import VortexMQ.Network.Arrays
import VortexMQ.Network.Shutdown

/-!
# List commands

`LPUSH`, `RPUSH`, `LPOP`, `RPOP` and `LLEN` against the list that the reference describes. The
pushes go to the two ends of a ring, but both pops call `Consume`, which takes from the front. So
the commands agree with the list as long as `RPOP` is used only where the two ends cannot be told
apart.

`Consume` is also what the blocking pops call, and a timeout of zero means to it that there is no
deadline. A plain pop from an empty queue therefore waits.
-/

namespace VortexMQ

/-! ## Pops from an empty queue -/

/-- The topic exists, it is open, and its ring is empty. -/
def Broker.Idle (b : Broker) (name : Bytes) : Prop :=
  ∃ t, b.topics.lookup name = some t ∧ t.Accepts ∧ t.ring.items = []

theorem Topic.popWait_eq_none {t : Topic} (hopen : t.ring.closed = false)
    (hempty : t.ring.items = []) : t.popWait 0 = none := by
  have hpop : t.pop = none := by
    rw [pop, t.ring.pop_eq.1, hempty]
    rfl
  rw [popWait, hpop]
  simp only [hopen, Bool.false_eq_true, ne_eq, not_true_eq_false, or_self, if_false]

namespace Broker.Idle

variable {b : Broker} {name : Bytes}

private theorem consume (h : b.Idle name) : b.consume name 0 = none := by
  obtain ⟨t, ht, haccepts, hempty⟩ := h
  rw [Broker.consume, getTopic, ht]
  simp only [Topic.runConsumeWait, Topic.popWait_eq_none (congrArg Prod.snd haccepts) hempty,
    Option.map_none]

private theorem consumeGroup (h : b.Idle name) (groupName consumerID : Bytes) (now : ℤ) :
    b.consumeGroup name groupName consumerID 0 now = none := by
  obtain ⟨t, ht, haccepts, hempty⟩ := h
  have hfound : b.getOrCreateTopic name = (t, b) := by
    rw [getOrCreateTopic, ht]
  have hring := t.ring_getOrCreateGroup groupName (30 * second)
  have hpop : (t.getOrCreateGroup groupName (30 * second)).popWait 0 = none :=
    Topic.popWait_eq_none (hring ▸ congrArg Prod.snd haccepts) (hring ▸ hempty)
  rw [Broker.consumeGroup, hfound]
  simp only [Topic.runConsumeGroup, hpop, Option.bind_none, Option.map_none]

end Broker.Idle

namespace Server

/-- `LPOP`, `RPOP`, or `XREADGROUP` without the option `BLOCK`, with the topic it addresses. Without
that option the loop over the arguments leaves `blockMs` as it is, whatever it is. -/
inductive PlainPop (srv : Server) : Command → Bytes → Prop
  | lpop (topic : Option Bytes) (rest : Args) :
      PlainPop srv ⟨bytesOf "LPOP", topic :: rest⟩ (topic.getD [])
  | rpop (topic : Option Bytes) (rest : Args) :
      PlainPop srv ⟨bytesOf "RPOP", topic :: rest⟩ (topic.getD [])
  | xreadgroup (args : Args) (q : GroupRead) :
      (∀ blockMs, srv.parseGroupRead args blockMs = .ok { q with blockMs := blockMs }) →
      q.topicName ≠ [] → q.groupName ≠ [] →
      PlainPop srv ⟨bytesOf "XREADGROUP", args⟩ q.topicName

/-- The null reply, in this very step. -/
def RepliesNull (srv : Server) (env : Env) (c : Conn) (cmd : Command) : Prop :=
  ∃ c', srv.dispatch env c cmd = .ok (c', .flush) ∧ c'.writer = c.writer.writeBulkString none

variable {srv : Server}

theorem dispatch_eq_handle {c : Conn} (hauth : c.authenticated = true) {name : Bytes} (verb : Verb)
    (hverb : Verb.ofName name = some verb) (env : Env) (args : Args) :
    srv.dispatch env c ⟨name, args⟩ = srv.handle env c args verb := by
  rw [dispatch, if_neg fun h : Refused c _ ↦ Bool.false_ne_true (h.1.symm.trans hauth)]
  simp only [hverb]

private theorem popWith_of_idle {c : Conn} {topic : Option Bytes}
    (h : c.broker.Idle (topic.getD []))
    (rest : Args) (usage : Bytes) : popWith c (topic :: rest) usage = .wait := by
  have hlen : ¬(topic :: rest).length < 1 := Nat.not_lt.mpr (Nat.succ_pos _)
  rw [popWith, if_neg hlen, Args.text_eq (Nat.succ_pos _), Ending.ok_bind]
  rw [show ((topic :: rest)[0]).getD [] = topic.getD [] from rfl, h.consume]
  rfl

/-- **Pops wait.** On an open and empty queue, none of the commands that are not supposed to wait
gets its null reply: all of them enter the wait without a deadline. -/
theorem not_repliesNull (srv : Server) (env : Env) (c : Conn) (hauth : c.authenticated = true)
    {cmd : Command} {name : Bytes} (hcmd : srv.PlainPop cmd name) (h : c.broker.Idle name) :
    ¬srv.RepliesNull env c cmd ∧ srv.dispatch env c cmd = .wait := by
  have hzero : wrap64 (0 * millisecond) = 0 := by decide
  have hwait : srv.dispatch env c cmd = .wait := by
    cases hcmd with
    | lpop topic rest =>
      rw [dispatch_eq_handle hauth .lpop (by decide +kernel)]
      simp only [handle, lpop, popWith_of_idle h]
      rfl
    | rpop topic rest =>
      rw [dispatch_eq_handle hauth .rpop (by decide +kernel)]
      simp only [handle, rpop, popWith_of_idle h]
      rfl
    | xreadgroup args q hparse htopic hgroup =>
      rw [dispatch_eq_handle hauth .xreadgroup (by decide +kernel)]
      rw [handle, xreadgroup, hparse 0, Ending.ok_bind, if_neg (not_or_intro htopic hgroup)]
      simp only [hzero, h.consumeGroup]
      rfl
  refine ⟨?_, hwait⟩
  rintro ⟨c', hok, -⟩
  cases hwait.symm.trans hok

def emptyQueue : Conn where
  writer := Writer.new
  broker := (Broker.newBroker none 0).setTopic (bytesOf "q") (Topic.default (bytesOf "q"))
  authenticated := true

/-- The three commands on an empty queue. -/
theorem not_repliesNull_emptyQueue :
    ¬Session.openServer.RepliesNull Session.restingEnv emptyQueue
        ⟨bytesOf "LPOP", [some (bytesOf "q")]⟩ ∧
      ¬Session.openServer.RepliesNull Session.restingEnv emptyQueue
        ⟨bytesOf "RPOP", [some (bytesOf "q")]⟩ ∧
      ¬Session.openServer.RepliesNull Session.restingEnv emptyQueue
        ⟨bytesOf "XREADGROUP", [some (bytesOf "group"), some (bytesOf "g"), some (bytesOf "block"),
          some (bytesOf "streams"), some (bytesOf "q"), some (bytesOf ">")]⟩ := by
  have hidle : emptyQueue.broker.Idle (bytesOf "q") :=
    ⟨_, AList.lookup_insert _, Topic.ring_default _⟩
  refine ⟨?_, ?_, ?_⟩
  · exact (not_repliesNull _ _ emptyQueue rfl (.lpop (some (bytesOf "q")) []) hidle).1
  · exact (not_repliesNull _ _ emptyQueue rfl (.rpop (some (bytesOf "q")) []) hidle).1
  · refine (not_repliesNull _ _ emptyQueue rfl
      (.xreadgroup _ ⟨bytesOf "g", bytesOf "block", bytesOf "q", 0⟩ (fun blockMs ↦ ?_) ?_ ?_)
      hidle).1
    · rfl
    · decide
    · decide

/-- A queue from which everything has been taken. -/
theorem lpop_waits :
    ∃ t : Session, Run (Session.step Session.openServer) (fun _ ↦ True) Session.firstContact
        [.command ⟨bytesOf "RPUSH", [some (bytesOf "q"), some (bytesOf "x")]⟩ 0 Session.restingEnv,
          .command ⟨bytesOf "LPOP", [some (bytesOf "q")]⟩ 0 Session.restingEnv] t ∧
      Session.openServer.dispatch Session.restingEnv t.conn
        ⟨bytesOf "LPOP", [some (bytesOf "q")]⟩ = .wait := by
  have hsome : (Run.exec (Session.step Session.openServer) (fun _ ↦ True) Session.firstContact
      [.command ⟨bytesOf "RPUSH", [some (bytesOf "q"), some (bytesOf "x")]⟩ 0 Session.restingEnv,
        .command ⟨bytesOf "LPOP", [some (bytesOf "q")]⟩ 0 Session.restingEnv]).isSome := by
    decide +kernel
  have hrun := Run.of_exec (Option.some_get hsome).symm
  refine ⟨_, hrun, Ending.isWait_iff.mp ?_⟩
  exact hrun.of_exec_map
    (f := fun s ↦ (Session.openServer.dispatch Session.restingEnv s.conn
      ⟨bytesOf "LPOP", [some (bytesOf "q")]⟩).isWait) (a := true) (by decide +kernel)

end Server

/-! ## The list -/

/-- The list commands on one topic. -/
inductive ListCommand where
  | lpush (vals : Args)
  | rpush (vals : Args)
  | lpop
  | rpop
  | llen
  deriving DecidableEq

namespace ListCommand

/-- The command as it is sent. -/
def command (name : Bytes) : ListCommand → Command
  | .lpush vals => ⟨bytesOf "LPUSH", some name :: vals⟩
  | .rpush vals => ⟨bytesOf "RPUSH", some name :: vals⟩
  | .lpop => ⟨bytesOf "LPOP", [some name]⟩
  | .rpop => ⟨bytesOf "RPOP", [some name]⟩
  | .llen => ⟨bytesOf "LLEN", [some name]⟩

/-- What the reference says becomes of the list. -/
def next (xs : Args) : ListCommand → Args
  | .lpush vals => vals.foldl (fun ys val ↦ val :: ys) xs
  | .rpush vals => xs ++ vals
  | .lpop => xs.tail
  | .rpop => xs.dropLast
  | .llen => xs

def reply (xs : Args) : ListCommand → Resp.Value
  | .lpop => .bulk (xs.head?.bind id)
  | .rpop => .bulk (xs.getLast?.bind id)
  | cmd => .integer (cmd.next xs).length

/-- A push has a value and leaves the list below saturation, a pop finds something. -/
def Allowed (xs : Args) : ListCommand → Prop
  | .lpush vals => vals ≠ [] ∧ (xs ++ vals).length < saturationCapacity.toNat
  | .rpush vals => vals ≠ [] ∧ (xs ++ vals).length < saturationCapacity.toNat
  | .lpop | .rpop => xs ≠ []
  | .llen => True

/-- The two ends of the list cannot be told apart, if it matters. -/
def Symmetric (xs : Args) : ListCommand → Prop
  | .rpop => ∀ x ∈ xs, ∀ y ∈ xs, x = y
  | _ => True

/-- The values that are pushed. -/
def values : ListCommand → Args
  | .lpush vals | .rpush vals => vals
  | _ => []

instance (xs : Args) (cmd : ListCommand) : Decidable (cmd.Allowed xs) := by
  cases cmd <;> unfold Allowed <;> infer_instance

instance (xs : Args) (cmd : ListCommand) : Decidable (cmd.Symmetric xs) := by
  cases cmd <;> unfold Symmetric <;> infer_instance

end ListCommand

/-! ### The broker -/

/-- Below saturation a message goes to the end of the ring where it is pushed. -/
theorem Topic.Accepts.runPublish_items {t : Topic} (h : t.Accepts) (msg : Message) (front : Bool)
    (hroom : t.ring.items.length < saturationCapacity.toNat) :
    (t.runPublish msg front).1 = true ∧
      (t.runPublish msg front).2.ring.items
        = (if front then msg :: t.ring.items else t.ring.items ++ [msg]) ∧
      (t.runPublish msg front).2.Accepts := by
  obtain ⟨hok, haccepts⟩ := h.runPublish msg front
  refine ⟨hok, ?_, haccepts⟩
  cases front with
  | false => exact h.items_runPublish hroom
  | true =>
    have hclosed : t.closed = false := congrArg Prod.fst h
    rw [Topic.runPublish, hclosed, if_neg Bool.false_ne_true, (t.fields_push msg true).2.1]
    exact (Ring.pushFront_eq msg (congrArg Prod.snd h) hroom).2.1

theorem Topic.runConsumeWait_of_items {t : Topic} {msg : Message} {msgs : List Message}
    (h : t.ring.items = msg :: msgs) (timeout : ℤ) :
    ∃ t', t.runConsumeWait timeout = some (some msg, t') ∧ t'.ring.items = msgs ∧
      t'.flags = t.flags := by
  obtain ⟨hpop, htail, hclosed⟩ := t.ring.pop_eq
  rw [h] at hpop htail
  have htaken : t.pop = some (msg, { t with ring := t.ring.pop.2 }) := by
    rw [pop, hpop]
    rfl
  have hflags : ({ t with ring := t.ring.pop.2 }.countConsumed msg).flags = t.flags :=
    congrArg (Prod.mk t.closed) hclosed
  refine ⟨{ t with ring := t.ring.pop.2 }.countConsumed msg, ?_, htail, hflags⟩
  rw [runConsumeWait, popWait, htaken]
  rfl

namespace Broker

/-- The queue holds the values, and it takes more. -/
structure Holding (b : Broker) (name : Bytes) (xs : Args) : Prop where
  values : (b.ringItems name).map Message.payload = xs
  accepts : ∀ t, b.topics.lookup name = some t → t.Accepts
  log : ∀ w, b.wal = some w → w.closed = false

namespace Holding

variable {b : Broker} {name : Bytes} {xs : Args} {codec : Codec}

private theorem getOrCreateTopic (h : b.Holding name xs) :
    (b.getOrCreateTopic name).1.Accepts ∧
      (b.getOrCreateTopic name).1.ring.items.map Message.payload = xs ∧
      (b.getOrCreateTopic name).2.wal = b.wal := by
  refine ⟨?_, ?_, b.wal_getOrCreateTopic name⟩
  · rw [Broker.getOrCreateTopic]
    split
    · rename_i t ht
      exact h.accepts t ht
    · exact (Topic.ring_default name).1
  · rw [(b.ringItems_getOrCreateTopic name name).1]
    exact h.values

private theorem logPublish (h : b.Holding name xs) (msg : Message)
    (hshort : b.wal.isSome → (Entry.publish msg).Short codec) :
    ∃ b', b.logPublish codec msg = some (.ok (), b') ∧ b'.topics = b.topics ∧
      b'.wal.isSome = b.wal.isSome ∧ ∀ w, b'.wal = some w → w.closed = false := by
  rw [Broker.logPublish]
  cases hw : b.wal with
  | none => exact ⟨b, rfl, rfl, by rw [hw], h.log⟩
  | some w =>
    have hshort := hshort (by rw [hw]; rfl)
    have hwrite : w.writePublish codec msg = _ := Wal.write_eq (h.log w hw) hshort
    have hclosed := Wal.closed_writeRecord hwrite
    refine ⟨{ b with wal := some (w.written (Entry.record codec (.publish msg) hshort)) }, ?_,
      rfl, rfl, fun w' hw' ↦ ?_⟩
    · simp only [hwrite, Option.map_some]
    · rw [← Option.some_inj.mp hw']
      exact hclosed.trans (h.log w hw)

/-- **A push** at either end. -/
theorem push (h : b.Holding name xs) (front : Bool) (val : Option Bytes) (st : Stamp)
    (hshort : b.wal.isSome → (Entry.publish (st.message name val)).Short codec)
    (hroom : xs.length < saturationCapacity.toNat) :
    ∃ r, b.publishWith codec (st.message name val) (putNow (st.message name val) front) = some r ∧
      r.2.Holding name (if front then val :: xs else xs ++ [val]) ∧
      r.2.wal.isSome = b.wal.isSome := by
  obtain ⟨haccepts, hitems, hwal⟩ := h.getOrCreateTopic
  let found := b.getOrCreateTopic name
  have hfound : found.2.Holding name xs := by
    refine ⟨?_, fun t ht ↦ ?_, fun w hw ↦ h.log w (hwal ▸ hw)⟩
    · rw [(b.ringItems_getOrCreateTopic name name).2]
      exact h.values
    · rw [b.lookup_getOrCreateTopic, Option.some_inj] at ht
      exact ht ▸ haccepts
  obtain ⟨b', hlog, htopics, hsome, hopen⟩ :=
    hfound.logPublish (st.message name val) (hwal ▸ hshort)
  have hlen : found.1.ring.items.length < saturationCapacity.toNat := by
    rw [← hitems, List.length_map] at hroom
    exact hroom
  obtain ⟨hok, hpushed, haccepts'⟩ := haccepts.runPublish_items (st.message name val) front hlen
  have hput : putNow (st.message name val) front found.1
      = (some (st.message name val), (found.1.runPublish (st.message name val) front).2) := by
    rw [putNow, hok, if_pos rfl]
  have hpublish : b.publishWith codec (st.message name val) (putNow (st.message name val) front)
      = some (.ok (st.message name val),
        { b'.setTopic name (found.1.runPublish (st.message name val) front).2 with
          totalPublished := b'.totalPublished + 1 }) := by
    rw [publishWith]
    change Option.map _ (found.2.logPublish codec (st.message name val)) = _
    rw [hlog, Option.map_some, show b.getOrCreateTopic (st.message name val).topic = found from rfl]
    simp only [hput]
    rfl
  refine ⟨_, hpublish, ⟨?_, fun t ht ↦ ?_, hopen⟩, ?_⟩
  · change ((b'.setTopic name _).ringItems name).map Message.payload = _
    rw [ringItems_setTopic, if_pos rfl, hpushed]
    cases front with
    | false =>
      rw [if_neg Bool.false_ne_true, if_neg Bool.false_ne_true, List.map_append, hitems]
      rfl
    | true =>
      rw [if_pos rfl, if_pos rfl, List.map_cons, hitems]
      rfl
  · change (b'.setTopic name _).topics.lookup name = some t at ht
    rw [setTopic, AList.lookup_insert, Option.some_inj] at ht
    exact ht ▸ haccepts'
  · exact hsome.trans (congrArg Option.isSome hwal)

/-- **A pop** takes the first value. -/
theorem pop (h : b.Holding name xs) {x : Option Bytes} {ys : Args} (hxs : xs = x :: ys) :
    ∃ r, b.consume name 0 = some r ∧ r.1.bind Message.payload = x ∧ r.2.Holding name ys ∧
      r.2.wal = b.wal := by
  have hvalues := h.values
  rw [hxs, ringItems] at hvalues
  cases hlookup : b.topics.lookup name with
  | none =>
    rw [hlookup] at hvalues
    exact absurd hvalues (List.cons_ne_nil _ _).symm
  | some t =>
    rw [hlookup] at hvalues
    obtain ⟨msg, msgs, hitems, hmsg, hmsgs⟩ := List.map_eq_cons_iff.mp hvalues
    obtain ⟨t', hrun, hrest, hflags⟩ := Topic.runConsumeWait_of_items hitems 0
    refine ⟨(some msg, { b.setTopic name t' with totalConsumed := b.totalConsumed + 1 }), ?_, hmsg,
      ⟨?_, fun u hu ↦ ?_, h.log⟩, rfl⟩
    · rw [consume, getTopic, hlookup]
      simp only [hrun, Option.map_some]
    · change ((b.setTopic name t').ringItems name).map Message.payload = ys
      rw [ringItems_setTopic, if_pos rfl, hrest, hmsgs]
    · change (b.setTopic name t').topics.lookup name = some u at hu
      rw [setTopic, AList.lookup_insert, Option.some_inj] at hu
      exact hu ▸ hflags.trans (h.accepts t hlookup)

theorem length (h : b.Holding name xs) {t : Topic} (ht : b.getTopic name = some t) :
    t.stats.length = xs.length := by
  obtain ⟨d, hd⟩ := t.ring.valid
  have hvalues := h.values
  have hitems : b.ringItems name = t.ring.items := by
    rw [ringItems, show b.topics.lookup name = some t from ht]
  rw [← hvalues, List.length_map, hitems, Ring.items_eq hd]
  exact hd.repr.len_eq

end Holding

end Broker

/-! ### The commands -/

namespace Server

variable {srv : Server} {env : Env} {c : Conn} {name : Bytes} {xs : Args}

/-- The records of the values, if there is a log for them, fit its format. -/
def Loggable (srv : Server) (env : Env) (name : Bytes) (vals : Args) : Prop :=
  ∀ i, ∀ val ∈ vals, (Entry.publish ((env.stamp i).message name val)).Short srv.codec

private theorem pushAll_of_holding (front : Bool) : ∀ (vals : Args) (i : ℕ) {b : Broker}
    {xs : Args}, b.Holding name xs → (b.wal.isSome → srv.Loggable env name vals) →
    (xs ++ vals).length ≤ saturationCapacity.toNat →
    ∃ b', srv.pushAll env front name vals i b = .ok b' ∧
      b'.Holding name (if front then vals.foldl (fun ys val ↦ val :: ys) xs else xs ++ vals) ∧
      b'.wal.isSome = b.wal.isSome := by
  intro vals
  induction vals with
  | nil =>
    intro i b xs h _ _
    refine ⟨b, rfl, ?_, rfl⟩
    rw [List.append_nil, List.foldl_nil, ite_self]
    exact h
  | cons val vals ih =>
    intro i b xs h hlog hlen
    rw [List.length_append, List.length_cons] at hlen
    obtain ⟨r, hr, hholding, hwal⟩ := h.push front val (env.stamp i)
      (fun hsome ↦ hlog hsome i val List.mem_cons_self) (by omega)
    obtain ⟨b', hb', hholding', hwal'⟩ := ih (i + 1) hholding
      (fun hsome j v hv ↦ hlog (hwal ▸ hsome) j v (List.mem_cons_of_mem _ hv))
      (by
        rw [List.length_append]
        cases front with
        | false => rw [if_neg Bool.false_ne_true, List.length_append, List.length_singleton]; omega
        | true => rw [if_pos rfl, List.length_cons]; omega)
    refine ⟨b', ?_, ?_, hwal'.trans hwal⟩
    · rw [pushAll]
      cases front with
      | false =>
        rw [if_neg Bool.false_ne_true, Broker.publish, hr]
        exact hb'
      | true =>
        rw [if_pos rfl, Broker.publishFront, hr]
        exact hb'
    · cases front with
      | false =>
        rw [if_neg Bool.false_ne_true] at hholding' ⊢
        rwa [if_neg Bool.false_ne_true, List.append_assoc, List.singleton_append] at hholding'
      | true => exact hholding'

/-- **A push** of several values, with the length for a reply. -/
theorem pushWith_of_holding (front : Bool) (usage : Bytes) {vals : Args} (hne : vals ≠ [])
    (h : c.broker.Holding name xs) (hlog : c.broker.wal.isSome → srv.Loggable env name vals)
    (hlen : (xs ++ vals).length ≤ saturationCapacity.toNat) :
    ∃ b, srv.pushWith env c (some name :: vals) front usage
        = .ok ({ c with broker := b }.integer (if front then
          vals.foldl (fun ys val ↦ val :: ys) xs else xs ++ vals).length) ∧
      b.Holding name (if front then vals.foldl (fun ys val ↦ val :: ys) xs else xs ++ vals) ∧
      b.wal.isSome = c.broker.wal.isSome := by
  obtain ⟨b, hb, hholding, hwal⟩ := pushAll_of_holding front vals 0 h hlog hlen
  have htopic := (pushAll_spec (c := c) front name vals 0 _ (Or.inl hne)).of_ok hb
  obtain ⟨t, ht⟩ := Option.isSome_iff_exists.mp htopic
  have hargs : ¬(some name :: vals).length < 2 := by
    rw [List.length_cons]
    exact Nat.not_lt.mpr (Nat.succ_le_succ (List.length_pos_iff.mpr hne))
  refine ⟨b, ?_, hholding, hwal⟩
  rw [pushWith, if_neg hargs, Args.text_eq (Nat.succ_pos _), Ending.ok_bind,
    Args.after_eq (Nat.succ_le_succ (Nat.zero_le _)), Ending.ok_bind]
  change (srv.pushAll env front name vals 0 c.broker >>= _) = _
  rw [hb, Ending.ok_bind]
  change (Ending.ofOption _ (b.getTopic name) >>= _) = _
  rw [ht, ← hholding.length ht]
  rfl

private theorem popWith_of_holding (usage : Bytes) (h : c.broker.Holding name xs) {x : Option Bytes}
    {ys : Args} (hxs : xs = x :: ys) :
    ∃ b, popWith c [some name] usage = .ok ({ c with broker := b }.bulk x) ∧ b.Holding name ys ∧
      b.wal.isSome = c.broker.wal.isSome := by
  obtain ⟨r, hr, hx, hholding, hwal⟩ := h.pop hxs
  refine ⟨r.2, ?_, hholding, congrArg Option.isSome hwal⟩
  rw [popWith, if_neg (show ¬[some name].length < 1 from lt_irrefl 1),
    Args.text_eq Nat.zero_lt_one, Ending.ok_bind]
  change (Ending.ofPop (c.broker.consume name 0) >>= _) = _
  rw [hr, ← hx]
  rfl

private theorem tail_eq_dropLast {α : Type*} {xs : List α} (h : ∀ x ∈ xs, ∀ y ∈ xs, x = y) :
    xs.tail = xs.dropLast ∧ xs.head? = xs.getLast? := by
  cases xs with
  | nil => exact ⟨rfl, rfl⟩
  | cons x xs =>
    have hrep : x :: xs = List.replicate (xs.length + 1) x :=
      List.eq_replicate_iff.mpr ⟨rfl, fun y hy ↦ h y hy x List.mem_cons_self⟩
    rw [hrep]
    exact ⟨by rw [List.tail_replicate, List.dropLast_replicate],
      by rw [List.head?_replicate, List.getLast?_replicate]⟩

/-- **One command** does to the queue what the reference says it does to the list. -/
theorem dispatch_listCommand (hauth : c.authenticated = true) (h : c.broker.Holding name xs)
    {cmd : ListCommand} (hallowed : cmd.Allowed xs) (hsymmetric : cmd.Symmetric xs)
    (hlog : c.broker.wal.isSome → srv.Loggable env name cmd.values) :
    ∃ w b, srv.dispatch env c (cmd.command name) = .ok (⟨w, b, c.authenticated⟩, .flush) ∧
      w.stream = c.writer.stream ++ (cmd.reply xs).bytes ∧ b.Holding name (cmd.next xs) ∧
      b.wal.isSome = c.broker.wal.isSome := by
  cases cmd with
  | lpush vals =>
    rw [ListCommand.command, dispatch_eq_handle hauth .lpush (by decide +kernel)]
    obtain ⟨b, hb, hholding, hwal⟩ := pushWith_of_holding true
      (bytesOf "wrong number of arguments for 'lpush'") hallowed.1 h hlog hallowed.2.le
    refine ⟨_, b, ?_, Reply.stream_integer _ _, hholding, hwal⟩
    rw [handle, lpush, hb]
    rfl
  | rpush vals =>
    rw [ListCommand.command, dispatch_eq_handle hauth .rpush (by decide +kernel)]
    obtain ⟨b, hb, hholding, hwal⟩ := pushWith_of_holding false
      (bytesOf "wrong number of arguments for 'rpush'") hallowed.1 h hlog hallowed.2.le
    refine ⟨_, b, ?_, Reply.stream_integer _ _, hholding, hwal⟩
    rw [handle, rpush, hb]
    rfl
  | lpop =>
    rw [ListCommand.command, dispatch_eq_handle hauth .lpop (by decide +kernel)]
    obtain ⟨x, ys, rfl⟩ := List.exists_cons_of_ne_nil hallowed
    obtain ⟨b, hb, hholding, hwal⟩ := popWith_of_holding
      (bytesOf "wrong number of arguments for 'lpop'") h rfl
    refine ⟨_, b, ?_, Reply.stream_bulk _ _, hholding, hwal⟩
    rw [handle, lpop, hb]
    rfl
  | rpop =>
    rw [ListCommand.command, dispatch_eq_handle hauth .rpop (by decide +kernel)]
    obtain ⟨htail, hhead⟩ := tail_eq_dropLast hsymmetric
    obtain ⟨x, ys, rfl⟩ := List.exists_cons_of_ne_nil hallowed
    obtain ⟨b, hb, hholding, hwal⟩ := popWith_of_holding
      (bytesOf "wrong number of arguments for 'rpop'") h rfl
    -- the first value was taken, where the list loses its last: the two are equal
    refine ⟨c.writer.writeBulkString x, b, ?_, ?_, ?_, hwal⟩
    · rw [handle, rpop, hb]
      rfl
    · rw [ListCommand.reply, ← hhead]
      exact Reply.stream_bulk _ _
    · rw [ListCommand.next, ← htail]
      exact hholding
  | llen =>
    rw [ListCommand.command, dispatch_eq_handle hauth .llen (by decide +kernel)]
    refine ⟨_, c.broker, ?_, Reply.stream_integer _ _, h, rfl⟩
    rw [handle, llen, if_neg (show ¬[some name].length ≠ 1 from not_not_intro rfl),
      Args.text_eq Nat.zero_lt_one, Ending.ok_bind]
    rw [show (([some name] : Args)[0]).getD [] = name from rfl]
    cases ht : c.broker.getTopic name with
    | none =>
      have hempty : xs = [] := by
        have hvalues := h.values
        rw [Broker.ringItems, show c.broker.topics.lookup name = none from ht] at hvalues
        exact hvalues.symm
      rw [hempty]
      rfl
    | some t =>
      simp only [h.length ht]
      rfl

end Server

/-! ### The handler -/

namespace ListCommand

/-- The plain list. -/
def step (xs : Args) (cmd : ListCommand) : Option Args :=
  if cmd.Allowed xs then some (cmd.next xs) else none

/-- The replies of the plain list. -/
def replies : Args → List ListCommand → List Resp.Value
  | _, [] => []
  | xs, cmd :: cmds => cmd.reply xs :: replies (cmd.next xs) cmds

private theorem replies_append {xs ys : Args} {cmds : List ListCommand}
    (h : Run step (fun _ ↦ True) xs cmds ys) (more : List ListCommand) :
    replies xs (cmds ++ more) = replies xs cmds ++ replies ys more := by
  induction h with
  | nil _ => rfl
  | cons _ hstep _ ih =>
    rw [step, Option.ite_none_right_eq_some, Option.some_inj] at hstep
    obtain ⟨-, rfl⟩ := hstep
    exact congrArg _ ih

end ListCommand

/-- **One command** of a connection. -/
private theorem Session.step_listCommand {srv : Server} {name : Bytes} {s : Session} {xs : Args}
    {cmd : ListCommand} {env : Env} (buffered : ℕ) (hlive : s.live = true)
    (hauth : s.conn.authenticated = true) (h : s.conn.broker.Holding name xs)
    (hallowed : cmd.Allowed xs) (hsymmetric : cmd.Symmetric xs)
    (hlog : s.conn.broker.wal.isSome → srv.Loggable env name cmd.values) :
    ∃ t, s.step srv (.command (cmd.command name) buffered env) = some t ∧
      t.conn.writer.stream = s.conn.writer.stream ++ (cmd.reply xs).bytes ∧
      t.conn.broker.Holding name (cmd.next xs) ∧ t.live = true ∧ t.handled = s.handled + 1 ∧
      t.conn.authenticated = true ∧
      t.conn.broker.wal.isSome = s.conn.broker.wal.isSome := by
  obtain ⟨w, b, hdispatch, hstream, hholding, hwal⟩ :=
    Server.dispatch_listCommand hauth h hallowed hsymmetric hlog
  let after : Session :=
    { conn := ⟨w, b, s.conn.authenticated⟩
      buffered := buffered
      handled := s.handled + 1
      live := s.live }
  obtain ⟨hstream', -, hhandled, hbroker, hauth'⟩ := after.finish_spec .flush
  have hlive' : (after.finish .flush).live = true := by
    rw [finish, settle]
    split <;> exact hlive
  refine ⟨after.finish .flush, ?_, hstream'.trans hstream, hbroker ▸ hholding, hlive', hhandled,
    hauth'.trans hauth, hbroker ▸ hwal⟩
  rw [step, if_pos hlive, hdispatch]

/-! ### The connection -/

namespace Endpoint

variable {srv : Server} {name : Bytes} {xs ys : Args} {cmds : List ListCommand}
  {start e e' : Endpoint}

/-- Since the start, so many of the commands have been handled: the replies are those of the plain
list, and the queue holds what the list holds. -/
structure Serves (name : Bytes) (xs : Args) (cmds : List ListCommand) (e start : Endpoint)
    (k : ℕ) : Prop where
  handled_eq : e.session.handled = start.session.handled + k
  le_length : k ≤ cmds.length
  stream : e.session.conn.writer.stream = start.session.conn.writer.stream
    ++ (ListCommand.replies xs (cmds.take k)).flatMap Resp.Value.bytes
  list : ∃ zs, Run ListCommand.step (fun _ ↦ True) xs (cmds.take k) zs ∧ e.broker.Holding name zs

/-- The handler is not stuck: it waits for bytes from the client, or it can go on. -/
def Proceeds (srv : Server) (env : Env) (e : Endpoint) : Prop :=
  e.reader.reading = true ∨ ∃ l ∈ [.parse, .fill, .handle env], (e.step srv l).isSome

/-- The client is alone with the broker and keeps the connection open, and the log, if there is one,
takes what is pushed. -/
def Alone (srv : Server) (name : Bytes) (cmds : List ListCommand) (logged : Bool) : Label → Prop
  | .hangup | .others _ => False
  | .handle env => logged = true → ∀ cmd ∈ cmds, srv.Loggable env name cmd.values
  | _ => True

/-- What is carried along a run, with the rest of the list's run. -/
private structure Serving (name : Bytes) (xs ys : Args) (cmds : List ListCommand) (logged : Bool)
    (e start : Endpoint) (k : ℕ) : Prop where
  live : e.session.live = true
  authenticated : e.session.conn.authenticated = true
  logged_eq : e.broker.wal.isSome = logged
  handled_eq : e.session.handled = start.session.handled + k
  stream : e.session.conn.writer.stream = start.session.conn.writer.stream
    ++ (ListCommand.replies xs (cmds.take k)).flatMap Resp.Value.bytes
  list : ∃ zs, Run ListCommand.step (fun _ ↦ True) xs (cmds.take k) zs ∧
    Run ListCommand.step (fun _ ↦ True) zs (cmds.drop k) ys ∧
    Run.Guarded ListCommand.step (fun xs cmd ↦ cmd.Symmetric xs) zs (cmds.drop k) ∧
    e.broker.Holding name zs

namespace Serving

variable {logged : Bool} {requests prior : List Resp.Request} {commands : List Command}
  {pending : Bytes} {k : ℕ}

/-- The command that has been read is the one that the list has at this place. -/
private theorem command_eq (h : e.Serving name xs ys cmds logged start k)
    (hfed : e.Fed srv commands pending)
    (hrequests : requests.map (Resp.Request.command srv.upper)
      = cmds.map (ListCommand.command name)) (hprior : start.session.handled = prior.length)
    (hsent : e.received <+: Resp.sentBy (prior ++ requests)) {word : Bytes}
    {args : List (Option Resp.Slice)} (hphase : e.reader.phase = .command word args) :
    ∃ cmd, cmds[k]? = some cmd ∧ cmd.command name = ⟨word, values e.memory args⟩ := by
  obtain ⟨request, hrequest, hcommand⟩ := hfed.command_eq hsent hphase
  rw [h.handled_eq, hprior, List.getElem?_append_right (Nat.le_add_right _ _),
    Nat.add_sub_cancel_left] at hrequest
  have hat := congrArg (fun l : List Command ↦ l[k]?) hrequests
  simp only [List.getElem?_map, hrequest, Option.map_some] at hat
  obtain ⟨cmd, hcmd, heq⟩ := Option.map_eq_some_iff.mp hat.symm
  exact ⟨cmd, hcmd, heq.trans hcommand⟩

/-- **A command is handled**, and it has the effect of the list command at its place. -/
theorem handle (h : e.Serving name xs ys cmds logged start k) {env : Env}
    (hlog : logged = true → ∀ cmd ∈ cmds, srv.Loggable env name cmd.values) {word : Bytes}
    {args : List (Option Resp.Slice)} (hphase : e.reader.phase = .command word args)
    {cmd : ListCommand} (hcmd : cmds[k]? = some cmd)
    (hsame : cmd.command name = ⟨word, values e.memory args⟩) :
    ∃ u, e.step srv (.handle env) = some u ∧ u.Serving name xs ys cmds logged start (k + 1) := by
  obtain ⟨hlt, rfl⟩ := List.getElem?_eq_some_iff.mp hcmd
  obtain ⟨zs, hbefore, hafter, hguard, hholding⟩ := h.list
  rw [List.drop_eq_getElem_cons hlt] at hafter hguard
  cases hafter with
  | cons _ hstep hrest =>
    have hallowed := hstep
    rw [ListCommand.step, Option.ite_none_right_eq_some, Option.some_inj] at hallowed
    obtain ⟨hallowed, rfl⟩ := hallowed
    obtain ⟨t, ht, hstream, hnext, hlive, hhandled, hauth, hwal⟩ :=
      Session.step_listCommand e.reader.rd.buffered h.live h.authenticated hholding hallowed
        hguard.1 fun hsome ↦ hlog (h.logged_eq.symm.trans hsome) _ (List.getElem_mem hlt)
    have hone : Run ListCommand.step (fun _ ↦ True) zs [cmds[k]] _ :=
      .cons trivial hstep (.nil trivial)
    -- the records of the payloads do not matter to the session
    obtain ⟨u, hu, rfl⟩ : ∃ u, e.step srv (.handle env) = some u ∧ u.session = t := by
      rw [hsame] at ht
      rw [Endpoint.step, hphase]
      exact ⟨_, congrArg (Option.map _) ht, rfl⟩
    refine ⟨u, hu, hlive, hauth, hwal.trans h.logged_eq, ?_, ?_, _, ?_, hrest, hguard.2 _ hstep,
      hnext⟩
    · rw [hhandled, h.handled_eq, Nat.add_assoc]
    · rw [hstream, List.take_add_one, hcmd, Option.toList_some,
        ListCommand.replies_append hbefore, List.flatMap_append, h.stream, List.append_assoc]
      exact congrArg _ (congrArg _ (List.append_nil _).symm)
    · rw [List.take_add_one, hcmd, Option.toList_some]
      exact hbefore.append hone

private theorem of_session (h : e.Serving name xs ys cmds logged start k)
    (hsession : e'.session = e.session) : e'.Serving name xs ys cmds logged start k := by
  obtain ⟨hlive, hauth, hlogged, hhandled, hstream, hlist⟩ := h
  rw [broker] at hlogged hlist
  refine ⟨?_, ?_, ?_, ?_, ?_, ?_⟩
  · rwa [hsession]
  · rwa [hsession]
  · rwa [broker, hsession]
  · rwa [hsession]
  · rwa [hsession]
  · rwa [broker, hsession]

private theorem step (h : e.Serving name xs ys cmds logged start k)
    (hfed : e.Fed srv commands pending) (hrequests : requests.map (Resp.Request.command srv.upper)
      = cmds.map (ListCommand.command name)) (hprior : start.session.handled = prior.length)
    (hsent : e.received <+: Resp.sentBy (prior ++ requests)) {l : Label}
    (hl : Alone srv name cmds logged l) (hstep : e.step srv l = some e') :
    ∃ k, e'.Serving name xs ys cmds logged start k := by
  cases l with
  | parse | fill | receive =>
    rw [Endpoint.step, Option.ite_none_right_eq_some] at hstep
    obtain ⟨r, -, rfl⟩ := Option.map_eq_some_iff.mp hstep.2
    exact ⟨k, h.of_session rfl⟩
  | handle env =>
    cases hphase : e.reader.phase with
    | command word args =>
      obtain ⟨cmd, hcmd, hsame⟩ := h.command_eq hfed hrequests hprior hsent hphase
      obtain ⟨u, hu, hserving⟩ := h.handle hl hphase hcmd hsame
      obtain rfl := Option.some_inj.mp (hu.symm.trans hstep)
      exact ⟨k + 1, hserving⟩
    | line | bulk | failed =>
      rw [Endpoint.step, hphase] at hstep
      exact absurd hstep (Option.some_ne_none e').symm
  | close =>
    rw [Endpoint.step] at hstep
    split at hstep
    · rename_i err hphase
      exact absurd hphase (hfed.not_failed hsent err)
    · exact absurd hstep (Option.some_ne_none e').symm
  | release x =>
    rw [Endpoint.step, Option.ite_none_right_eq_some, Option.some_inj] at hstep
    obtain ⟨-, rfl⟩ := hstep
    exact ⟨k, h.of_session rfl⟩
  | hangup | others => exact hl.elim

private theorem proceeds (h : e.Serving name xs ys cmds logged start k)
    (hfed : e.Fed srv commands pending) (hrequests : requests.map (Resp.Request.command srv.upper)
      = cmds.map (ListCommand.command name)) (hprior : start.session.handled = prior.length)
    (hsent : e.received <+: Resp.sentBy (prior ++ requests)) {env : Env}
    (hlog : logged = true → ∀ cmd ∈ cmds, srv.Loggable env name cmd.values) :
    e.Proceeds srv env := by
  cases hreading : e.reader.reading with
  | true => exact Or.inl hreading
  | false =>
    refine Or.inr ?_
    -- either the buffer has what the reader needs next, or a `Read` can be started
    by_cases hstarved : e.reader.Starved
    · refine ⟨.fill, by simp, ?_⟩
      rw [Endpoint.step, if_pos h.live, Resp.Reader.fill, if_pos ⟨hreading, hstarved⟩]
      rfl
    have hparse (hsome : (e.reader.parse srv.upper).isSome) :
        ∃ l ∈ [.parse, .fill, .handle env], (e.step srv l).isSome := by
      refine ⟨.parse, by simp, ?_⟩
      rw [Endpoint.step, if_pos h.live, Option.isSome_map]
      exact hsome
    cases hphase : e.reader.phase with
    | line pieces array =>
      refine hparse ?_
      rw [Resp.Reader.Starved, hphase, Option.isNone_iff_eq_none] at hstarved
      rw [Resp.Reader.parse, hreading, hphase]
      simp only [Bool.false_eq_true, if_false, Option.isSome_map]
      exact Option.isSome_iff_ne_none.mpr hstarved
    | bulk bulkLen buf array =>
      refine hparse ?_
      rw [Resp.Reader.Starved, hphase] at hstarved
      rw [Resp.Reader.parse, hreading, hphase]
      simp only [Bool.false_eq_true, if_false]
      split
      · rfl
      · rename_i hlt
        rw [if_neg fun hempty ↦ hstarved ⟨Nat.not_le.mp hlt, hempty⟩]
        rfl
    | command word args =>
      obtain ⟨cmd, hcmd, hsame⟩ := h.command_eq hfed hrequests hprior hsent hphase
      obtain ⟨u, hu, -⟩ := h.handle hlog hphase hcmd hsame
      exact ⟨.handle env, by simp, by rw [hu]; rfl⟩
    | failed err => exact absurd hphase (hfed.not_failed hsent err)

end Serving

/-- **The list commands implement the list**, if they are sent as arrays, and if `RPOP` is used only
while all values held are equal. Start at any moment of a connection at which the handler is done
with the arrays that it has received, and let a plain list with the values of the queue do what it
can do. However the bytes of the same commands arrive, at every moment the replies are those of the
list for the commands handled so far, the queue holds the same values, and their bytes in memory are
those that were sent. And the handler is never stuck. -/
theorem refines_list (srv : Server) (name : Bytes) {b : Broker} {ls₀ ls : List Label}
    {prior requests : List Resp.Request}
    (hrun₀ : Run (step srv) (fun _ ↦ True) (accept srv b) ls₀ start) (hopen₀ : .hangup ∉ ls₀)
    (hprior : start.received = Resp.sentBy prior) (hdone : start.session.handled = prior.length)
    (hlive : start.session.live = true) (hauth : start.session.conn.authenticated = true)
    (hstart : start.broker.Holding name xs)
    (hlist : Run ListCommand.step (fun _ ↦ True) xs cmds ys)
    (hsymmetric : Run.Guarded ListCommand.step (fun xs cmd ↦ cmd.Symmetric xs) xs cmds)
    (hrequests : requests.map (Resp.Request.command srv.upper)
      = cmds.map (ListCommand.command name))
    (hrun : Run (step srv) (fun _ ↦ True) start ls e)
    (halone : ∀ l ∈ ls, Alone srv name cmds start.broker.wal.isSome l)
    (hsent : e.received <+: Resp.sentBy (prior ++ requests)) :
    (∃ k, e.Serves name xs cmds start k) ∧ e.Intact srv ∧
      ∀ env, (start.broker.wal.isSome = true → ∀ cmd ∈ cmds, srv.Loggable env name cmd.values) →
        e.Proceeds srv env := by
  have hopen : .hangup ∉ ls₀ ++ ls := by
    rw [List.mem_append]
    exact not_or_intro hopen₀ fun hmem ↦ halone _ hmem
  have hall : start.received <+: Resp.sentBy (prior ++ requests) := by
    rw [hprior, Resp.sentBy_eq srv.upper, Resp.sentBy_eq srv.upper, PrefixCode.encodeAll_append]
    exact List.prefix_append _ _
  have hguard : Run.Guarded (step srv) (fun _ ↦ Alone srv name cmds start.broker.wal.isSome)
      start ls := Run.guarded_of_forall fun l hl _ ↦ halone l hl
  have hserving : start.Serving name xs ys cmds start.broker.wal.isSome start 0 :=
    ⟨hlive, hauth, rfl, rfl, (List.append_nil _).symm, xs, .nil trivial, hlist, hsymmetric, hstart⟩
  obtain ⟨commands₀, pending₀, hfed₀, -⟩ := exists_fed hrun₀ hopen₀ hall
  -- the reader's place in the stream and the list's place in its run, kept together
  have hinv := hrun.invariant_of_guarded
    (I := fun e ↦ e.received <+: Resp.sentBy (prior ++ requests) →
      (∃ commands pending, e.Fed srv commands pending) ∧
        ∃ k, e.Serving name xs ys cmds start.broker.wal.isSome start k)
    (fun e l e' hl hstep ih hsent ↦ by
      have hbefore := (received_step hstep).trans hsent
      obtain ⟨⟨commands, pending, hfed⟩, k, hserving⟩ := ih hbefore
      refine ⟨hfed.step hbefore ?_ hstep, hserving.step hfed hrequests hdone hbefore hl hstep⟩
      rintro rfl
      exact hl)
    hguard fun _ ↦ ⟨⟨commands₀, pending₀, hfed₀⟩, 0, hserving⟩
  obtain ⟨⟨commands, pending, hfed⟩, k, hserving⟩ := hinv hsent
  refine ⟨⟨k, hserving.handled_eq, ?_, hserving.stream, ?_⟩,
    intact_of_arrays srv b (prior ++ requests) (hrun₀.append hrun) hopen hsent,
    fun env hlog ↦ hserving.proceeds hfed hrequests hdone hsent hlog⟩
  · obtain ⟨s, hs⟩ := hsent
    have hle := (hfed.remaining hs).1
    have hlen := congrArg List.length hrequests
    rw [List.length_map, List.length_map] at hlen
    rw [hserving.handled_eq, hdone, List.length_append, hlen] at hle
    exact Nat.le_of_add_le_add_left hle
  · obtain ⟨zs, hbefore, -, -, hholding⟩ := hserving.list
    exact ⟨zs, hbefore, hholding⟩

/-- The bytes of `RPUSH q x y` and some further commands arrive at once, and the commands are
handled; each argument of an array is parsed in three steps. -/
private def pushAndMore (requests : List Resp.Request) : List Label :=
  [.fill, .receive (Resp.sentBy requests)] ++ List.replicate 13 .parse
    ++ [.handle Session.restingEnv] ++ (requests.tail.flatMap fun _ ↦
      List.replicate 7 .parse ++ [.handle Session.restingEnv])

private def rpushRequest (x y : UInt8) : Resp.Request where
  words := [⟨bytesOf "RPUSH", by decide⟩, ⟨bytesOf "q", by decide⟩,
    ⟨[x], Nat.le_of_ble_eq_true rfl⟩, ⟨[y], Nat.le_of_ble_eq_true rfl⟩]
  ne := List.cons_ne_nil _ _
  le := Nat.le_of_ble_eq_true rfl

private def rpopRequest : Resp.Request where
  words := [⟨bytesOf "RPOP", by decide⟩, ⟨bytesOf "q", by decide⟩]
  ne := List.cons_ne_nil _ _
  le := Nat.le_of_ble_eq_true rfl

private def lpopRequest : Resp.Request where
  words := [⟨bytesOf "lpop", by decide⟩, ⟨bytesOf "q", by decide⟩]
  ne := List.cons_ne_nil _ _
  le := Nat.le_of_ble_eq_true rfl

private def llenRequest : Resp.Request where
  words := [⟨bytesOf "LLEN", by decide⟩, ⟨bytesOf "q", by decide⟩]
  ne := List.cons_ne_nil _ _
  le := Nat.le_of_ble_eq_true rfl

/-- Two equal values, one taken from each end. -/
theorem refines_list_equal :
    ∃ e, Run (step Session.openServer) (fun _ ↦ True)
        (accept Session.openServer (Broker.newBroker none 0))
        (pushAndMore [rpushRequest 97 97, rpopRequest, lpopRequest, llenRequest]) e ∧
      e.session.conn.writer.sent = bytesOf ":2\r\n$1\r\na\r\n$1\r\na\r\n:0\r\n" ∧
      ∃ k, e.Serves (bytesOf "q") []
        [.rpush [some (bytesOf "a"), some (bytesOf "a")], .rpop, .lpop, .llen]
        (accept Session.openServer (Broker.newBroker none 0)) k := by
  have hsome : (Run.exec (step Session.openServer) (fun _ ↦ True)
      (accept Session.openServer (Broker.newBroker none 0))
      (pushAndMore [rpushRequest 97 97, rpopRequest, lpopRequest, llenRequest])).map
        (fun e ↦ (e.session.conn.writer.sent, decide (e.received <+: Resp.sentBy
          [rpushRequest 97 97, rpopRequest, lpopRequest, llenRequest])))
      = some (bytesOf ":2\r\n$1\r\na\r\n$1\r\na\r\n:0\r\n", true) := by decide +kernel
  obtain ⟨e, hexec, hend⟩ := Option.map_eq_some_iff.mp hsome
  obtain ⟨hsent, hreceived⟩ := Prod.mk.inj hend
  have hlist : Run.exec ListCommand.step (fun _ ↦ True) []
      [.rpush [some (bytesOf "a"), some (bytesOf "a")], .rpop, .lpop, .llen] = some [] := by
    decide +kernel
  have hcheck : Run.checkGuard ListCommand.step (fun xs cmd ↦ decide (cmd.Symmetric xs)) []
      [.rpush [some (bytesOf "a"), some (bytesOf "a")], .rpop, .lpop, .llen] = true := by
    decide +kernel
  have hguarded := Run.guarded_of_checkGuard hcheck
  simp only [decide_eq_true_eq] at hguarded
  have hnew : (Broker.newBroker none 0).Holding (bytesOf "q") [] :=
    ⟨rfl, fun t ht ↦ absurd ht (Option.some_ne_none t).symm,
      fun w hw ↦ absurd hw (Option.some_ne_none w).symm⟩
  have halone : ∀ l ∈ pushAndMore [rpushRequest 97 97, rpopRequest, lpopRequest, llenRequest],
      Alone Session.openServer (bytesOf "q")
        [.rpush [some (bytesOf "a"), some (bytesOf "a")], .rpop, .lpop, .llen]
        (Broker.newBroker none 0).wal.isSome l := by
    intro l hl
    simp only [pushAndMore, List.mem_append, List.mem_replicate, List.mem_flatMap, List.mem_cons,
      List.not_mem_nil, or_false] at hl
    rcases hl with (((rfl | rfl) | ⟨-, rfl⟩) | rfl) | ⟨-, -, ⟨-, rfl⟩ | rfl⟩
    · exact True.intro
    · exact True.intro
    · exact True.intro
    · exact fun h ↦ absurd h Bool.false_ne_true
    · exact True.intro
    · exact fun h ↦ absurd h Bool.false_ne_true
  have hrequests : [rpushRequest 97 97, rpopRequest, lpopRequest, llenRequest].map
      (Resp.Request.command Session.openServer.upper)
        = [.rpush [some (bytesOf "a"), some (bytesOf "a")], .rpop, .lpop, .llen].map
          (ListCommand.command (bytesOf "q")) := by decide +kernel
  have hnone : (accept Session.openServer (Broker.newBroker none 0)).received
      = Resp.sentBy [] := rfl
  have hserves := (refines_list Session.openServer (bytesOf "q") (.nil trivial) List.not_mem_nil
    hnone rfl rfl rfl hnew (Run.of_exec hlist) hguarded hrequests (Run.of_exec hexec) halone
    (of_decide_eq_true hreceived)).1
  exact ⟨e, Run.of_exec hexec, hsent, hserves⟩

/-- `RPOP` takes the first of two values. -/
theorem rpop_takes_first :
    ∃ e, Run (step Session.openServer) (fun _ ↦ True)
        (accept Session.openServer (Broker.newBroker none 0))
        (pushAndMore [rpushRequest 97 98, rpopRequest]) e ∧
      e.session.conn.writer.sent = bytesOf ":2\r\n$1\r\na\r\n" ∧
      (ListCommand.replies [] [.rpush [some (bytesOf "a"), some (bytesOf "b")], .rpop]).flatMap
        Resp.Value.bytes = bytesOf ":2\r\n$1\r\nb\r\n" ∧
      ∀ k, ¬e.Serves (bytesOf "q") [] [.rpush [some (bytesOf "a"), some (bytesOf "b")], .rpop]
        (accept Session.openServer (Broker.newBroker none 0)) k := by
  have hsome : (Run.exec (step Session.openServer) (fun _ ↦ True)
      (accept Session.openServer (Broker.newBroker none 0))
      (pushAndMore [rpushRequest 97 98, rpopRequest])).map
        (fun e ↦ (e.session.handled, e.session.conn.writer.sent, e.session.conn.writer.stream))
      = some (2, bytesOf ":2\r\n$1\r\na\r\n", bytesOf ":2\r\n$1\r\na\r\n") := by decide +kernel
  obtain ⟨e, hexec, hend⟩ := Option.map_eq_some_iff.mp hsome
  obtain ⟨hhandled, hend⟩ := Prod.mk.inj hend
  obtain ⟨hsent, hstream⟩ := Prod.mk.inj hend
  have hreplies : (ListCommand.replies []
      [.rpush [some (bytesOf "a"), some (bytesOf "b")], .rpop]).flatMap Resp.Value.bytes
        = bytesOf ":2\r\n$1\r\nb\r\n" := by
    simp only [ListCommand.replies, ListCommand.reply, ListCommand.next, List.flatMap_cons,
      List.flatMap_nil, Resp.Value.bytes]
    decide +kernel
  refine ⟨e, Run.of_exec hexec, hsent, hreplies, fun k hserves ↦ ?_⟩
  have hk := hserves.handled_eq
  rw [hhandled] at hk
  obtain rfl : k = 2 := (hk.trans (Nat.zero_add k)).symm
  exact absurd (hstream.symm.trans (hserves.stream.trans hreplies)) (by decide)

end Endpoint

end VortexMQ
