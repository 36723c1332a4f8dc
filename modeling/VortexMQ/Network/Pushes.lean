import VortexMQ.Network.Connection
import VortexMQ.Queue.Publishing

/-!
# The reply to a push

`LPUSH` and `RPUSH` publish their values one by one and reply with the length of the queue. What the
calls return is counted and then forgotten, so the reply does not tell whether the values are in the
queue. As in `VortexMQ.Queue.Publishing`, the commands are run over an arbitrary log.
-/

namespace VortexMQ

namespace Server

variable {σ : Type} (W : BrokerWAL σ) (env : Env)

def pushAllTo (front : Bool) (topicName : Bytes) : Args → ℕ → Logged σ → Ending Panic (Logged σ)
  | [], _, s => return s
  | val :: vals, i, s => do
      let r ← .ofLog (W.publish front topicName val (env.stamp i) s)
      pushAllTo front topicName vals (i + 1) r.2

/-- `LPUSH` and `RPUSH`, over any log. -/
def pushTo (c : Conn) (log : σ) (front : Bool) (usage : Bytes) (args : Args) :
    Ending Panic (Conn × σ) :=
  if args.length < 2 then return (c.error usage, log)
  else do
    let topicName ← args.text 0
    let vals ← args.after 1
    let s ← pushAllTo W env front topicName vals 0 ⟨c.broker, log⟩
    let t ← .ofOption (.fault .nilPointer) (s.broker.getTopic topicName)
    return ({ c with broker := s.broker }.integer t.stats.length, s.log)

/-! ## The log of the repository -/

def withLog (r : Conn × Option Wal) : Conn :=
  { r.1 with broker := Logged.toBroker ⟨r.1.broker, r.2⟩ }

private theorem pushAll_toBroker (srv : Server) (front : Bool) (topicName : Bytes) :
    ∀ (vals : Args) (i : ℕ) (s : Logged (Option Wal)),
      srv.pushAll env front topicName vals i s.toBroker = (do
        let s' ← pushAllTo (Wal.writer srv.codec) env front topicName vals i s
        return s'.toBroker) := by
  intro vals
  induction vals with
  | nil => intro i s; rfl
  | cons val vals ih =>
    intro i s
    rw [pushAll, pushAllTo, s.publish_toBroker]
    cases (Wal.writer srv.codec).publish front topicName val (env.stamp i) s with
    | none => rfl
    | some r => exact ih (i + 1) r.2

/-- The commands of the server are these, over its log. -/
theorem pushWith_eq (srv : Server) (c : Conn) (log : Option Wal) (front : Bool) (usage : Bytes)
    (args : Args) :
    srv.pushWith env (withLog (c, log)) args front usage = (do
      let r ← pushTo (Wal.writer srv.codec) env c log front usage args
      return withLog r) := by
  rw [pushWith, pushTo]
  split
  · rfl
  · cases args.text 0 with
    | wait => rfl
    | fault e => rfl
    | ok topicName =>
      simp only [Ending.ok_bind]
      cases args.after 1 with
      | wait => rfl
      | fault e => rfl
      | ok vals =>
        have hall := pushAll_toBroker env srv front topicName vals 0 ⟨c.broker, log⟩
        simp only [Ending.ok_bind]
        rw [show (withLog (c, log)).broker = Logged.toBroker ⟨c.broker, log⟩ from rfl, hall]
        cases pushAllTo (Wal.writer srv.codec) env front topicName vals 0 ⟨c.broker, log⟩ with
        | wait => rfl
        | fault e => rfl
        | ok s =>
          simp only [Ending.ok_bind, Ending.pure_eq]
          rw [show s.toBroker.getTopic topicName = s.broker.getTopic topicName from rfl]
          cases s.broker.getTopic topicName with
          | none => rfl
          | some t => rfl

/-! ## Failures -/

/-- The values of a command, with the stamps of their messages. -/
def stamped : ℕ → Args → List (Option Bytes × Stamp)
  | _, [] => []
  | i, val :: vals => (val, env.stamp i) :: stamped (i + 1) vals

private theorem pushAllTo_eq (front : Bool) (topicName : Bytes) : ∀ (vals : Args) (i : ℕ)
    (s : Logged σ), pushAllTo W env front topicName vals i s
      = .ofLog ((W.publishEach front topicName (stamped env i vals) s).map Prod.snd) := by
  intro vals
  induction vals with
  | nil => intro i s; rfl
  | cons val vals ih =>
    intro i s
    rw [pushAllTo, stamped, BrokerWAL.publishEach]
    cases W.publish front topicName val (env.stamp i) s with
    | none => rfl
    | some r =>
      refine (ih (i + 1) r.2).trans ?_
      simp only [Option.bind_some, Option.map_map]
      rfl

/-- The reply is an error if one of the values has not been logged and enqueued, and an integer only
if all of them have been. What became of the values is what the calls of the broker return. -/
def ReportsFailures (c : Conn) (log : σ) (front : Bool) (usage : Bytes) (key : Option Bytes)
    (vals : Args) : Prop :=
  ∀ results s, W.publishEach front (key.getD []) (stamped env 0 vals) ⟨c.broker, log⟩
      = some (results, s) →
    ∃ c' log', pushTo W env c log front usage (key :: vals) = .ok (c', log') ∧
      ((∃ r ∈ results, r.isOk = false) → ∃ msg, c'.writer = c.writer.writeError msg) ∧
      ((∃ n, c'.writer = c.writer.writeInteger n) → ∀ r ∈ results, r.isOk = true)

/-- All calls succeed exactly if the topic accepts messages and no record fails. -/
theorem forall_answer_isOk_iff {t : Topic} {msgs : List Message}
    {outcomes : List (Except Bytes Unit)} (hlen : outcomes.length = msgs.length) (hne : msgs ≠ []) :
    (∀ r ∈ List.zipWith (BrokerWAL.answer t) msgs outcomes, r.isOk = true) ↔
      t.Accepts ∧ ∀ outcome ∈ outcomes, outcome.isOk = true := by
  have hpos : 0 < outcomes.length := hlen ▸ List.length_pos_iff.mpr hne
  rw [← List.countP_eq_length, BrokerWAL.countP_answer t hlen, List.length_zipWith, hlen,
    Nat.min_self, ← hlen, ← List.countP_eq_length]
  by_cases ht : t.Accepts
  · rw [if_pos ht, and_iff_right ht]
  · rw [if_neg ht]
    exact iff_of_false hpos.ne fun h ↦ ht h.1

private theorem pushTo_eq (c : Conn) (log log' : σ) (front : Bool) (usage : Bytes)
    (key : Option Bytes)
    {vals : Args} (hne : vals ≠ []) {results : List (Except Bytes Message)} {b b' : Broker}
    {t : Topic} {n : ℕ}
    (heach : W.publishEach front (key.getD []) (stamped env 0 vals) ⟨c.broker, log⟩
      = some (results, ⟨b', log'⟩)) (hb' : b.Becomes (key.getD []) t n b') :
    pushTo W env c log front usage (key :: vals)
      = .ok ({ c with broker := b' }.integer t.stats.length, log') := by
  have hlen : ¬(key :: vals).length < 2 := by
    have hpos := List.length_pos_iff.mpr hne
    rw [List.length_cons]
    omega
  have htopic : b'.getTopic (key.getD []) = some t := (hb'.topics _).trans (if_pos rfl)
  have hafter : Args.after (key :: vals) 1 = .ok vals := by
    rw [Args.after, if_pos (by rw [List.length_cons]; omega)]
    rfl
  rw [pushTo, if_neg hlen, hafter, show Args.text (key :: vals) 0 = .ok (key.getD []) from rfl]
  simp only [Ending.ok_bind, pushAllTo_eq, heach]
  change (Ending.ofOption _ (b'.getTopic (key.getD [])) >>= _) = _
  rw [htopic]
  rfl

/-- With a value to push, the reply reports failures exactly if there are none to report. -/
theorem reportsFailures_cons_iff (c : Conn) (log : σ) (front : Bool) (usage : Bytes)
    (key val : Option Bytes) (vals : Args) :
    ReportsFailures W env c log front usage key (val :: vals) ↔
      ∀ outcomes log', W.writes (Broker.batchMessages (key.getD [])
          (stamped env 0 (val :: vals))) log = some (outcomes, log') →
        (c.broker.getOrCreateTopic (key.getD [])).1.Accepts ∧
          ∀ outcome ∈ outcomes, outcome.isOk = true := by
  have hstamped : stamped env 0 (val :: vals) ≠ [] := List.cons_ne_nil _ _
  have hmsgs : Broker.batchMessages (key.getD []) (stamped env 0 (val :: vals)) ≠ [] :=
    mt List.map_eq_nil_iff.mp hstamped
  have heach := W.publishEach_eq front (stamped env 0 (val :: vals))
    ⟨(c.broker.getOrCreateTopic (key.getD [])).2, log⟩
    (c.broker.becomes_getOrCreateTopic (key.getD []))
  have hfound := W.publishEach_found front (key.getD []) hstamped ⟨c.broker, log⟩
  cases hw : W.writes (Broker.batchMessages (key.getD []) (stamped env 0 (val :: vals))) log with
  | none =>
    rw [hw] at heach
    refine iff_of_true (fun results s h ↦ ?_) nofun
    exact nomatch heach.symm.trans (hfound.symm.trans h)
  | some r =>
    obtain ⟨outcomes, log'⟩ := r
    rw [hw] at heach
    obtain ⟨b', heach, hb'⟩ := heach
    have hall := forall_answer_isOk_iff (t := (c.broker.getOrCreateTopic (key.getD [])).1)
      (W.length_writes hw) hmsgs
    have hcalls := hfound.trans heach
    have hreply := pushTo_eq W env c log log' front usage key (List.cons_ne_nil _ _) hcalls hb'
    constructor
    · intro h outcomes' log'' heq
      obtain ⟨rfl, rfl⟩ := Prod.mk.inj (Option.some_inj.mp heq)
      obtain ⟨c', log'', hpush, -, hinteger⟩ := h _ _ hcalls
      obtain ⟨rfl, -⟩ := Prod.mk.inj (Ending.ok.inj (hreply.symm.trans hpush))
      exact hall.mp (hinteger ⟨_, rfl⟩)
    · intro h results s hresults
      have hok := hall.mpr (h outcomes log' rfl)
      obtain ⟨rfl, rfl⟩ := Prod.mk.inj (Option.some_inj.mp (hcalls.symm.trans hresults))
      refine ⟨_, _, hreply, ?_, fun _ ↦ hok⟩
      rintro ⟨r, hr, hfailed⟩
      exact nomatch (hok r hr).symm.trans hfailed

/-- **Replies to pushes.** Over any log, and for any pattern of failures, the reply to `LPUSH` or
`RPUSH` reports failures exactly if there is no value to push, or there are no failures to report:
the topic accepts messages, and no record fails. -/
theorem reportsFailures_iff (c : Conn) (log : σ) (front : Bool) (usage : Bytes)
    (key : Option Bytes) (vals : Args) :
    ReportsFailures W env c log front usage key vals ↔ vals = [] ∨
      ∀ outcomes log', W.writes (Broker.batchMessages (key.getD []) (stamped env 0 vals)) log
          = some (outcomes, log') →
        (c.broker.getOrCreateTopic (key.getD [])).1.Accepts ∧
          ∀ outcome ∈ outcomes, outcome.isOk = true := by
  cases vals with
  | nil =>
    refine iff_of_true (fun results s h ↦ ?_) (Or.inl rfl)
    rw [← (Prod.mk.inj (Option.some_inj.mp h)).1]
    refine ⟨c.error usage, log, rfl, ?_, fun _ r hr ↦ absurd hr List.not_mem_nil⟩
    rintro ⟨r, hr, -⟩
    exact absurd hr List.not_mem_nil
  | cons val vals =>
    rw [or_iff_right (List.cons_ne_nil _ _)]
    exact reportsFailures_cons_iff W env c log front usage key val vals

def closedConn : Conn := { Session.firstContact.conn with broker := closedLog.broker }

/-- Two values are pushed after the broker has been closed. Neither is logged or enqueued, and the
reply is the integer 0. -/
theorem push_failures_unreported :
    (match Session.openServer.rpush Session.restingEnv
        (withLog (closedConn, closedLog.log))
        [some (bytesOf "q"), some (bytesOf "a"), some (bytesOf "b")] with
      | .ok c => some c.writer.stream
      | _ => none) = some (bytesOf ":0\r\n") ∧
    ((Wal.writer MessageJson.codec).publishEach false (bytesOf "q")
        (stamped Session.restingEnv 0 [some (bytesOf "a"), some (bytesOf "b")]) closedLog).map
          Prod.fst = some [.error Wal.errClosed, .error Wal.errClosed] ∧
    ¬ReportsFailures (Wal.writer MessageJson.codec) Session.restingEnv closedConn
      closedLog.log false (bytesOf "wrong number of arguments for 'rpush'") (some (bytesOf "q"))
      [some (bytesOf "a"), some (bytesOf "b")] := by
  refine ⟨by decide +kernel, rfl, fun h ↦ ?_⟩
  have hwrites : (Wal.writer MessageJson.codec).writes (Broker.batchMessages (bytesOf "q")
      (stamped Session.restingEnv 0 [some (bytesOf "a"), some (bytesOf "b")])) closedLog.log
        = some ([.error Wal.errClosed, .error Wal.errClosed], closedLog.log) := rfl
  have hall := ((reportsFailures_cons_iff _ _ _ _ _ _ _ _ _).mp h _ _ hwrites).2
  exact nomatch hall _ List.mem_cons_self

end Server

end VortexMQ
