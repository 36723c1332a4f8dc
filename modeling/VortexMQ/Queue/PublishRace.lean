import VortexMQ.Queue.RecoveryOrder

/-!
# Publishing while the broker closes

`Publish` and `PublishFront` look up the topic, append to the log, and push to the ring, and no lock
is held from one of these to the next. `Close` can come in between, and so can other calls. Here
every call is a task that takes these steps one at a time, and `Close` closes one topic after the
other, each in three steps, and the log at the end.

A write to the log can fail. It then leaves some of its bytes in the file, and every later write
fails with the same error. Errors of a flush, which the log does not report, are the subject of
`VortexMQ.Wal.Faults`.

Calls are numbered, so that two calls with equal messages can be told apart. `logged` and `pushed`
record which calls have had an effect on the log and on a ring.
-/

namespace VortexMQ

/-- What a call does next. The topic checks its own flag before it turns to the ring. -/
inductive PublishStage where
  | log
  | check
  | push
  deriving DecidableEq

/-- A call in progress. -/
structure PublishTask where
  msg : Message
  front : Bool
  stage : PublishStage

structure PublishSystem where
  broker : Broker
  /-- The error that the log's buffered writer keeps. -/
  walErr : Option Bytes
  /-- The topics that a `Close` in progress has yet to deal with. It holds the broker's mutex. -/
  closing : Option (List Bytes)
  tasks : ℕ → Option PublishTask
  calls : ℕ
  logged : List (ℕ × Message)
  pushed : List (ℕ × Message)
  returned : List (ℕ × Except Bytes Message)

inductive PublishLabel where
  /-- A new call, up to the topic it finds or makes. -/
  | call (call : PublishCall)
  /-- `WritePublish`, which fails after so many bytes with some error, or does not. -/
  | log (n : ℕ) (fault : Option (ℕ × Bytes))
  | check (n : ℕ)
  | push (n : ℕ)
  /-- `Broker.Close` takes the mutex; the order in which it will go through the topics. -/
  | close (order : List Bytes)
  | closeStep

namespace PublishSystem

/-- A broker and no calls yet. -/
def start (b : Broker) : PublishSystem where
  broker := b
  walErr := none
  closing := none
  tasks := fun _ ↦ none
  calls := 0
  logged := []
  pushed := []
  returned := []

/-! ## Steps -/

/-- The call goes on to its next stage. -/
def advance (s : PublishSystem) (n : ℕ) (task : PublishTask) (stage : PublishStage) :
    PublishSystem :=
  { s with tasks := Function.update s.tasks n (some { task with stage := stage }) }

/-- The call returns. -/
def finish (s : PublishSystem) (n : ℕ) (result : Except Bytes Message) : PublishSystem :=
  { s with
    tasks := Function.update s.tasks n none
    returned := s.returned ++ [(n, result)] }

/-- `GetOrCreateTopic`, at the start of a call. -/
def lookupStep (s : PublishSystem) (call : PublishCall) : PublishSystem :=
  { s with
    broker := (s.broker.getOrCreateTopic call.message.topic).2
    tasks := Function.update s.tasks s.calls (some ⟨call.message, call.front, .log⟩)
    calls := s.calls + 1 }

/-- `b.wal.WritePublish(msg)`, if there is a log, with what it leaves of the broker and of the
writer's error. -/
def writePublish (c : Codec) (s : PublishSystem) (msg : Message) (fault : Option (ℕ × Bytes)) :
    Option (Except Bytes Unit × Broker × Option Bytes) :=
  match s.broker.wal with
  | none => some (.ok (), s.broker, s.walErr)
  | some w =>
      if w.closed then some (.error Wal.errClosed, s.broker, s.walErr)
      else match s.walErr, fault with
        | some err, _ => some (.error err, s.broker, some err)
        | none, some (k, err) =>
            (frame opPublish (c.marshal msg)).bind fun buf ↦
              if k < (w.bufWriter.buf ++ buf).length then
                some (.error err, { s.broker with wal := some (w.tornWrite buf k) }, some err)
              else none
        | none, none => (s.broker.logPublish c msg).map fun r ↦ (r.1, r.2, none)

def logStep (c : Codec) (s : PublishSystem) (n : ℕ) (task : PublishTask)
    (fault : Option (ℕ × Bytes)) : Option PublishSystem :=
  (s.writePublish c task.msg fault).map fun r ↦
    let s' : PublishSystem := { s with broker := r.2.1, walErr := r.2.2 }
    match r.1 with
    | .error err => s'.finish n (.error err)
    | .ok _ =>
        { s' with
          logged := if s.broker.wal.isSome then s.logged ++ [(n, task.msg)] else s.logged }.advance
          n task .check

/-- The topic's own flag, under its mutex. -/
def checkStep (s : PublishSystem) (n : ℕ) (task : PublishTask) (t : Topic) :
    Option PublishSystem :=
  if t.closing then none
  else if t.closed then some (s.finish n (.error Broker.errRejected))
  else some (s.advance n task .push)

def pushStep (s : PublishSystem) (n : ℕ) (task : PublishTask) (t : Topic) : PublishSystem :=
  let pushed := t.push task.msg task.front
  if pushed.1 then
    { s with
      broker := { s.broker.setTopic task.msg.topic pushed.2 with
        totalPublished := s.broker.totalPublished + 1 }
      pushed := s.pushed ++ [(n, task.msg)] }.finish n (.ok task.msg)
  else
    { s with broker := s.broker.setTopic task.msg.topic pushed.2 }.finish n
      (.error Broker.errRejected)

/-- `Topic.Close` in progress: the flag, the ring, the wheel; then it is done. -/
def closeTopic (t : Topic) : Option Topic :=
  if t.closed = false then some { t with closed := true }
  else if t.ring.closed = false then some { t with ring := t.ring.close }
  else if t.tw.closed = false then some { t with tw := t.tw.stop }
  else none

/-- The next thing that a `Close` in progress does. -/
def closeStep (s : PublishSystem) : List Bytes → Option PublishSystem
  | [] =>
      some { s with broker := { s.broker with wal := s.broker.wal.map Wal.close }, closing := none }
  | name :: rest =>
      (s.broker.topics.lookup name).map fun t ↦
        match closeTopic t with
        | some t' => { s with broker := s.broker.setTopic name t' }
        | none => { s with closing := some rest }

/-- A task in a given stage. -/
def taskAt (s : PublishSystem) (n : ℕ) (stage : PublishStage) : Option PublishTask :=
  (s.tasks n).filter fun task ↦ task.stage = stage

def step (c : Codec) (s : PublishSystem) : PublishLabel → Option PublishSystem
  | .call call => if s.closing.isSome then none else some (s.lookupStep call)
  | .log n fault => (s.taskAt n .log).bind fun task ↦ s.logStep c n task fault
  | .check n =>
      (s.taskAt n .check).bind fun task ↦
        (s.broker.topics.lookup task.msg.topic).bind fun t ↦ s.checkStep n task t
  | .push n =>
      (s.taskAt n .push).bind fun task ↦
        (s.broker.topics.lookup task.msg.topic).map fun t ↦ s.pushStep n task t
  | .close order =>
      if s.closing.isSome then none
      else if s.broker.closed then some s
      else if order.Perm s.broker.topics.keys then
        some { s with broker := { s.broker with closed := true }, closing := some order }
      else none
  | .closeStep => s.closing.bind s.closeStep

variable {c : Codec} {b₀ : Broker} {msgs : List Message} {s s' : PublishSystem}

/-! ## No trace -/

/-- The record of a new call fits the format of the log. -/
def Fits (c : Codec) : PublishLabel → Prop
  | .call call => (Entry.publish call.message).Short c
  | _ => True

/-- Where there is a log, `Close` turns to a topic only while no call on it is in progress. -/
def Undisturbed (c : Codec) (s : PublishSystem) (l : PublishLabel) : Prop :=
  Fits c l ∧ match l, s.closing with
    | .closeStep, some (name :: _) =>
        s.broker.wal.isSome → (∃ t, s.broker.topics.lookup name = some t ∧ t.closed = false) →
          ∀ n task, s.tasks n = some task → task.msg.topic ≠ name
    | _, _ => True

/-- What replay makes of the records of the calls that have been logged. -/
def readings (c : Codec) (s : PublishSystem) : List Message :=
  s.logged.filterMap fun p ↦ delivered c (opPublish, c.marshal p.2)

/-- A failed call has left nothing behind, in the log or in a ring, and a call that has returned
without an error has done both. The rings hold what was there at the start, in the broker `b₀`, and
what calls have pushed; the log holds the messages `msgs` that it held at the start and the records
of calls, all of them as long as no write has failed. -/
structure NoTrace (c : Codec) (b₀ : Broker) (msgs : List Message) (s : PublishSystem) : Prop where
  failed : ∀ n err, (n, .error err) ∈ s.returned →
    n ∉ s.pushed.map Prod.fst ∧ n ∉ s.logged.map Prod.fst
  succeeded : ∀ n msg, (n, .ok msg) ∈ s.returned →
    (n, msg) ∈ s.pushed ∧ (s.broker.wal.isSome → (n, msg) ∈ s.logged)
  rings : ∀ name, ∀ m ∈ s.broker.ringItems name, m ∈ b₀.ringItems name ∨ ∃ n, (n, m) ∈ s.pushed
  recoverable : ∀ w, s.broker.wal = some w →
    (replay c w.close.dir).2 ⊆ msgs ++ s.readings c
  recovered : s.walErr = none → ∀ w, s.broker.wal = some w →
    (replay c w.close.dir).2.Perm (msgs ++ s.readings c)

def LogOf (c : Codec) (b : Broker) (walErr : Option Bytes) (msgs : List Message) : Prop :=
  ∀ w, b.wal = some w → if walErr = none then w.Archives c msgs else w.Within c msgs

/-- The log takes records. -/
def WalOpen (b : Broker) : Prop := b.wal.map Wal.closed = some false

/-! ### Who has done what -/

/-- What the lists say about a call in progress. -/
structure TaskLedger (s : PublishSystem) (n : ℕ) (task : PublishTask) : Prop where
  notPushed : n ∉ s.pushed.map Prod.fst
  notLogged : task.stage = .log → n ∉ s.logged.map Prod.fst
  logged : task.stage ≠ .log → s.broker.wal.isSome → (n, task.msg) ∈ s.logged

structure Ledger (s : PublishSystem) : Prop where
  failed : ∀ n err, (n, .error err) ∈ s.returned →
    n ∉ s.pushed.map Prod.fst ∧ n ∉ s.logged.map Prod.fst
  succeeded : ∀ n msg, (n, .ok msg) ∈ s.returned →
    (n, msg) ∈ s.pushed ∧ (s.broker.wal.isSome → (n, msg) ∈ s.logged)
  tasks : ∀ n task, s.tasks n = some task → TaskLedger s n task
  returned : ∀ n result, (n, result) ∈ s.returned → s.tasks n = none ∧ n < s.calls
  unborn : ∀ n, s.calls ≤ n → s.tasks n = none ∧ n ∉ s.pushed.map Prod.fst ∧
    n ∉ s.logged.map Prod.fst

theorem taskAt_eq_some {n : ℕ} {stage : PublishStage} {task : PublishTask} :
    s.taskAt n stage = some task ↔ s.tasks n = some task ∧ task.stage = stage := by
  rw [taskAt, Option.filter_eq_some_iff, decide_eq_true_iff]

/-- The tasks after a call has returned are tasks of before, of other calls. -/
theorem tasks_finish {n m : ℕ} {result : Except Bytes Message} {task : PublishTask}
    (h : (s.finish n result).tasks m = some task) : m ≠ n ∧ s.tasks m = some task := by
  by_cases hm : m = n
  · subst hm
    have hnone : (s.finish m result).tasks m = none := Function.update_self ..
    exact absurd (hnone.symm.trans h) (Option.some_ne_none _).symm
  · have hsame : (s.finish n result).tasks m = s.tasks m := Function.update_of_ne hm ..
    exact ⟨hm, hsame.symm.trans h⟩

theorem tasks_finish_eq_none {n m : ℕ} (result : Except Bytes Message) (h : s.tasks m = none) :
    (s.finish n result).tasks m = none := by
  by_cases hm : m = n
  · subst hm
    exact Function.update_self ..
  · exact (Function.update_of_ne hm ..).trans h

theorem mem_returned_finish {n m : ℕ} {result result' : Except Bytes Message}
    (h : (m, result') ∈ (s.finish n result).returned) :
    (m, result') ∈ s.returned ∨ m = n ∧ result' = result := by
  rcases List.mem_append.mp h with h | h
  · exact Or.inl h
  · rw [List.mem_singleton, Prod.mk.injEq] at h
    exact Or.inr h

theorem tasks_update {n m : ℕ} {task task' : PublishTask}
    (h : Function.update s.tasks n (some task) m = some task') :
    m = n ∧ task' = task ∨ m ≠ n ∧ s.tasks m = some task' := by
  by_cases hm : m = n
  · subst hm
    rw [Function.update_self, Option.some_inj] at h
    exact Or.inl ⟨rfl, h.symm⟩
  · rw [Function.update_of_ne hm] at h
    exact Or.inr ⟨hm, h⟩

theorem isSome_wal_of_map {b b' : Broker}
    (h : b.wal.map Wal.closed = b'.wal.map Wal.closed) : b.wal.isSome = b'.wal.isSome := by
  have hmap := congrArg Option.isSome h
  rwa [Option.isSome_map, Option.isSome_map] at hmap

private theorem items_closeTopic {t t' : Topic} (h : closeTopic t = some t') :
    t'.ring.items = t.ring.items := by
  rw [closeTopic] at h
  split at h
  · exact Option.some_inj.mp h ▸ rfl
  split at h
  · rw [← Option.some_inj.mp h]
    exact t.ring.items_close
  split at h
  · exact Option.some_inj.mp h ▸ rfl
  · exact absurd h (Option.some_ne_none _).symm

namespace Ledger

theorem of_broker (h : Ledger s) (b : Broker) (hwal : b.wal.isSome = s.broker.wal.isSome)
    (walErr : Option Bytes) (closing : Option (List Bytes)) :
    Ledger { s with broker := b, walErr := walErr, closing := closing } := by
  refine ⟨h.failed, fun n msg hn ↦ ?_, fun n task hn ↦ ?_, h.returned, h.unborn⟩
  · exact ⟨(h.succeeded n msg hn).1, fun hb ↦ (h.succeeded n msg hn).2 (hwal ▸ hb)⟩
  · have htask := h.tasks n task hn
    exact ⟨htask.notPushed, htask.notLogged, fun hstage hb ↦ htask.logged hstage (hwal ▸ hb)⟩

theorem lt_calls (h : Ledger s) {n : ℕ} {task : PublishTask} (htask : s.tasks n = some task) :
    n < s.calls := by
  by_contra hle
  rw [(h.unborn n (Nat.le_of_not_lt hle)).1] at htask
  exact Option.some_ne_none _ htask.symm

theorem ne_of_returned (h : Ledger s) {n m : ℕ} {task : PublishTask}
    {result : Except Bytes Message} (htask : s.tasks n = some task)
    (hm : (m, result) ∈ s.returned) : m ≠ n := by
  rintro rfl
  rw [(h.returned m result hm).1] at htask
  exact Option.some_ne_none _ htask.symm

theorem returned_finish (h : Ledger s) {n : ℕ} {task : PublishTask}
    (htask : s.tasks n = some task) (result : Except Bytes Message) :
    ∀ m result', (m, result') ∈ (s.finish n result).returned →
      (s.finish n result).tasks m = none ∧ m < s.calls := by
  intro m result' hm
  rcases mem_returned_finish hm with hm | ⟨rfl, -⟩
  · exact ⟨tasks_finish_eq_none result (h.returned m result' hm).1, (h.returned m result' hm).2⟩
  · exact ⟨Function.update_self .., h.lt_calls htask⟩

theorem fail (h : Ledger s) {n : ℕ} {task : PublishTask} (htask : s.tasks n = some task)
    (hlogged : n ∉ s.logged.map Prod.fst) (err : Bytes) : Ledger (s.finish n (.error err)) := by
  refine ⟨fun m err' hm ↦ ?_, fun m msg hm ↦ ?_, fun m task' hm ↦ ?_,
    h.returned_finish htask _, fun m hm ↦ ?_⟩
  · rcases mem_returned_finish hm with hm | ⟨rfl, -⟩
    · exact h.failed m err' hm
    · exact ⟨(h.tasks m task htask).notPushed, hlogged⟩
  · rcases mem_returned_finish hm with hm | ⟨-, hok⟩
    · exact h.succeeded m msg hm
    · exact absurd hok (by simp)
  · have hok := h.tasks m task' (tasks_finish hm).2
    exact ⟨hok.notPushed, hok.notLogged, hok.logged⟩
  · exact ⟨tasks_finish_eq_none _ (h.unborn m hm).1, (h.unborn m hm).2⟩

private theorem succeed (h : Ledger s) {n : ℕ} {task : PublishTask} (htask : s.tasks n = some task)
    (hstage : task.stage ≠ .log) {b : Broker} (hwal : b.wal.isSome = s.broker.wal.isSome) :
    Ledger ({ s with broker := b, pushed := s.pushed ++ [(n, task.msg)] }.finish n
      (.ok task.msg)) := by
  have hpushed : ∀ m, m ∉ s.pushed.map Prod.fst → m ≠ n →
      m ∉ (s.pushed ++ [(n, task.msg)]).map Prod.fst := by
    intro m hm hne hmem
    rw [List.map_append, List.mem_append, List.map_singleton, List.mem_singleton] at hmem
    exact hmem.elim hm hne
  refine ⟨fun m err hm ↦ ?_, fun m msg hm ↦ ?_, fun m task' hm ↦ ?_,
    h.returned_finish htask _, fun m hm ↦ ?_⟩
  · rcases mem_returned_finish hm with hm | ⟨-, herr⟩
    · obtain ⟨hp, hl⟩ := h.failed m err hm
      exact ⟨hpushed m hp (h.ne_of_returned htask hm), hl⟩
    · exact absurd herr (by simp)
  · rcases mem_returned_finish hm with hm | ⟨rfl, hok⟩
    · obtain ⟨hp, hl⟩ := h.succeeded m msg hm
      exact ⟨List.mem_append_left _ hp, fun hb ↦ hl (hwal ▸ hb)⟩
    · rw [Except.ok.injEq] at hok
      subst hok
      exact ⟨List.mem_append_right _ (List.mem_singleton.mpr rfl),
        fun hb ↦ (h.tasks m task htask).logged hstage (hwal ▸ hb)⟩
  · obtain ⟨hne, hm⟩ := tasks_finish hm
    have hok := h.tasks m task' hm
    exact ⟨hpushed m hok.notPushed hne, hok.notLogged, fun hs hb ↦ hok.logged hs (hwal ▸ hb)⟩
  · obtain ⟨hnone, hp, hl⟩ := h.unborn m hm
    have hne : m ≠ n := ((h.lt_calls htask).trans_le hm).ne'
    exact ⟨tasks_finish_eq_none _ hnone, hpushed m hp hne, hl⟩

/-- A call passes the log, which has taken its record if there is one. -/
theorem log (h : Ledger s) {n : ℕ} {task : PublishTask} (htask : s.tasks n = some task)
    {b : Broker} (hwal : b.wal.isSome = s.broker.wal.isSome) (walErr : Option Bytes) :
    Ledger ({ s with
      broker := b
      walErr := walErr
      logged := if s.broker.wal.isSome then s.logged ++ [(n, task.msg)]
        else s.logged }.advance n task .check) := by
  obtain ⟨logged, hlogged⟩ : ∃ logged, logged = if s.broker.wal.isSome
      then s.logged ++ [(n, task.msg)] else s.logged := ⟨_, rfl⟩
  rw [← hlogged]
  have hother : ∀ m, m ∉ s.logged.map Prod.fst → m ≠ n → m ∉ logged.map Prod.fst := by
    intro m hm hne
    rw [hlogged]
    split
    · rw [List.map_append, List.mem_append, List.map_singleton, List.mem_singleton]
      exact not_or_intro hm hne
    · exact hm
  have hkept : ∀ p ∈ s.logged, p ∈ logged := by
    intro p hp
    rw [hlogged]
    split
    · exact List.mem_append_left _ hp
    · exact hp
  have hnew : b.wal.isSome → (n, task.msg) ∈ logged := by
    intro hb
    rw [hlogged, if_pos (hwal ▸ hb)]
    exact List.mem_append_right _ (List.mem_singleton.mpr rfl)
  refine ⟨fun m err hm ↦ ?_, fun m msg hm ↦ ?_, fun m task' hm ↦ ?_, fun m result hm ↦ ?_,
    fun m hm ↦ ?_⟩
  · obtain ⟨hp, hl⟩ := h.failed m err hm
    exact ⟨hp, hother m hl (h.ne_of_returned htask hm)⟩
  · obtain ⟨hp, hl⟩ := h.succeeded m msg hm
    exact ⟨hp, fun hb ↦ hkept _ (hl (hwal ▸ hb))⟩
  · rcases tasks_update hm with ⟨rfl, rfl⟩ | ⟨hne, hm⟩
    · exact ⟨(h.tasks m task htask).notPushed, fun hstage ↦ absurd hstage (by simp),
        fun _ hb ↦ hnew hb⟩
    · have hok := h.tasks m task' hm
      exact ⟨hok.notPushed, fun hs ↦ hother m (hok.notLogged hs) hne,
        fun hs hb ↦ hkept _ (hok.logged hs (hwal ▸ hb))⟩
  · obtain ⟨hnone, hlt⟩ := h.returned m result hm
    exact ⟨(Function.update_of_ne (h.ne_of_returned htask hm) ..).trans hnone, hlt⟩
  · obtain ⟨hnone, hp, hl⟩ := h.unborn m hm
    have hne : m ≠ n := ((h.lt_calls htask).trans_le hm).ne'
    exact ⟨(Function.update_of_ne hne ..).trans hnone, hp, hother m hl hne⟩

private theorem check (h : Ledger s) {n : ℕ} {task : PublishTask} (htask : s.tasks n = some task)
    (hstage : task.stage ≠ .log) : Ledger (s.advance n task .push) := by
  refine ⟨h.failed, h.succeeded, fun m task' hm ↦ ?_, fun m result hm ↦ ?_, fun m hm ↦ ?_⟩
  · rcases tasks_update hm with ⟨rfl, rfl⟩ | ⟨-, hm⟩
    · have hok := h.tasks m task htask
      exact ⟨hok.notPushed, fun hpush ↦ absurd hpush (by simp), fun _ ↦ hok.logged hstage⟩
    · have hok := h.tasks m task' hm
      exact ⟨hok.notPushed, hok.notLogged, hok.logged⟩
  · obtain ⟨hnone, hlt⟩ := h.returned m result hm
    exact ⟨(Function.update_of_ne (h.ne_of_returned htask hm) ..).trans hnone, hlt⟩
  · obtain ⟨hnone, hrest⟩ := h.unborn m hm
    exact ⟨(Function.update_of_ne ((h.lt_calls htask).trans_le hm).ne' ..).trans hnone, hrest⟩

private theorem lookupStep (h : Ledger s) (call : PublishCall) : Ledger (s.lookupStep call) := by
  have hwal : (s.lookupStep call).broker.wal = s.broker.wal :=
    s.broker.wal_getOrCreateTopic call.message.topic
  obtain ⟨-, hpushed, hlogged⟩ := h.unborn s.calls le_rfl
  refine ⟨h.failed, fun m msg hm ↦ hwal ▸ h.succeeded m msg hm, fun m task' hm ↦ ?_,
    fun m result hm ↦ ?_, fun m hm ↦ ?_⟩
  · rcases tasks_update hm with ⟨rfl, rfl⟩ | ⟨-, hm⟩
    · exact ⟨hpushed, fun _ ↦ hlogged, fun hstage ↦ absurd rfl hstage⟩
    · have hok := h.tasks m task' hm
      exact ⟨hok.notPushed, hok.notLogged, hwal ▸ hok.logged⟩
  · obtain ⟨hnone, hlt⟩ := h.returned m result hm
    exact ⟨(Function.update_of_ne hlt.ne ..).trans hnone, hlt.trans (Nat.lt_succ_self _)⟩
  · have hlt : s.calls < m := hm
    obtain ⟨hnone, hrest⟩ := h.unborn m hlt.le
    exact ⟨(Function.update_of_ne hlt.ne' ..).trans hnone, hrest⟩

end Ledger

/-! ### What is where -/

/-- The rings and the log hold what the lists say. -/
structure Recorded (c : Codec) (b₀ : Broker) (msgs : List Message) (s : PublishSystem) :
    Prop where
  rings : ∀ name, ∀ m ∈ s.broker.ringItems name, m ∈ b₀.ringItems name ∨ ∃ n, (n, m) ∈ s.pushed
  log : LogOf c s.broker s.walErr (msgs ++ s.readings c)
  short : ∀ n task, s.tasks n = some task → (Entry.publish task.msg).Short c
  inMemory : s.broker.wal = none → s.logged = []

theorem LogOf.writePublish {M : List Message} (h : LogOf c s.broker s.walErr M) {msg : Message}
    (hshort : (Entry.publish msg).Short c) {fault : Option (ℕ × Bytes)}
    {r : Except Bytes Unit × Broker × Option Bytes}
    (hr : s.writePublish c msg fault = some r) :
    match r.1 with
    | .error _ => LogOf c r.2.1 r.2.2 M
    | .ok _ => LogOf c r.2.1 r.2.2 (M ++ (delivered c (opPublish, c.marshal msg)).toList) := by
  rw [PublishSystem.writePublish] at hr
  cases hw : s.broker.wal with
  | none =>
    rw [hw, Option.some_inj] at hr
    subst hr
    exact fun w hw' ↦ absurd (hw.symm.trans hw') (Option.some_ne_none _).symm
  | some w =>
    have hlog := h w hw
    simp only [hw] at hr
    by_cases hclosed : w.closed = true
    · rw [if_pos hclosed, Option.some_inj] at hr
      subst hr
      exact h
    rw [if_neg hclosed] at hr
    have hopen : w.closed = false := Bool.eq_false_iff.mpr hclosed
    cases herr : s.walErr with
    | some err =>
      simp only [herr, Option.some_inj] at hr
      subst hr
      exact herr ▸ h
    | none =>
      rw [herr, if_pos rfl, Wal.Archives, if_neg hclosed] at hlog
      cases fault with
      | some fault =>
        obtain ⟨k, err⟩ := fault
        have hframe : frame opPublish (c.marshal msg) = _ :=
          (Entry.record c (.publish msg) hshort).frame_eq
        simp only [herr, hframe, Option.bind_some, Option.ite_none_right_eq_some,
          Option.some_inj] at hr
        obtain ⟨hk, rfl⟩ := hr
        intro w' hw'
        rw [← Option.some_inj.mp hw', if_neg (Option.some_ne_none _)]
        exact hlog.tornWrite _ hk
      | none =>
        have hwrite : w.writePublish c msg = _ :=
          Wal.write_eq (e := .publish msg) hopen hshort
        simp only [herr, Broker.logPublish, hw, hwrite, Option.map_some, Option.some_inj] at hr
        subst hr
        intro w' hw'
        have hnew := hlog.written (Entry.record c (.publish msg) hshort)
        rw [← Option.some_inj.mp hw', if_pos rfl, Wal.Archives, hnew.1, if_neg Bool.false_ne_true]
        exact hnew

/-- The write changes nothing but the log, and does not open or close it. Where it succeeds, the
log is open. -/
theorem writePublish_frame {msg : Message} {fault : Option (ℕ × Bytes)}
    {r : Except Bytes Unit × Broker × Option Bytes}
    (hr : s.writePublish c msg fault = some r) :
    (r.2.1.topics = s.broker.topics ∧ r.2.1.closed = s.broker.closed ∧
      r.2.1.wal.map Wal.closed = s.broker.wal.map Wal.closed) ∧
    (r.1 = .ok () → s.broker.wal.isSome → WalOpen s.broker) := by
  rw [PublishSystem.writePublish] at hr
  cases hw : s.broker.wal with
  | none =>
    rw [hw, Option.some_inj] at hr
    subst hr
    exact ⟨⟨rfl, rfl, congrArg _ hw⟩, fun _ hsome ↦ absurd hsome Bool.false_ne_true⟩
  | some w =>
    simp only [hw] at hr
    by_cases hclosed : w.closed = true
    · rw [if_pos hclosed, Option.some_inj] at hr
      subst hr
      exact ⟨⟨rfl, rfl, congrArg _ hw⟩, fun herr ↦ absurd herr (by simp)⟩
    rw [if_neg hclosed] at hr
    have hopen : WalOpen s.broker := by
      rw [WalOpen, hw, Option.map_some, Bool.eq_false_iff.mpr hclosed]
    refine ⟨?_, fun _ _ ↦ hopen⟩
    split at hr
    · rw [← Option.some_inj.mp hr]
      exact ⟨rfl, rfl, congrArg _ hw⟩
    · rw [Option.bind_eq_some_iff] at hr
      obtain ⟨buf, -, hr⟩ := hr
      rw [Option.ite_none_right_eq_some, Option.some_inj] at hr
      rw [← hr.2]
      exact ⟨rfl, rfl, rfl⟩
    · rw [Option.map_eq_some_iff] at hr
      obtain ⟨r', hr', rfl⟩ := hr
      simp only [Broker.logPublish, hw, Option.map_eq_some_iff] at hr'
      obtain ⟨w', hw', rfl⟩ := hr'
      exact ⟨rfl, rfl, congrArg some (Wal.closed_writeRecord hw')⟩

theorem filterMap_reading (c : Codec) (n : ℕ) (msg : Message) :
    [(n, msg)].filterMap (fun p : ℕ × Message ↦ delivered c (opPublish, c.marshal p.2))
      = (delivered c (opPublish, c.marshal msg)).toList := by
  cases hdel : delivered c (opPublish, c.marshal msg) <;> simp [hdel]

namespace Recorded

theorem finish (h : Recorded c b₀ msgs s) (n : ℕ) (result : Except Bytes Message) :
    Recorded c b₀ msgs (s.finish n result) :=
  ⟨h.rings, h.log, fun m task hm ↦ h.short m task (tasks_finish hm).2, h.inMemory⟩

theorem advance (h : Recorded c b₀ msgs s) {n : ℕ} {task : PublishTask}
    (hshort : (Entry.publish task.msg).Short c) (stage : PublishStage) :
    Recorded c b₀ msgs (s.advance n task stage) := by
  refine ⟨h.rings, h.log, fun m task' hm ↦ ?_, h.inMemory⟩
  rcases tasks_update hm with ⟨rfl, rfl⟩ | ⟨-, hm⟩
  · exact hshort
  · exact h.short m task' hm

theorem setTopic (h : Recorded c b₀ msgs s) {name : Bytes} {t' : Topic} (b : Broker)
    {pushed : List (ℕ × Message)} (htopics : b.topics = (s.broker.setTopic name t').topics)
    (hwal : b.wal = s.broker.wal) (hpushed : s.pushed ⊆ pushed)
    (hitems : ∀ m ∈ t'.ring.items, m ∈ s.broker.ringItems name ∨ ∃ n, (n, m) ∈ pushed) :
    Recorded c b₀ msgs { s with broker := b, pushed := pushed } := by
  have hold : ∀ {name' m}, m ∈ b₀.ringItems name' ∨ (∃ n, (n, m) ∈ s.pushed) →
      m ∈ b₀.ringItems name' ∨ ∃ n, (n, m) ∈ pushed :=
    fun hm ↦ hm.imp id fun ⟨n, hn⟩ ↦ ⟨n, hpushed hn⟩
  refine ⟨fun name' m hm ↦ ?_, fun w hw ↦ h.log w (hwal ▸ hw), h.short,
    fun hb ↦ h.inMemory (hwal ▸ hb)⟩
  have hring : b.ringItems name' = (s.broker.setTopic name t').ringItems name' := by
    rw [Broker.ringItems, htopics, Broker.ringItems]
  change m ∈ b.ringItems name' at hm
  rw [hring, Broker.ringItems_setTopic] at hm
  split at hm
  · rename_i hname
    rw [hname]
    exact (hitems m hm).elim (fun hm ↦ hold (h.rings name m hm)) Or.inr
  · exact hold (h.rings name' m hm)

private theorem lookupStep (h : Recorded c b₀ msgs s) {call : PublishCall}
    (hshort : (Entry.publish call.message).Short c) : Recorded c b₀ msgs (s.lookupStep call) := by
  have hring := fun name ↦ (s.broker.ringItems_getOrCreateTopic call.message.topic name).2
  have hwal := s.broker.wal_getOrCreateTopic call.message.topic
  refine ⟨fun name m hm ↦ h.rings name m (hring name ▸ hm), fun w hw ↦ h.log w (hwal ▸ hw),
    fun m task hm ↦ ?_, fun hnone ↦ h.inMemory (hwal ▸ hnone)⟩
  rcases tasks_update hm with ⟨-, rfl⟩ | ⟨-, hm⟩
  · exact hshort
  · exact h.short m task hm

private theorem logStep (h : Recorded c b₀ msgs s) {n : ℕ} {task : PublishTask}
    (htask : s.tasks n = some task) {fault : Option (ℕ × Bytes)}
    (hs' : s.logStep c n task fault = some s') : Recorded c b₀ msgs s' := by
  rw [PublishSystem.logStep, Option.map_eq_some_iff] at hs'
  obtain ⟨⟨result, b, walErr⟩, hr, rfl⟩ := hs'
  obtain ⟨⟨htopics, -, hwal⟩, -⟩ := writePublish_frame hr
  have hlog := h.log.writePublish (h.short n task htask) hr
  have hsome := isSome_wal_of_map hwal
  have hrings : ∀ name, ∀ m ∈ b.ringItems name,
      m ∈ b₀.ringItems name ∨ ∃ n, (n, m) ∈ s.pushed := by
    intro name m hm
    rw [Broker.ringItems, htopics] at hm
    exact h.rings name m hm
  cases result with
  | error err =>
    have hnew : Recorded c b₀ msgs { s with broker := b, walErr := walErr } := by
      refine ⟨hrings, hlog, h.short, fun hnone ↦ ?_⟩
      refine h.inMemory (Option.not_isSome_iff_eq_none.mp ?_)
      rw [← hsome, show b.wal = none from hnone]
      exact Bool.false_ne_true
    exact hnew.finish n _
  | ok _ =>
    refine Recorded.advance (s := { s with
      broker := b
      walErr := walErr
      logged := if s.broker.wal.isSome then s.logged ++ [(n, task.msg)] else s.logged })
      ⟨hrings, fun w hw ↦ ?_, h.short, fun hnone ↦ ?_⟩ (h.short n task htask) _
    · have hb : s.broker.wal.isSome := by
        rw [← hsome, show b.wal = some w from hw]
        rfl
      have hreadings := hlog w hw
      rw [List.append_assoc] at hreadings
      rw [readings, if_pos hb, List.filterMap_append, filterMap_reading]
      exact hreadings
    · have hb : ¬s.broker.wal.isSome := by
        rw [← hsome, show b.wal = none from hnone]
        exact Bool.false_ne_true
      exact (if_neg hb).trans (h.inMemory (Option.not_isSome_iff_eq_none.mp hb))

private theorem pushStep (h : Recorded c b₀ msgs s) (n : ℕ) {task : PublishTask} {t : Topic}
    (hlookup : s.broker.topics.lookup task.msg.topic = some t) :
    Recorded c b₀ msgs (s.pushStep n task t) := by
  have hring : s.broker.ringItems task.msg.topic = t.ring.items := by
    rw [Broker.ringItems, hlookup]
  unfold PublishSystem.pushStep
  simp only
  cases hok : (t.push task.msg task.front).1 with
  | true =>
    rw [if_pos rfl]
    let b : Broker := { s.broker.setTopic task.msg.topic (t.push task.msg task.front).2 with
      totalPublished := s.broker.totalPublished + 1 }
    refine Recorded.finish (h.setTopic b rfl rfl (List.subset_append_left _ _) fun m hm ↦ ?_) n _
    rcases Topic.mem_of_mem_push hm with hm | ⟨-, rfl⟩
    · exact Or.inl (hring ▸ hm)
    · exact Or.inr ⟨n, List.mem_append_right _ (List.mem_singleton.mpr rfl)⟩
  | false =>
    rw [if_neg Bool.false_ne_true]
    refine Recorded.finish (h.setTopic _ rfl rfl (List.Subset.refl _) fun m hm ↦ ?_) n _
    rcases Topic.mem_of_mem_push hm with hm | ⟨htrue, -⟩
    · exact Or.inl (hring ▸ hm)
    · exact absurd (hok.symm.trans htrue) Bool.false_ne_true

private theorem closeStep (h : Recorded c b₀ msgs s) {names : List Bytes}
    (hs' : s.closeStep names = some s') : Recorded c b₀ msgs s' := by
  cases names with
  | nil =>
    rw [← Option.some_inj.mp hs']
    refine ⟨h.rings, fun w hw ↦ ?_, h.short,
      fun hnone ↦ h.inMemory (Option.map_eq_none_iff.mp hnone)⟩
    obtain ⟨w', hw', rfl⟩ := Option.map_eq_some_iff.mp hw
    have hlog := h.log w' hw'
    change if s.walErr = none then _ else _
    split at hlog
    · rename_i herr
      rw [if_pos herr]
      exact hlog.close
    · rename_i herr
      rw [if_neg herr]
      exact hlog.close
  | cons name rest =>
    rw [PublishSystem.closeStep, Option.map_eq_some_iff] at hs'
    obtain ⟨t, hlookup, rfl⟩ := hs'
    cases ht' : closeTopic t with
    | none => exact ⟨h.rings, h.log, h.short, h.inMemory⟩
    | some t' =>
      refine h.setTopic _ rfl rfl (List.Subset.refl _) fun m hm ↦ Or.inl ?_
      rw [Broker.ringItems, hlookup]
      rwa [items_closeTopic ht'] at hm

/-- **Every step** keeps the rings and the log in line with the lists. -/
theorem step {l : PublishLabel} (h : Recorded c b₀ msgs s) (hshort : Fits c l)
    (hstep : s.step c l = some s') : Recorded c b₀ msgs s' := by
  cases l with
  | call call =>
    obtain ⟨-, hstep⟩ := Option.ite_none_left_eq_some.mp hstep
    rw [← Option.some_inj.mp hstep]
    exact h.lookupStep hshort
  | log n fault =>
    obtain ⟨task, htask, hs'⟩ := Option.bind_eq_some_iff.mp hstep
    exact h.logStep (taskAt_eq_some.mp htask).1 hs'
  | check n =>
    obtain ⟨task, htask, hs'⟩ := Option.bind_eq_some_iff.mp hstep
    obtain ⟨t, -, hs'⟩ := Option.bind_eq_some_iff.mp hs'
    obtain ⟨-, hs'⟩ := Option.ite_none_left_eq_some.mp hs'
    split at hs'
    · rw [← Option.some_inj.mp hs']
      exact h.finish n _
    · rw [← Option.some_inj.mp hs']
      exact h.advance (h.short n task (taskAt_eq_some.mp htask).1) _
  | push n =>
    obtain ⟨task, -, hs'⟩ := Option.bind_eq_some_iff.mp hstep
    obtain ⟨t, hlookup, rfl⟩ := Option.map_eq_some_iff.mp hs'
    exact h.pushStep n hlookup
  | close order =>
    obtain ⟨-, hstep⟩ := Option.ite_none_left_eq_some.mp hstep
    split at hstep
    · exact Option.some_inj.mp hstep ▸ h
    · obtain ⟨-, hstep⟩ := Option.ite_none_right_eq_some.mp hstep
      rw [← Option.some_inj.mp hstep]
      exact ⟨h.rings, h.log, h.short, h.inMemory⟩
  | closeStep =>
    obtain ⟨names, -, hs'⟩ := Option.bind_eq_some_iff.mp hstep
    exact h.closeStep hs'

private theorem replay_subset (h : Recorded c b₀ msgs s) {w : Wal} (hw : s.broker.wal = some w) :
    (replay c w.close.dir).2 ⊆ msgs ++ s.readings c := by
  have hlog := h.log w hw
  split at hlog
  · exact hlog.within.replay_subset
  · exact hlog.replay_subset

theorem replay_perm (h : Recorded c b₀ msgs s) (herr : s.walErr = none) {w : Wal}
    (hw : s.broker.wal = some w) : (replay c w.close.dir).2.Perm (msgs ++ s.readings c) := by
  have hlog := h.log w hw
  rw [if_pos herr] at hlog
  exact hlog.replay_perm

end Recorded

/-! ### Topics that will not refuse -/

/-- A call in progress that is in the log, or may still get there, is on a topic that accepts its
message. This is what `Close` can break. -/
structure Steady (s : PublishSystem) : Prop where
  accepts : ∀ n task, s.tasks n = some task → s.broker.wal.isSome →
    task.stage ≠ .log ∨ WalOpen s.broker →
    ∃ t, s.broker.topics.lookup task.msg.topic = some t ∧ t.Accepts
  isOpen : s.broker.closed = false → s.broker.Accepts
  idle : s.broker.closed = false → s.closing = none
  isClosed : s.broker.closed = true → s.closing = none → ¬WalOpen s.broker

namespace Steady

theorem finish (h : Steady s) (n : ℕ) (result : Except Bytes Message) :
    Steady (s.finish n result) :=
  ⟨fun m task hm ↦ h.accepts m task (tasks_finish hm).2, h.isOpen, h.idle, h.isClosed⟩

theorem advance (h : Steady s) {n : ℕ} {task : PublishTask} (htask : s.tasks n = some task)
    (hopen : s.broker.wal.isSome → task.stage ≠ .log ∨ WalOpen s.broker) (stage : PublishStage) :
    Steady (s.advance n task stage) := by
  refine ⟨fun m task' hm hwal hstage ↦ ?_, h.isOpen, h.idle, h.isClosed⟩
  rcases tasks_update hm with ⟨rfl, rfl⟩ | ⟨-, hm⟩
  · exact h.accepts m task htask hwal (hopen hwal)
  · exact h.accepts m task' hm hwal hstage

/-- The broker has changed, but neither its topics nor whether its log is open. -/
theorem of_log (h : Steady s) {b : Broker} (htopics : b.topics = s.broker.topics)
    (hclosed : b.closed = s.broker.closed)
    (hwal : b.wal.map Wal.closed = s.broker.wal.map Wal.closed) (walErr : Option Bytes)
    (logged : List (ℕ × Message)) :
    Steady { s with broker := b, walErr := walErr, logged := logged } := by
  have hopen : WalOpen b ↔ WalOpen s.broker := by rw [WalOpen, WalOpen, hwal]
  refine ⟨fun n task hn hb hstage ↦ ?_, fun hb name t hlookup ↦ ?_, fun hb ↦ h.idle (hclosed ▸ hb),
    fun hb hclosing hw ↦ h.isClosed (hclosed ▸ hb) hclosing (hopen.mp hw)⟩
  · obtain ⟨t, ht⟩ :=
      h.accepts n task hn (isSome_wal_of_map hwal ▸ hb) (hstage.imp id hopen.mp)
    exact ⟨t, htopics ▸ ht⟩
  · exact h.isOpen (hclosed ▸ hb) name t (htopics ▸ hlookup)

theorem setTopic (h : Steady s) {name : Bytes} {t' : Topic} (b : Broker)
    (htopics : b.topics = (s.broker.setTopic name t').topics) (hwal : b.wal = s.broker.wal)
    (hclosed : b.closed = s.broker.closed) (pushed : List (ℕ × Message))
    (hopen : s.broker.closed = false → t'.Accepts)
    (hcalls : ∀ n task, s.tasks n = some task → s.broker.wal.isSome →
      task.stage ≠ .log ∨ WalOpen s.broker → task.msg.topic = name → t'.Accepts) :
    Steady { s with broker := b, pushed := pushed } := by
  have hwalOpen : WalOpen b ↔ WalOpen s.broker := by rw [WalOpen, WalOpen, hwal]
  refine ⟨fun n task hn hb hstage ↦ ?_, fun hb ↦ ?_, fun hb ↦ h.idle (hclosed ▸ hb),
    fun hb hclosing hw ↦ h.isClosed (hclosed ▸ hb) hclosing (hwalOpen.mp hw)⟩
  · have hb' : s.broker.wal.isSome := hwal ▸ hb
    have hstage' : task.stage ≠ .log ∨ WalOpen s.broker := hstage.imp id hwalOpen.mp
    by_cases hname : task.msg.topic = name
    · refine ⟨t', ?_, hcalls n task hn hb' hstage' hname⟩
      rw [htopics, hname, Broker.setTopic, AList.lookup_insert]
    · obtain ⟨t, ht, haccepts⟩ := h.accepts n task hn hb' hstage'
      refine ⟨t, ?_, haccepts⟩
      rw [htopics, Broker.setTopic, AList.lookup_insert_ne hname]
      exact ht
  · intro name' t hlookup
    have hb' : s.broker.closed = false := hclosed ▸ hb
    exact (h.isOpen hb').setTopic (hopen hb') name name' t (htopics ▸ hlookup)

private theorem lookupStep (h : Steady s) (hclosing : s.closing = none) (call : PublishCall) :
    Steady (s.lookupStep call) := by
  obtain ⟨found, hfound⟩ : ∃ found, found = s.broker.getOrCreateTopic call.message.topic :=
    ⟨_, rfl⟩
  have hwal : found.2.wal = s.broker.wal := hfound ▸ s.broker.wal_getOrCreateTopic _
  obtain ⟨hlookup, h'⟩ : found.2.topics.lookup call.message.topic = some found.1 ∧
      Steady { s with broker := found.2 } := by
    rw [hfound, Broker.getOrCreateTopic]
    split
    · rename_i t ht
      exact ⟨ht, h⟩
    · have hdefault := (Topic.ring_default call.message.topic).1
      exact ⟨AList.lookup_insert _, h.setTopic _ rfl rfl rfl s.pushed (fun _ ↦ hdefault)
        fun _ _ _ _ _ _ ↦ hdefault⟩
  have haccepts : WalOpen s.broker → found.1.Accepts := by
    intro hopen
    cases hb : s.broker.closed with
    | false => exact hfound ▸ ((h.isOpen hb).getOrCreateTopic _).1
    | true => exact absurd hopen (h.isClosed hb hclosing)
  have hs : s.lookupStep call = { s with
      broker := found.2
      tasks := Function.update s.tasks s.calls (some ⟨call.message, call.front, .log⟩)
      calls := s.calls + 1 } := by rw [hfound]; rfl
  rw [hs]
  refine ⟨fun m task hm hb hstage ↦ ?_, h'.isOpen, h'.idle, h'.isClosed⟩
  rcases tasks_update hm with ⟨-, rfl⟩ | ⟨-, hm⟩
  · refine ⟨found.1, hlookup, haccepts ?_⟩
    have hopen : WalOpen found.2 := hstage.resolve_left fun hne ↦ hne rfl
    rwa [WalOpen, hwal] at hopen
  · exact h'.accepts m task hm hb hstage

private theorem push (h : Steady s) {msg : Message} {front : Bool} {t : Topic}
    (hlookup : s.broker.topics.lookup msg.topic = some t) (b : Broker)
    (htopics : b.topics = (s.broker.setTopic msg.topic (t.push msg front).2).topics)
    (hwal : b.wal = s.broker.wal) (hclosed : b.closed = s.broker.closed)
    (pushed : List (ℕ × Message)) : Steady { s with broker := b, pushed := pushed } := by
  have hflags : t.Accepts → (t.push msg front).2.Accepts := (t.flags_push msg front).trans
  refine h.setTopic b htopics hwal hclosed pushed
    (fun hb ↦ hflags (h.isOpen hb _ _ hlookup)) fun n task hn hb hstage hname ↦ ?_
  obtain ⟨t', ht', haccepts⟩ := h.accepts n task hn hb hstage
  rw [hname, hlookup, Option.some_inj] at ht'
  exact hflags (ht' ▸ haccepts)

private theorem close (h : Steady s) (order : List Bytes) :
    Steady { s with broker := { s.broker with closed := true }, closing := some order } :=
  ⟨h.accepts, fun hb ↦ absurd hb (by simp), fun hb ↦ absurd hb (by simp),
    fun _ hnone ↦ absurd hnone (by simp)⟩

private theorem closeLog (h : Steady s) :
    Steady { s with
      broker := { s.broker with wal := s.broker.wal.map Wal.close }, closing := none } := by
  have hshut : ¬WalOpen { s.broker with wal := s.broker.wal.map Wal.close } := by
    rw [WalOpen, Option.map_map]
    intro hopen
    obtain ⟨w, -, hw⟩ := Option.map_eq_some_iff.mp hopen
    exact Bool.false_ne_true (hw.symm.trans w.closed_close)
  refine ⟨fun n task hn hb hstage ↦ ?_, h.isOpen, fun _ ↦ rfl, fun _ _ ↦ hshut⟩
  refine h.accepts n task hn ?_ (Or.inl (hstage.resolve_right hshut))
  rwa [Option.isSome_map] at hb

/-- A step of `Topic.Close`. The flag is set while there is no call on the topic; after that there
is none either that could still be accepted. -/
theorem closeTopic (h : Steady s) {name : Bytes} {t : Topic} (t' : Topic)
    (hlookup : s.broker.topics.lookup name = some t) (hclosing : s.broker.closed = true)
    (hfree : s.broker.wal.isSome → t.closed = false →
      ∀ n task, s.tasks n = some task → task.msg.topic ≠ name) :
    Steady { s with broker := s.broker.setTopic name t' } := by
  refine h.setTopic _ rfl rfl rfl s.pushed
    (fun hb ↦ absurd (hb.symm.trans hclosing) Bool.false_ne_true) fun n task hn hb hstage hname ↦ ?_
  obtain ⟨t₁, ht₁, haccepts⟩ := h.accepts n task hn hb hstage
  rw [hname, hlookup, Option.some_inj] at ht₁
  subst ht₁
  exact absurd hname (hfree hb (congrArg Prod.fst haccepts) n task hn)

end Steady

/-! ### Every step -/

theorem notLogged_of_refused (hrecorded : Recorded c b₀ msgs s) (hsteady : Steady s) {n : ℕ}
    {task : PublishTask} (htask : s.tasks n = some task) (hstage : task.stage ≠ .log) {t : Topic}
    (hlookup : s.broker.topics.lookup task.msg.topic = some t) (hrefuses : ¬t.Accepts) :
    n ∉ s.logged.map Prod.fst := by
  cases hwal : s.broker.wal with
  | none =>
    rw [hrecorded.inMemory hwal]
    exact List.not_mem_nil
  | some w =>
    have hsome : s.broker.wal.isSome := by rw [hwal]; rfl
    obtain ⟨t', ht', haccepts⟩ := hsteady.accepts n task htask hsome (Or.inl hstage)
    rw [hlookup, Option.some_inj] at ht'
    exact absurd (ht' ▸ haccepts) hrefuses

private theorem logStep_preserves (hledger : Ledger s) (hsteady : Steady s) {n : ℕ}
    {task : PublishTask}
    (htask : s.tasks n = some task) (hstage : task.stage = .log) {fault : Option (ℕ × Bytes)}
    (hs' : s.logStep c n task fault = some s') : Ledger s' ∧ Steady s' := by
  rw [logStep, Option.map_eq_some_iff] at hs'
  obtain ⟨⟨result, b, walErr⟩, hr, rfl⟩ := hs'
  obtain ⟨⟨htopics, hclosed, hwal⟩, hopen⟩ := writePublish_frame hr
  have hsome := isSome_wal_of_map hwal
  cases result with
  | error err =>
    refine ⟨(hledger.of_broker b hsome walErr s.closing).fail htask
      ((hledger.tasks n task htask).notLogged hstage) err, ?_⟩
    exact (hsteady.of_log htopics hclosed hwal walErr s.logged).finish n _
  | ok _ =>
    refine ⟨hledger.log htask hsome walErr, ?_⟩
    refine (hsteady.of_log htopics hclosed hwal walErr _).advance htask (fun hb ↦ Or.inr ?_) .check
    change b.wal.isSome at hb
    change b.wal.map Wal.closed = some false
    rw [hwal]
    exact hopen rfl (hsome ▸ hb)

private theorem checkStep_preserves (hledger : Ledger s) (hrecorded : Recorded c b₀ msgs s)
    (hsteady : Steady s) {n : ℕ} {task : PublishTask} (htask : s.tasks n = some task)
    (hstage : task.stage = .check) {t : Topic}
    (hlookup : s.broker.topics.lookup task.msg.topic = some t)
    (hs' : s.checkStep n task t = some s') : Ledger s' ∧ Steady s' := by
  have hpast : task.stage ≠ .log := by rw [hstage]; decide
  obtain ⟨-, hs'⟩ := Option.ite_none_left_eq_some.mp hs'
  split at hs'
  · rename_i hclosed
    have hrefuses : ¬t.Accepts := fun haccepts ↦
      Bool.false_ne_true ((congrArg Prod.fst haccepts).symm.trans hclosed)
    have hnot := notLogged_of_refused hrecorded hsteady htask hpast hlookup hrefuses
    rw [← Option.some_inj.mp hs']
    exact ⟨hledger.fail htask hnot _, hsteady.finish n _⟩
  · rw [← Option.some_inj.mp hs']
    exact ⟨hledger.check htask hpast, hsteady.advance htask (fun _ ↦ Or.inl hpast) .push⟩

private theorem pushStep_preserves (hledger : Ledger s) (hrecorded : Recorded c b₀ msgs s)
    (hsteady : Steady s) {n : ℕ} {task : PublishTask} (htask : s.tasks n = some task)
    (hstage : task.stage = .push) {t : Topic}
    (hlookup : s.broker.topics.lookup task.msg.topic = some t) :
    Ledger (s.pushStep n task t) ∧ Steady (s.pushStep n task t) := by
  have hpast : task.stage ≠ .log := by rw [hstage]; decide
  unfold pushStep
  simp only
  cases hok : (t.push task.msg task.front).1 with
  | true =>
    rw [if_pos rfl]
    let b : Broker := { s.broker.setTopic task.msg.topic (t.push task.msg task.front).2 with
      totalPublished := s.broker.totalPublished + 1 }
    exact ⟨hledger.succeed htask hpast rfl,
      Steady.finish (hsteady.push hlookup b rfl rfl rfl _) n _⟩
  | false =>
    rw [if_neg Bool.false_ne_true]
    have hrefuses : ¬t.Accepts := by
      intro haccepts
      rw [t.ok_push, show t.ring.closed = false from congrArg Prod.snd haccepts] at hok
      exact Bool.false_ne_true hok.symm
    have hnot := notLogged_of_refused hrecorded hsteady htask hpast hlookup hrefuses
    let b : Broker := s.broker.setTopic task.msg.topic (t.push task.msg task.front).2
    exact ⟨(hledger.of_broker b rfl s.walErr s.closing).fail htask hnot _,
      Steady.finish (hsteady.push hlookup b rfl rfl rfl s.pushed) n _⟩

private theorem closeStep_preserves (hledger : Ledger s) (hsteady : Steady s) {names : List Bytes}
    (hclosing : s.closing = some names) (hguard : Undisturbed c s .closeStep)
    (hs' : s.closeStep names = some s') : Ledger s' ∧ Steady s' := by
  cases names with
  | nil =>
    rw [← Option.some_inj.mp hs']
    exact ⟨hledger.of_broker _ Option.isSome_map _ _, hsteady.closeLog⟩
  | cons name rest =>
    have hclosed : s.broker.closed = true := by
      by_contra hb
      have hnone := hsteady.idle (Bool.eq_false_iff.mpr hb)
      rw [hclosing] at hnone
      exact Option.some_ne_none _ hnone
    rw [closeStep, Option.map_eq_some_iff] at hs'
    obtain ⟨t, hlookup, rfl⟩ := hs'
    cases PublishSystem.closeTopic t with
    | none =>
      refine ⟨hledger.of_broker s.broker rfl _ _, hsteady.accepts, hsteady.isOpen, fun hb ↦ ?_,
        fun _ hnone ↦ ?_⟩
      · exact absurd (hb.symm.trans hclosed) Bool.false_ne_true
      · exact absurd hnone (Option.some_ne_none _)
    | some t' =>
      refine ⟨hledger.of_broker (s.broker.setTopic name t') rfl _ _,
        hsteady.closeTopic t' hlookup hclosed fun hb hopen ↦ ?_⟩
      unfold Undisturbed at hguard
      rw [hclosing] at hguard
      exact hguard.2 hb ⟨t, hlookup, hopen⟩

/-- **One step**, as long as it closes no topic under a call. -/
theorem step_preserves {l : PublishLabel} (hguard : Undisturbed c s l)
    (hstep : s.step c l = some s') (hrecorded : Recorded c b₀ msgs s)
    (h : Ledger s ∧ Steady s) : Ledger s' ∧ Steady s' := by
  obtain ⟨hledger, hsteady⟩ := h
  cases l with
  | call call =>
    obtain ⟨hclosing, hstep⟩ := Option.ite_none_left_eq_some.mp hstep
    rw [← Option.some_inj.mp hstep]
    exact ⟨hledger.lookupStep call,
      hsteady.lookupStep (Option.not_isSome_iff_eq_none.mp hclosing) call⟩
  | log n fault =>
    obtain ⟨task, htask, hs'⟩ := Option.bind_eq_some_iff.mp hstep
    obtain ⟨htask, hstage⟩ := taskAt_eq_some.mp htask
    exact logStep_preserves hledger hsteady htask hstage hs'
  | check n =>
    obtain ⟨task, htask, hs'⟩ := Option.bind_eq_some_iff.mp hstep
    obtain ⟨htask, hstage⟩ := taskAt_eq_some.mp htask
    obtain ⟨t, hlookup, hs'⟩ := Option.bind_eq_some_iff.mp hs'
    exact checkStep_preserves hledger hrecorded hsteady htask hstage hlookup hs'
  | push n =>
    obtain ⟨task, htask, hs'⟩ := Option.bind_eq_some_iff.mp hstep
    obtain ⟨htask, hstage⟩ := taskAt_eq_some.mp htask
    obtain ⟨t, hlookup, rfl⟩ := Option.map_eq_some_iff.mp hs'
    exact pushStep_preserves hledger hrecorded hsteady htask hstage hlookup
  | close order =>
    obtain ⟨-, hstep⟩ := Option.ite_none_left_eq_some.mp hstep
    split at hstep
    · exact Option.some_inj.mp hstep ▸ ⟨hledger, hsteady⟩
    · obtain ⟨-, hstep⟩ := Option.ite_none_right_eq_some.mp hstep
      rw [← Option.some_inj.mp hstep]
      exact ⟨hledger.of_broker { s.broker with closed := true } rfl _ _, hsteady.close order⟩
  | closeStep =>
    obtain ⟨names, hclosing, hs'⟩ := Option.bind_eq_some_iff.mp hstep
    exact closeStep_preserves hledger hsteady hclosing hguard hs'

/-- A broker as `main` starts it, in memory or on a log that holds the given messages. -/
inductive Fresh (c : Codec) : List Message → Broker → Prop
  | inMemory (now : ℤ) : Fresh c [] (Broker.newBroker none now)
  | onLog {dir : Directory} {msgs : List Message} (h : dir.Holds c msgs) (policy : FsyncPolicy)
      (now : ℤ) : Fresh c msgs (Broker.boot c dir policy now)

theorem invariants_start (h : Fresh c msgs b₀) :
    Recorded c b₀ msgs (start b₀) ∧ Ledger (start b₀) ∧ Steady (start b₀) := by
  have hb₀ : b₀.closed = false ∧ b₀.Accepts ∧ LogOf c b₀ none (msgs ++ []) := by
    rw [List.append_nil]
    cases h with
    | inMemory now =>
      exact ⟨rfl, Broker.accepts_newBroker _ _, fun w hw ↦ absurd hw (Option.some_ne_none _).symm⟩
    | onLog hdir policy now =>
      obtain ⟨hopen, haccepts, w, hw, hholds⟩ := Broker.keeps_boot hdir policy now
      refine ⟨hopen, haccepts, fun w' hw' ↦ ?_⟩
      rw [hw, Option.some_inj] at hw'
      subst hw'
      rw [if_pos rfl, Wal.Archives, hholds.1, if_neg Bool.false_ne_true]
      exact hholds
  obtain ⟨hopen, haccepts, hlog⟩ := hb₀
  have hnone : ∀ n task, ¬(start b₀).tasks n = some task :=
    fun _ _ hn ↦ Option.some_ne_none _ hn.symm
  have hnil : ∀ n result, (n, result) ∉ (start b₀).returned := fun _ _ ↦ List.not_mem_nil
  refine ⟨⟨fun _ _ hm ↦ Or.inl hm, hlog, fun n task hn ↦ absurd hn (hnone n task), fun _ ↦ rfl⟩,
    ⟨fun n _ hn ↦ absurd hn (hnil n _), fun n _ hn ↦ absurd hn (hnil n _),
      fun n task hn ↦ absurd hn (hnone n task), fun n _ hn ↦ absurd hn (hnil n _),
      fun _ _ ↦ ⟨rfl, List.not_mem_nil, List.not_mem_nil⟩⟩,
    ⟨fun n task hn ↦ absurd hn (hnone n task), fun _ ↦ haccepts, fun _ ↦ rfl,
      fun hclosed ↦ absurd (hopen.symm.trans hclosed) Bool.false_ne_true⟩⟩

/-- **In every run** the rings and the log hold what the lists say. -/
theorem recorded_of_run {labels : List PublishLabel} (hfresh : Fresh c msgs b₀)
    (hrun : Run (step c) (fun _ ↦ True) (start b₀) labels s) (hfits : ∀ l ∈ labels, Fits c l) :
    Recorded c b₀ msgs s :=
  hrun.invariant_of_guarded (fun _ _ _ hguard hstep h ↦ Recorded.step h hguard hstep)
    (Run.guarded_of_forall fun l hl _ ↦ hfits l hl) (invariants_start hfresh).1

theorem invariants_of_undisturbed {labels : List PublishLabel} (hfresh : Fresh c msgs b₀)
    (hrun : Run (step c) (fun _ ↦ True) (start b₀) labels s)
    (hguard : Run.Guarded (step c) (Undisturbed c) (start b₀) labels) :
    Recorded c b₀ msgs s ∧ Ledger s ∧ Steady s :=
  hrun.invariant_of_guarded (I := fun s ↦ Recorded c b₀ msgs s ∧ Ledger s ∧ Steady s)
    (fun _ _ _ hguard hstep h ↦ ⟨h.1.step hguard.1 hstep, step_preserves hguard hstep h.1 h.2⟩)
    hguard (invariants_start hfresh)

/-- **No trace.** Whatever calls are made and however their steps, the steps of `Close` and errors
of the log interleave: as long as no topic is closed under a call that is in progress on it, a
failed call leaves nothing behind, and any other call is in the log and in its ring. -/
theorem noTrace_of_undisturbed {labels : List PublishLabel} (hfresh : Fresh c msgs b₀)
    (hrun : Run (step c) (fun _ ↦ True) (start b₀) labels s)
    (hguard : Run.Guarded (step c) (Undisturbed c) (start b₀) labels) : NoTrace c b₀ msgs s := by
  obtain ⟨hrecorded, hledger, -⟩ := invariants_of_undisturbed hfresh hrun hguard
  exact ⟨hledger.failed, hledger.succeeded, hrecorded.rings, fun w hw ↦ hrecorded.replay_subset hw,
    fun herr w hw ↦ hrecorded.replay_perm herr hw⟩

/-! ### One message, and `Close` -/

deriving instance DecidableEq for Except

def Quiet (s : PublishSystem) : Prop := ∀ n, s.tasks n = none

private theorem guarded_of_quiet : ∀ {labels : List PublishLabel} {s : PublishSystem}, s.Quiet →
    (∀ l ∈ labels, l = .closeStep) → Run.Guarded (step c) (Undisturbed c) s labels := by
  intro labels
  induction labels with
  | nil => intro s _ _; trivial
  | cons l labels ih =>
    intro s hquiet hlabels
    obtain rfl := hlabels l List.mem_cons_self
    refine ⟨⟨trivial, ?_⟩, fun u hu ↦ ih ?_ fun l' hl' ↦ hlabels l' (List.mem_cons_of_mem _ hl')⟩
    · split
      · intro _ _ n task hn
        exact absurd ((hquiet n).symm.trans hn) (Option.some_ne_none _).symm
      · trivial
    · obtain ⟨names, -, hu⟩ := Option.bind_eq_some_iff.mp hu
      cases names with
      | nil => exact Option.some_inj.mp hu ▸ hquiet
      | cons name rest =>
        obtain ⟨t, -, rfl⟩ := Option.map_eq_some_iff.mp hu
        cases closeTopic t with
        | none => exact hquiet
        | some t' => exact hquiet

/-- The topic of the one message is closed, then the log. -/
def shutdown : List PublishLabel := List.replicate 5 .closeStep

/-- A message is published; the broker is closed; another message comes too late. -/
def orderly : List PublishLabel :=
  [.call (Broker.firstCall false), .log 0 none, .check 0, .push 0, .close [bytesOf "q"]]

def tooLate : List PublishLabel := [.call (Broker.secondCall false), .log 1 none]

theorem fresh_freshBroker : Fresh MessageJson.codec [] Broker.freshBroker :=
  Fresh.onLog (Directory.holds_empty _) .always 0

theorem fits_firstCall : Fits MessageJson.codec (.call (Broker.firstCall false)) :=
  (Broker.loggable_firstCall false).2.1

private theorem fits_secondCall : Fits MessageJson.codec (.call (Broker.secondCall false)) := by
  change (MessageJson.marshal (Broker.secondCall false).message).length < _
  decide +kernel

theorem noTrace_of_undisturbed_tooLate :
    ∃ s, Run (step MessageJson.codec) (fun _ ↦ True) (start Broker.freshBroker)
        (orderly ++ (shutdown ++ tooLate)) s ∧
      s.returned = [(0, .ok (Broker.firstCall false).message), (1, .error Wal.errClosed)] ∧
      NoTrace MessageJson.codec Broker.freshBroker [] s := by
  have hsome : (Run.exec (step MessageJson.codec) (fun _ ↦ True) (start Broker.freshBroker)
      (orderly ++ (shutdown ++ tooLate))).isSome := by decide +kernel
  have hall := Run.of_exec (Option.some_get hsome).symm
  obtain ⟨s₁, hrun, hrest⟩ := hall.exists_of_append
  obtain ⟨s₂, hclose, -⟩ := hrest.exists_of_append
  have horderly : Run.Guarded (step MessageJson.codec) (Undisturbed MessageJson.codec)
      (start Broker.freshBroker) orderly :=
    ⟨⟨fits_firstCall, trivial⟩, fun _ _ ↦ ⟨⟨trivial, trivial⟩, fun _ _ ↦ ⟨⟨trivial, trivial⟩,
      fun _ _ ↦ ⟨⟨trivial, trivial⟩, fun _ _ ↦ ⟨⟨trivial, trivial⟩, fun _ _ ↦ trivial⟩⟩⟩⟩⟩
  have hquiet : s₁.Quiet := by
    obtain ⟨-, hledger, -⟩ := invariants_of_undisturbed fresh_freshBroker hrun horderly
    have hfirst := hrun.of_exec_map (f := fun s ↦ ((s.tasks 0).isNone, s.calls)) (a := (true, 1))
      (by decide +kernel)
    intro n
    cases n with
    | zero => exact Option.isNone_iff_eq_none.mp (congrArg Prod.fst hfirst)
    | succ n =>
      refine (hledger.unborn (n + 1) ?_).1
      rw [show s₁.calls = 1 from congrArg Prod.snd hfirst]
      exact Nat.succ_pos n
  have htooLate : Run.Guarded (step MessageJson.codec) (Undisturbed MessageJson.codec) s₂
      tooLate :=
    ⟨⟨fits_secondCall, trivial⟩, fun _ _ ↦ ⟨⟨trivial, trivial⟩, fun _ _ ↦ trivial⟩⟩
  have hguard := Run.guarded_append hrun horderly (Run.guarded_append hclose
    (guarded_of_quiet hquiet fun l hl ↦ List.eq_of_mem_replicate hl) htooLate)
  exact ⟨_, hall, hall.of_exec_map (f := PublishSystem.returned) (by decide +kernel),
    noTrace_of_undisturbed fresh_freshBroker hall hguard⟩

/-- The broker is closed between the write to the log and the check of the topic. -/
def interrupted : List PublishLabel :=
  [.call (Broker.firstCall false), .log 0 none, .close [bytesOf "q"]] ++ shutdown ++ [.check 0]

/-- **A trace.** The message is in the log when `Close` closes its topic. The caller is told that it
was rejected, and the next start delivers it. -/
theorem rejected_message_recovered :
    ∃ s w, Run (step MessageJson.codec) (fun _ ↦ True) (start Broker.freshBroker) interrupted s ∧
      s.returned = [(0, .error Broker.errRejected)] ∧ s.broker.wal = some w ∧ w.closed = true ∧
      (replay MessageJson.codec w.dir).2 = [(Broker.firstCall false).message] ∧
      ¬NoTrace MessageJson.codec Broker.freshBroker [] s := by
  have hsome : (Run.exec (step MessageJson.codec) (fun _ ↦ True) (start Broker.freshBroker)
      interrupted).isSome := by decide +kernel
  have hrun := Run.of_exec (Option.some_get hsome).symm
  have hreturned := hrun.of_exec_map (f := PublishSystem.returned)
    (a := [(0, .error Broker.errRejected)]) (by decide +kernel)
  have hlogged := hrun.of_exec_map (f := PublishSystem.logged)
    (a := [(0, (Broker.firstCall false).message)]) (by decide +kernel)
  have herr := hrun.of_exec_map (f := PublishSystem.walErr) (a := none) (by decide +kernel)
  have hclosed := hrun.of_exec_map (f := fun s ↦ s.broker.wal.map Wal.closed) (a := some true)
    (by decide +kernel)
  obtain ⟨w, hw, hwclosed⟩ := Option.map_eq_some_iff.mp hclosed
  have hfits : ∀ l ∈ interrupted, Fits MessageJson.codec l := by
    simpa [interrupted, shutdown, Fits] using fits_firstCall
  have hperm := (recorded_of_run fresh_freshBroker hrun hfits).replay_perm herr hw
  have hportable : (Broker.firstCall false).message.Portable :=
    Message.portable_newMessage (utf8_bytesOf _) (Broker.firstCall false).st.inRange _ _ _
  have hdelivered : delivered MessageJson.codec
      (opPublish, MessageJson.codec.marshal (Broker.firstCall false).message)
      = some (Broker.firstCall false).message :=
    Entry.delivered_eq MessageJson.codec (e := .publish (Broker.firstCall false).message) hportable
  rw [readings, hlogged, List.nil_append, filterMap_reading, hdelivered, Wal.close,
    if_pos hwclosed] at hperm
  refine ⟨_, w, hrun, hreturned, hw, hwclosed, List.perm_singleton.mp hperm, fun h ↦ ?_⟩
  refine (h.failed 0 Broker.errRejected ?_).2 ?_
  · rw [hreturned]
    exact List.mem_singleton_self _
  · rw [hlogged]
    exact List.mem_singleton_self _

end PublishSystem

end VortexMQ
