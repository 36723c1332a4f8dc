import VortexMQ.Basic.RWMutex
import VortexMQ.Basic.Run
import VortexMQ.Queue.DeadLetter

/-!
# The lock of the dead letter queue

Any number of goroutines call the operations of `internal/queue/dlq.go`. An operation takes the
lock, does its work, and releases the lock by a deferred call, which is also made if the work
panics. `Get` is written differently: it begins with a release. Either that is fatal, or it is the
release of somebody else who is still reading, and then a writer can come in.
-/

namespace VortexMQ

/-- The operations of the queue that take the lock. -/
inductive DlqOp where
  | add (msg : Message) (cause : Bytes) (now : ℤ)
  | get (id : Bytes)
  | list (offset limit : ℤ)
  | remove (id : Bytes)
  | len
  | purge

namespace DlqOp

/-- Those that change the queue. -/
def mutates : DlqOp → Bool
  | .add _ _ _ | .remove _ | .purge => true
  | .get _ | .list _ _ | .len => false

def enter (mu : RWMutex) : DlqOp → Ending FatalUnlock RWMutex
  | .add _ _ _ | .remove _ | .purge => mu.lock
  | .list _ _ | .len => mu.rLock
  -- not `RLock`
  | .get _ => mu.rUnlock

def leave (mu : RWMutex) : DlqOp → Ending FatalUnlock RWMutex
  | .add _ _ _ | .remove _ | .purge => mu.unlock
  | .get _ | .list _ _ | .len => mu.rUnlock

/-- What is in between, as far as the queue is concerned. -/
def work (dlq : DeadLetterQueue) : DlqOp → DeadLetterQueue
  | .add msg cause now => dlq.add msg cause now
  | .remove id => (dlq.remove id).elim dlq Prod.snd
  | .purge => dlq.purge.2
  | .get _ | .list _ _ | .len => dlq

def isGet : DlqOp → Bool
  | .get _ => true
  | _ => false

/-- Apart from `Get`, who changes the queue takes the lock for writing, and who does not takes it
for reading. -/
theorem enter_eq (mu : RWMutex) {op : DlqOp} (h : op.isGet = false) :
    op.enter mu = if op.mutates then mu.lock else mu.rLock := by
  cases op with
  | get id => exact absurd h.symm Bool.false_ne_true
  | add msg cause now => rfl
  | list offset limit => rfl
  | remove id => rfl
  | len => rfl
  | purge => rfl

private theorem leave_eq (mu : RWMutex) (op : DlqOp) :
    op.leave mu = if op.mutates then mu.unlock else mu.rUnlock := by
  cases op <;> rfl

end DlqOp

/-- How far a call has come. -/
inductive DlqStage where
  | called
  | entered
  | worked

/-- A process: the queue, its lock, and the calls that are in progress. -/
structure DlqProcess where
  dlq : DeadLetterQueue
  mu : RWMutex
  goroutines : ℕ → Option (DlqOp × DlqStage)
  fatal : Option FatalUnlock

namespace DlqProcess

inductive Label where
  | call (n : ℕ) (op : DlqOp)
  /-- The goroutine takes its next step. -/
  | advance (n : ℕ)

/-- A new queue. -/
def start (maxSize : ℤ) : DlqProcess where
  dlq := .newDeadLetterQueue maxSize
  mu := .free
  goroutines _ := none
  fatal := none

def proceed (s : DlqProcess) (n : ℕ) (next : Option (DlqOp × DlqStage)) :
    Ending FatalUnlock RWMutex → Option DlqProcess
  | .ok mu => some { s with mu := mu, goroutines := Function.update s.goroutines n next }
  | .wait => none
  | .fault e => some { s with fatal := some e }

/-- A goroutine calls an operation, or takes the next step of the one it is in. -/
def act (s : DlqProcess) : Label → Option DlqProcess
  | .call n op =>
      match s.goroutines n with
      | none => some { s with goroutines := Function.update s.goroutines n (some (op, .called)) }
      | some _ => none
  | .advance n =>
      match s.goroutines n with
      | none => none
      | some (op, .called) => s.proceed n (some (op, .entered)) (op.enter s.mu)
      | some (op, .entered) =>
          some { s with
            dlq := op.work s.dlq
            goroutines := Function.update s.goroutines n (some (op, .worked)) }
      | some (op, .worked) => s.proceed n none (op.leave s.mu)

/-- After a fatal error there is no process. -/
def step (s : DlqProcess) (l : Label) : Option DlqProcess :=
  if s.fatal.isSome then none else s.act l

def sectionOf : Option (DlqOp × DlqStage) → Option DlqOp
  | some (op, .entered) | some (op, .worked) => some op
  | _ => none

def inSection (s : DlqProcess) (n : ℕ) : Option DlqOp := sectionOf (s.goroutines n)

/-- The set has those who are in a section that mutates, or in one that does not. -/
def InMode (goroutines : ℕ → Option (DlqOp × DlqStage)) (mutates : Bool) (S : Finset ℕ) : Prop :=
  ∀ n, n ∈ S ↔ (sectionOf (goroutines n)).map DlqOp.mutates = some mutates

/-- The lock is held by those who are in a section, for writing or for reading. -/
structure Respected (s : DlqProcess) : Prop where
  fatal : s.fatal = none
  held : ∃ R W : Finset ℕ, s.mu.Held R W ∧ InMode s.goroutines false R ∧ InMode s.goroutines true W
  noGet : ∀ n op stage, s.goroutines n = some (op, stage) → op.isGet = false

private theorem respected_start (maxSize : ℤ) : (start maxSize).Respected where
  fatal := rfl
  held := ⟨∅, ∅, RWMutex.held_free, fun n ↦ iff_of_false (Finset.notMem_empty n) nofun,
    fun n ↦ iff_of_false (Finset.notMem_empty n) nofun⟩
  noGet := nofun

/-! ## One step -/

section

variable {goroutines : ℕ → Option (DlqOp × DlqStage)} {n : ℕ} {next : Option (DlqOp × DlqStage)}
  {b : Bool} {S : Finset ℕ}

theorem InMode.update {S' : Finset ℕ} (h : InMode goroutines b S)
    (hself : n ∈ S' ↔ (sectionOf next).map DlqOp.mutates = some b)
    (hother : ∀ m ≠ n, m ∈ S' ↔ m ∈ S) : InMode (Function.update goroutines n next) b S' := by
  intro m
  by_cases hm : m = n
  · subst hm
    rw [Function.update_self]
    exact hself
  · rw [Function.update_of_ne hm, hother m hm]
    exact h m

theorem InMode.update_insert (h : InMode goroutines b S)
    (hnext : (sectionOf next).map DlqOp.mutates = some b) :
    InMode (Function.update goroutines n next) b (insert n S) := by
  refine h.update (iff_of_true (Finset.mem_insert_self n S) hnext) fun m hm ↦ ?_
  rw [Finset.mem_insert, or_iff_right hm]

theorem InMode.update_erase (h : InMode goroutines b S)
    (hnext : (sectionOf next).map DlqOp.mutates ≠ some b) :
    InMode (Function.update goroutines n next) b (S.erase n) := by
  refine h.update (iff_of_false (Finset.notMem_erase n S) hnext) fun m hm ↦ ?_
  rw [Finset.mem_erase, and_iff_right hm]

theorem InMode.update_same (h : InMode goroutines b S)
    (hnext : (sectionOf next).map DlqOp.mutates = some b ↔
      (sectionOf (goroutines n)).map DlqOp.mutates = some b) :
    InMode (Function.update goroutines n next) b S :=
  h.update ((h n).trans hnext.symm) fun _ _ ↦ Iff.rfl

end

section

variable {s t : DlqProcess} {n : ℕ} {op : DlqOp}

theorem Respected.of_update {next : Option (DlqOp × DlqStage)} {dlq : DeadLetterQueue}
    {mu : RWMutex} (h : s.Respected) (hop : ∀ op stage, next = some (op, stage) → op.isGet = false)
    (hheld : ∃ R W : Finset ℕ, mu.Held R W ∧
      InMode (Function.update s.goroutines n next) false R ∧
      InMode (Function.update s.goroutines n next) true W) :
    Respected ⟨dlq, mu, Function.update s.goroutines n next, s.fatal⟩ := by
  refine ⟨h.fatal, hheld, fun m op stage hm ↦ ?_⟩
  change Function.update s.goroutines n next m = some (op, stage) at hm
  by_cases hmn : m = n
  · subst hmn
    rw [Function.update_self] at hm
    exact hop op stage hm
  · rw [Function.update_of_ne hmn] at hm
    exact h.noGet m op stage hm

/-- The goroutine stays where it is, as far as the lock is concerned. -/
theorem Respected.quiet {stage : DlqStage} {dlq : DeadLetterQueue} (h : s.Respected)
    (hop : op.isGet = false) (hsame : sectionOf (some (op, stage)) = sectionOf (s.goroutines n)) :
    Respected ⟨dlq, s.mu, Function.update s.goroutines n (some (op, stage)), s.fatal⟩ := by
  obtain ⟨R, W, hheld, hR, hW⟩ := h.held
  refine h.of_update (fun op' stage' hnext ↦ ?_) ⟨R, W, hheld, ?_, ?_⟩
  · obtain ⟨rfl, rfl⟩ := Prod.mk.inj (Option.some_inj.mp hnext)
    exact hop
  · exact hR.update_same (by rw [hsame])
  · exact hW.update_same (by rw [hsame])

theorem Respected.enter (h : s.Respected) (hn : s.goroutines n = some (op, .called))
    (hstep : s.proceed n (some (op, .entered)) (op.enter s.mu) = some t) : t.Respected := by
  obtain ⟨R, W, hheld, hR, hW⟩ := h.held
  have hget := h.noGet n op .called hn
  have hnext : ∀ op' stage, some (op, DlqStage.entered) = some (op', stage) →
      op'.isGet = false := by
    intro op' stage heq
    obtain ⟨rfl, -⟩ := Prod.mk.inj (Option.some_inj.mp heq)
    exact hget
  have hout : ∀ b, (sectionOf (s.goroutines n)).map DlqOp.mutates ≠ some b := by
    intro b
    rw [hn]
    exact nofun
  -- Everything but `Get` takes the lock in the mode that it needs, which may wait but is not fatal.
  rw [DlqOp.enter_eq s.mu hget] at hstep
  cases hmut : op.mutates with
  | true =>
    rw [hmut, if_pos rfl] at hstep
    cases hlock : s.mu.lock with
    | ok mu =>
      rw [hlock] at hstep
      obtain rfl := Option.some_inj.mp hstep
      refine h.of_update hnext ⟨R, insert n W, hheld.lock hlock n, ?_,
        hW.update_insert (congrArg some hmut)⟩
      exact hR.update_same (iff_of_false (by simp [sectionOf, hmut]) (hout false))
    | wait => rw [hlock] at hstep; cases hstep
    | fault e => rw [RWMutex.lock] at hlock; split at hlock <;> cases hlock
  | false =>
    rw [hmut, if_neg Bool.false_ne_true] at hstep
    cases hlock : s.mu.rLock with
    | ok mu =>
      rw [hlock] at hstep
      obtain rfl := Option.some_inj.mp hstep
      refine h.of_update hnext ⟨insert n R, W,
        hheld.rLock (fun hmem ↦ hout false ((hR n).mp hmem)) hlock,
        hR.update_insert (congrArg some hmut), ?_⟩
      exact hW.update_same (iff_of_false (by simp [sectionOf, hmut]) (hout true))
    | wait => rw [hlock] at hstep; cases hstep
    | fault e => rw [RWMutex.rLock] at hlock; split at hlock <;> cases hlock

/-- A goroutine leaves its section, and the release is one of what it holds. -/
theorem Respected.leave (h : s.Respected) (hn : s.goroutines n = some (op, .worked))
    (hstep : s.proceed n none (op.leave s.mu) = some t) : t.Respected := by
  obtain ⟨R, W, hheld, hR, hW⟩ := h.held
  have hin : (sectionOf (s.goroutines n)).map DlqOp.mutates = some op.mutates := by
    rw [hn]
    rfl
  rw [DlqOp.leave_eq] at hstep
  cases hmut : op.mutates with
  | true =>
    rw [hmut] at hin
    obtain ⟨mu, hunlock, hheld'⟩ := hheld.unlock ((hW n).mpr hin)
    rw [hmut, if_pos rfl, hunlock] at hstep
    obtain rfl := Option.some_inj.mp hstep
    refine h.of_update nofun ⟨R, W.erase n, hheld', ?_, hW.update_erase nofun⟩
    exact hR.update_same (iff_of_false nofun (by rw [hin]; exact nofun))
  | false =>
    rw [hmut] at hin
    obtain ⟨mu, hunlock, hheld'⟩ := hheld.rUnlock ((hR n).mpr hin)
    rw [hmut, if_neg Bool.false_ne_true, hunlock] at hstep
    obtain rfl := Option.some_inj.mp hstep
    refine h.of_update nofun ⟨R.erase n, W, hheld', hR.update_erase nofun, ?_⟩
    exact hW.update_same (iff_of_false nofun (by rw [hin]; exact nofun))

/-- Nobody calls `Get`. -/
def NoGet : Label → Prop
  | .call _ op => op.isGet = false
  | .advance _ => True

theorem Respected.step {l : Label} (hl : NoGet l) (hstep : s.step l = some t)
    (h : s.Respected) : t.Respected := by
  have hact : s.act l = some t := by
    rwa [DlqProcess.step, h.fatal, Option.isSome_none, if_neg Bool.false_ne_true] at hstep
  cases l with
  | call n op =>
    cases hn : s.goroutines n with
    | none =>
      simp only [act, hn, Option.some_inj] at hact
      subst hact
      exact h.quiet hl (by rw [hn]; rfl)
    | some task => simp only [act, hn] at hact; cases hact
  | advance n =>
    cases hn : s.goroutines n with
    | none => simp only [act, hn] at hact; cases hact
    | some task =>
      obtain ⟨op, stage⟩ := task
      cases stage with
      | called =>
        simp only [act, hn] at hact
        exact h.enter hn hact
      | entered =>
        simp only [act, hn, Option.some_inj] at hact
        subst hact
        exact h.quiet (h.noGet n op .entered hn) (by rw [hn]; rfl)
      | worked =>
        simp only [act, hn] at hact
        exact h.leave hn hact

end

/-! ## Runs -/

/-- What the lock is for. -/
structure Safe (s : DlqProcess) : Prop where
  no_fatal : s.fatal = none
  /-- Who changes the queue is alone. -/
  alone : ∀ n m op op', s.inSection n = some op → op.mutates = true → s.inSection m = some op' →
    m = n
  free : (∀ n, s.goroutines n = none) → s.mu = .free

theorem Respected.safe {s : DlqProcess} (h : s.Respected) : s.Safe := by
  obtain ⟨R, W, hheld, hR, hW⟩ := h.held
  refine ⟨h.fatal, ?_, ?_⟩
  · intro n m op op' hn hmut hm
    have hnW : n ∈ W := (hW n).mpr (by rw [← inSection, hn]; exact congrArg some hmut)
    cases hmut' : op'.mutates with
    | true =>
      exact hheld.eq_of_mem hnW ((hW m).mpr (by rw [← inSection, hm]; exact congrArg some hmut'))
    | false =>
      have hmR : m ∈ R := (hR m).mpr (by rw [← inSection, hm]; exact congrArg some hmut')
      exact absurd hmR (hheld.notMem_of_mem hnW)
  · intro hidle
    have hempty : ∀ {b : Bool} {S : Finset ℕ}, InMode s.goroutines b S → S = ∅ := by
      intro b S hS
      refine Finset.eq_empty_of_forall_notMem fun n hn ↦ ?_
      have hsome := (hS n).mp hn
      rw [hidle n] at hsome
      cases hsome
    rw [hempty hR, hempty hW] at hheld
    exact hheld.eq_free

/-- **The lock of the dead letter queue.** As long as nobody calls `Get`, no release is fatal, who
changes the queue is alone with it, and the lock is free when no call is in progress. -/
theorem safe_of_noGet (maxSize : ℤ) (ls : List Label) (s : DlqProcess)
    (hrun : Run step (fun _ ↦ True) (start maxSize) ls s) (hnoGet : ∀ l ∈ ls, NoGet l) :
    s.Safe := by
  have hguarded : Run.Guarded step (fun _ l ↦ NoGet l) (start maxSize) ls :=
    Run.guarded_of_forall fun l hl _ ↦ hnoGet l hl
  have hrespected : s.Respected := hrun.invariant_of_guarded
    (fun _ _ _ hl hstep h ↦ Respected.step hl hstep h) hguarded (respected_start maxSize)
  exact hrespected.safe

/-- A reader waits for a writer, and they are done one after the other. -/
theorem safe_of_noGet_two :
    ∃ s, Run step (fun _ ↦ True) (start 2)
        [.call 0 (.add (Message.newMessage [] none 0 1 []) [] 0), .advance 0, .call 1 .len,
          .advance 0, .advance 0, .advance 1] s ∧
      s.mu = ⟨false, 1⟩ ∧ s.Safe := by
  have hsome : (Run.exec step (fun _ ↦ True) (start 2)
      [.call 0 (.add (Message.newMessage [] none 0 1 []) [] 0), .advance 0, .call 1 .len,
        .advance 0, .advance 0, .advance 1]).isSome := by decide +kernel
  have hrun := Run.of_exec (Option.some_get hsome).symm
  refine ⟨_, hrun, hrun.of_exec_map (f := mu) (by decide +kernel), safe_of_noGet 2 _ _ hrun ?_⟩
  simp [NoGet, DlqOp.isGet]

/-- `Get` on a queue that nobody else uses is fatal. While somebody is in `List`, it releases their
lock, and `Add` comes in beside them. -/
theorem get_breaks_lock :
    (∃ s, Run step (fun _ ↦ True) (start 2) [.call 0 (.get []), .advance 0] s ∧
      s.fatal = some .rUnlock) ∧
    ∃ s, Run step (fun _ ↦ True) (start 2)
        [.call 0 (.list 0 1), .advance 0, .call 1 (.get []), .advance 1,
          .call 2 (.add (Message.newMessage [] none 0 1 []) [] 0), .advance 2] s ∧
      s.fatal = none ∧
      (s.inSection 0).map DlqOp.mutates = some false ∧
      (s.inSection 2).map DlqOp.mutates = some true := by
  constructor
  · have hsome : (Run.exec step (fun _ ↦ True) (start 2)
        [.call 0 (.get []), .advance 0]).isSome := by decide +kernel
    have hrun := Run.of_exec (Option.some_get hsome).symm
    exact ⟨_, hrun, hrun.of_exec_map (f := fatal) (by decide +kernel)⟩
  · have hsome : (Run.exec step (fun _ ↦ True) (start 2)
        [.call 0 (.list 0 1), .advance 0, .call 1 (.get []), .advance 1,
          .call 2 (.add (Message.newMessage [] none 0 1 []) [] 0), .advance 2]).isSome := by
      decide +kernel
    have hrun := Run.of_exec (Option.some_get hsome).symm
    refine ⟨_, hrun, hrun.of_exec_map (f := fatal) (by decide +kernel), ?_, ?_⟩
    · exact hrun.of_exec_map (f := fun s ↦ (s.inSection 0).map DlqOp.mutates)
        (a := some false) (by decide +kernel)
    · exact hrun.of_exec_map (f := fun s ↦ (s.inSection 2).map DlqOp.mutates)
        (a := some true) (by decide +kernel)

end DlqProcess

end VortexMQ
