import VortexMQ.Basic.RWMutex
import VortexMQ.Basic.Run

/-!
# Goroutines that take locks in order

A goroutine is seen here only through what it does with locks: it acquires and releases them, in
one of two modes, and from time to time it goes to sleep until somebody wakes it. Locks are those of
the `sync` package. Acquiring for writing has two parts. First the writer is announced, which keeps
new readers out; then it waits for the readers that are there to leave. So a goroutine that wants to
read can be kept waiting by one that does not have the lock yet.

## The discipline

Locks have ranks. A goroutine acquires a lock only if all locks that it holds have smaller ranks,
releases only what it holds, sleeps and ends only with empty hands. This is `Orderly`, a property of
what the goroutine holds and of what it is still going to do. Programs are put together from
critical sections, and `Nested` is what a piece of a program has to satisfy for that.

## What follows

No release is fatal, and a writer is alone. If a goroutine waits for a lock, then somebody holds the
lock, or is announced and waits for somebody who holds it. The holder is not asleep, and the next
lock it wants, if any, has a larger rank. Ranks do not grow forever, so somebody can go on. Since
programs are finite, the system can always be driven to a state in which everybody has come to the
end or sleeps, and then all locks are free.
-/

namespace VortexMQ

inductive LockMode where
  | read
  | write
  deriving DecidableEq

/-- What a goroutine does next. -/
inductive LockAction (ι : Type*) where
  | acquire (mode : LockMode) (lock : ι)
  | release (mode : LockMode) (lock : ι)
  /-- It waits until it is woken. -/
  | sleep
  deriving DecidableEq

/-- A lock, and whether a writer is announced. -/
structure Latch where
  mu : RWMutex
  announced : Bool
  deriving DecidableEq

namespace Latch

def free : Latch := ⟨.free, false⟩

/-- A reader is kept out by a writer and by the announcement of one. -/
def rLock (l : Latch) : Ending FatalUnlock Latch :=
  if l.announced then .wait else do
    let mu ← l.mu.rLock
    return { l with mu := mu }

/-- The first part of acquiring for writing, which only one goroutine at a time gets through. -/
def announce (l : Latch) : Ending FatalUnlock Latch :=
  if l.announced ∨ l.mu.writer then .wait else .ok { l with announced := true }

def lock (l : Latch) : Ending FatalUnlock Latch := do
  let mu ← l.mu.lock
  return ⟨mu, false⟩

def release (l : Latch) : LockMode → Ending FatalUnlock Latch
  | .read => do
      let mu ← l.mu.rUnlock
      return { l with mu := mu }
  | .write => do
      let mu ← l.mu.unlock
      return { l with mu := mu }

variable {l : Latch} {e : FatalUnlock}

theorem rLock_ne_fault : l.rLock ≠ .fault e := by
  rw [rLock, RWMutex.rLock]
  split
  · rintro ⟨⟩
  · split <;> rintro ⟨⟩

theorem announce_ne_fault : l.announce ≠ .fault e := by
  rw [announce]
  split <;> rintro ⟨⟩

theorem lock_ne_fault : l.lock ≠ .fault e := by
  rw [lock, RWMutex.lock]
  split <;> rintro ⟨⟩

end Latch

/-- A goroutine: what it holds, whether it is announced as the next writer of the lock that it is
about to acquire, and what it is going to do. The locks do not know who holds them. -/
structure Goroutine (ι : Type*) where
  held : List (ι × LockMode)
  announced : Bool
  todo : List (LockAction ι)

/-- Locks and goroutines; those from `spawned` on have not been started. -/
structure LockSystem (ι : Type*) where
  locks : ι → Latch
  goroutines : ℕ → Goroutine ι
  spawned : ℕ
  fatal : Option FatalUnlock

namespace LockSystem

variable {ι : Type*} [DecidableEq ι]

inductive Label (ι : Type*) where
  /-- A goroutine is started. -/
  | spawn (todo : List (LockAction ι))
  /-- A goroutine goes on. -/
  | step (n : ℕ)
  /-- A goroutine that sleeps is woken. -/
  | wake (n : ℕ)

/-- No goroutine has been started. -/
def start : LockSystem ι := ⟨fun _ ↦ .free, fun _ ↦ ⟨[], false, []⟩, 0, none⟩

def proceed (s : LockSystem ι) (n : ℕ) (lock : ι) (g : Goroutine ι) :
    Ending FatalUnlock Latch → Option (LockSystem ι)
  | .ok l => some { s with
      locks := Function.update s.locks lock l
      goroutines := Function.update s.goroutines n g }
  | .wait => none
  | .fault e => some { s with fatal := some e }

/-- The next step of a goroutine. -/
def go (s : LockSystem ι) (n : ℕ) : Option (LockSystem ι) :=
  let g := s.goroutines n
  match g.todo with
  | [] | .sleep :: _ => none
  | .acquire .read lock :: rest =>
      s.proceed n lock ⟨(lock, .read) :: g.held, false, rest⟩ (s.locks lock).rLock
  | .acquire .write lock :: rest =>
      if g.announced then
        s.proceed n lock ⟨(lock, .write) :: g.held, false, rest⟩ (s.locks lock).lock
      else s.proceed n lock { g with announced := true } (s.locks lock).announce
  | .release mode lock :: rest =>
      s.proceed n lock ⟨g.held.erase (lock, mode), false, rest⟩ ((s.locks lock).release mode)

/-- A goroutine that sleeps is woken. -/
def rouse (s : LockSystem ι) (n : ℕ) : Option (LockSystem ι) :=
  let g := s.goroutines n
  match g.todo with
  | .sleep :: rest => some { s with
      goroutines := Function.update s.goroutines n { g with todo := rest } }
  | _ => none

/-- After a fatal error nothing happens any more. -/
def step (s : LockSystem ι) (l : Label ι) : Option (LockSystem ι) :=
  if s.fatal.isSome then none
  else match l with
    | .spawn todo => some { s with
        goroutines := Function.update s.goroutines s.spawned ⟨[], false, todo⟩
        spawned := s.spawned + 1 }
    | .step n => s.go n
    | .wake n => s.rouse n

/-- The goroutine has come to its end, or sleeps. -/
def Resting (g : Goroutine ι) : Prop := g.todo = [] ∨ ∃ rest, g.todo = .sleep :: rest

end LockSystem

/-! ## The discipline -/

section Discipline

variable {ι : Type*} [DecidableEq ι] (rank : ι → ℕ)

def Orderly : List (ι × LockMode) → List (LockAction ι) → Prop
  | held, [] => held = []
  | held, .acquire mode lock :: rest =>
      (∀ h ∈ held, rank h.1 < rank lock) ∧ Orderly ((lock, mode) :: held) rest
  | held, .release mode lock :: rest =>
      (lock, mode) ∈ held ∧ Orderly (held.erase (lock, mode)) rest
  | held, .sleep :: rest => held = [] ∧ Orderly held rest

/-- A piece of a program that can stand anywhere where no lock of rank `r` or more is held. -/
def Nested (r : ℕ) (acts : List (LockAction ι)) : Prop :=
  ∀ (held : List (ι × LockMode)) (rest : List (LockAction ι)), (∀ h ∈ held, rank h.1 < r) →
    Orderly rank held rest → Orderly rank held (acts ++ rest)

/-- A critical section. -/
def critical (mode : LockMode) (lock : ι) (body : List (LockAction ι)) : List (LockAction ι) :=
  .acquire mode lock :: (body ++ [.release mode lock])

variable {rank} {r : ℕ} {acts acts' : List (LockAction ι)}

theorem nested_nil : Nested rank r [] := fun _ _ _ h ↦ h

theorem Nested.append (h : Nested rank r acts) (h' : Nested rank r acts') :
    Nested rank r (acts ++ acts') := by
  intro held rest hheld hrest
  rw [List.append_assoc]
  exact h held _ hheld (h' held rest hheld hrest)

theorem Nested.mono {r' : ℕ} (h : Nested rank r acts) (hle : r' ≤ r) :
    Nested rank r' acts :=
  fun held rest hheld hrest ↦ h held rest (fun x hx ↦ (hheld x hx).trans_le hle) hrest

theorem nested_flatMap {α : Type*} {f : α → List (LockAction ι)} :
    ∀ {xs : List α}, (∀ x ∈ xs, Nested rank r (f x)) → Nested rank r (xs.flatMap f) := by
  intro xs
  induction xs with
  | nil => exact fun _ ↦ nested_nil
  | cons x xs ih =>
    intro h
    rw [List.flatMap_cons]
    exact (h x List.mem_cons_self).append (ih fun y hy ↦ h y (List.mem_cons_of_mem x hy))

theorem nested_replicate (h : Nested rank r acts) (n : ℕ) :
    Nested rank r (List.replicate n acts).flatten := by
  rw [← List.flatMap_id]
  exact nested_flatMap fun x hx ↦ List.eq_of_mem_replicate hx ▸ h

theorem nested_ite {c : Prop} [Decidable c] (h : Nested rank r acts) (h' : Nested rank r acts') :
    Nested rank r (if c then acts else acts') := by
  split
  · exact h
  · exact h'

/-- **A critical section** is in order if its lock is larger than what may be held outside, and what
is done inside is in order behind the lock. -/
theorem nested_critical {mode : LockMode} {lock : ι} {body : List (LockAction ι)}
    (hle : r ≤ rank lock) (hbody : Nested rank (rank lock + 1) body) :
    Nested rank r (critical mode lock body) := by
  intro held rest hheld hrest
  rw [critical, List.cons_append, List.append_assoc]
  refine ⟨fun h hh ↦ (hheld h hh).trans_le hle, ?_⟩
  refine hbody _ _ (fun h hh ↦ ?_) ⟨List.mem_cons_self, ?_⟩
  · rcases List.mem_cons.mp hh with rfl | hh
    · exact Nat.lt_succ_self _
    · exact ((hheld h hh).trans_le hle).trans (Nat.lt_succ_self _)
  · rw [List.erase_cons_head]
    exact hrest

theorem nested_brief {mode : LockMode} {lock : ι} (hle : r ≤ rank lock) :
    Nested rank r (critical mode lock []) :=
  nested_critical hle nested_nil

theorem nested_sleep : Nested rank 0 [.sleep] := by
  intro held rest hheld hrest
  have hnil : held = [] := List.eq_nil_iff_forall_not_mem.mpr fun h hh ↦
    absurd (hheld h hh) (Nat.not_lt_zero _)
  exact ⟨hnil, hrest⟩

theorem Nested.orderly (h : Nested rank 0 acts) : Orderly rank [] acts := by
  have horderly := h [] [] (fun _ hh ↦ absurd hh List.not_mem_nil) rfl
  rwa [List.append_nil] at horderly

end Discipline

/-! ## Who holds a lock -/

namespace Latch

variable {l l' : Latch} {R W A : Finset ℕ} {n : ℕ}

/-- The readers are `R`, and the writers and the announced writers, one at most of both kinds, are
`W` and `A`. -/
structure Held (l : Latch) (R W A : Finset ℕ) : Prop where
  mu : l.mu.Held R W
  announced_eq : A.card = l.announced.toNat
  apart : l.announced = true → l.mu.writer = false

theorem held_free : free.Held ∅ ∅ ∅ := ⟨RWMutex.held_free, rfl, fun _ ↦ rfl⟩

namespace Held

theorem announced_of_mem (h : l.Held R W A) (hn : n ∈ A) : l.announced = true := by
  have hcard := h.announced_eq
  cases hannounced : l.announced with
  | true => rfl
  | false =>
    rw [hannounced, Bool.toNat_false, Finset.card_eq_zero] at hcard
    exact absurd hn (hcard ▸ Finset.notMem_empty n)

theorem exists_of_announced (h : l.Held R W A) (hannounced : l.announced = true) :
    ∃ n, n ∈ A := by
  have hcard := h.announced_eq
  rw [hannounced] at hcard
  exact Finset.card_pos.mp (hcard ▸ Nat.one_pos)

theorem rLock (h : l.Held R W A) (hn : n ∉ R) (hlock : l.rLock = .ok l') :
    l'.Held (insert n R) W A := by
  rw [Latch.rLock] at hlock
  split at hlock
  · cases hlock
  · rename_i hannounced
    obtain ⟨mu, hmu, hl'⟩ := Ending.bind_eq_ok.mp hlock
    obtain rfl := Ending.ok.inj hl'
    exact ⟨h.mu.rLock hn hmu, h.announced_eq, fun ha ↦ absurd ha hannounced⟩

theorem announce (h : l.Held R W A) (hlock : l.announce = .ok l') (n : ℕ) :
    l'.Held R W (insert n A) := by
  rw [Latch.announce] at hlock
  split at hlock
  · cases hlock
  · rename_i hfree
    obtain ⟨hannounced, hwriter⟩ := not_or.mp hfree
    obtain rfl := Ending.ok.inj hlock
    have hcard := h.announced_eq
    rw [Bool.eq_false_of_not_eq_true hannounced, Bool.toNat_false, Finset.card_eq_zero] at hcard
    subst hcard
    exact ⟨h.mu, rfl, fun _ ↦ Bool.eq_false_of_not_eq_true hwriter⟩

theorem lock (h : l.Held R W A) (hn : n ∈ A) (hlock : l.lock = .ok l') :
    l'.Held R (insert n W) (A.erase n) := by
  obtain ⟨mu, hmu, hl'⟩ := Ending.bind_eq_ok.mp hlock
  obtain rfl := Ending.ok.inj hl'
  refine ⟨h.mu.lock hmu n, ?_, nofun⟩
  rw [Finset.card_erase_of_mem hn, h.announced_eq, h.announced_of_mem hn]
  rfl

theorem releaseRead (h : l.Held R W A) (hn : n ∈ R) :
    ∃ l', l.release .read = .ok l' ∧ l'.Held (R.erase n) W A := by
  obtain ⟨mu, hmu, hheld⟩ := h.mu.rUnlock hn
  have hwriter : mu.writer = l.mu.writer := by
    rw [RWMutex.rUnlock] at hmu
    split at hmu
    · cases hmu
    · obtain rfl := Ending.ok.inj hmu
      rfl
  refine ⟨{ l with mu := mu }, ?_, hheld, h.announced_eq, fun ha ↦ hwriter.trans (h.apart ha)⟩
  rw [Latch.release, hmu]
  rfl

theorem releaseWrite (h : l.Held R W A) (hn : n ∈ W) :
    ∃ l', l.release .write = .ok l' ∧ l'.Held R (W.erase n) A := by
  obtain ⟨mu, hmu, hheld⟩ := h.mu.unlock hn
  refine ⟨{ l with mu := mu }, ?_, hheld, h.announced_eq, fun ha ↦ ?_⟩
  · rw [Latch.release, hmu]
    rfl
  · exact absurd ((h.apart ha).symm.trans (h.mu.writer_of_mem hn)) Bool.false_ne_true

end Held

end Latch

/-! ## The invariant -/

namespace LockSystem

variable {ι : Type*} {rank : ι → ℕ} {n m : ℕ} {lock : ι}

/-- The goroutine is announced as the next writer of the lock. -/
def Announces (g : Goroutine ι) (lock : ι) : Prop :=
  g.announced = true ∧ ∃ rest, g.todo = .acquire .write lock :: rest

/-- The sets are those of the goroutines that read, write, and are announced. -/
structure Claimed (goroutines : ℕ → Goroutine ι) (lock : ι) (R W A : Finset ℕ) : Prop where
  reads : ∀ n, n ∈ R ↔ (lock, .read) ∈ (goroutines n).held
  writes : ∀ n, n ∈ W ↔ (lock, .write) ∈ (goroutines n).held
  announces : ∀ n, n ∈ A ↔ Announces (goroutines n) lock

theorem not_announces {held : List (ι × LockMode)} {rest : List (LockAction ι)} :
    ¬Announces ⟨held, false, rest⟩ lock := fun h ↦ Bool.false_ne_true h.1

theorem Announces.lock_eq {g : Goroutine ι} {lock' : ι} {rest : List (LockAction ι)}
    (h : Announces g lock') (htodo : g.todo = .acquire .write lock :: rest) : lock' = lock := by
  obtain ⟨-, rest', hrest'⟩ := h
  rw [htodo] at hrest'
  obtain ⟨heq, -⟩ := List.cons.inj hrest'
  exact (LockAction.acquire.inj heq).2.symm

def Wants (g : Goroutine ι) (lock : ι) : Prop := ∃ mode rest, g.todo = .acquire mode lock :: rest

/-- The rank of the lock that the goroutine is about to acquire. -/
def wantedRank (rank : ι → ℕ) (g : Goroutine ι) : ℕ :=
  match g.todo with
  | .acquire _ lock :: _ => rank lock
  | _ => 0

theorem Wants.rank_eq {g : Goroutine ι} (h : Wants g lock) : rank lock = wantedRank rank g := by
  obtain ⟨mode, rest, htodo⟩ := h
  rw [wantedRank, htodo]

section Update

variable {goroutines : ℕ → Goroutine ι} {g : Goroutine ι} {R W A R' W' A' : Finset ℕ}

/-- The sets change with the goroutine that moves, and with no other. -/
theorem Claimed.update (h : Claimed goroutines lock R W A)
    (hother : ∀ m ≠ n, (m ∈ R' ↔ m ∈ R) ∧ (m ∈ W' ↔ m ∈ W) ∧ (m ∈ A' ↔ m ∈ A))
    (hR : n ∈ R' ↔ (lock, .read) ∈ g.held) (hW : n ∈ W' ↔ (lock, .write) ∈ g.held)
    (hA : n ∈ A' ↔ Announces g lock) :
    Claimed (Function.update goroutines n g) lock R' W' A' := by
  refine ⟨fun m ↦ ?_, fun m ↦ ?_, fun m ↦ ?_⟩ <;> by_cases hm : m = n
  · rw [hm, Function.update_self]
    exact hR
  · rw [Function.update_of_ne hm, (hother m hm).1]
    exact h.reads m
  · rw [hm, Function.update_self]
    exact hW
  · rw [Function.update_of_ne hm, (hother m hm).2.1]
    exact h.writes m
  · rw [hm, Function.update_self]
    exact hA
  · rw [Function.update_of_ne hm, (hother m hm).2.2]
    exact h.announces m

theorem Claimed.update_same (h : Claimed goroutines lock R W A)
    (hheld : ∀ mode, (lock, mode) ∈ g.held ↔ (lock, mode) ∈ (goroutines n).held)
    (hA : Announces g lock ↔ Announces (goroutines n) lock) :
    Claimed (Function.update goroutines n g) lock R W A :=
  h.update (fun _ _ ↦ ⟨Iff.rfl, Iff.rfl, Iff.rfl⟩) ((h.reads n).trans (hheld .read).symm)
    ((h.writes n).trans (hheld .write).symm) ((h.announces n).trans hA.symm)

end Update

variable [DecidableEq ι] {s t : LockSystem ι}

/-- A goroutine that keeps to the discipline. -/
structure Disciplined (rank : ι → ℕ) (g : Goroutine ι) : Prop where
  orderly : Orderly rank g.held g.todo
  nodup : (g.held.map Prod.fst).Nodup
  announced : g.announced = true → ∃ lock, Announces g lock

/-- Everybody keeps to the discipline, and the locks know how many hold them. -/
structure Kept (rank : ι → ℕ) (s : LockSystem ι) : Prop where
  fatal : s.fatal = none
  disciplined : ∀ n, Disciplined rank (s.goroutines n)
  held : ∀ lock, ∃ R W A, (s.locks lock).Held R W A ∧ Claimed s.goroutines lock R W A
  unborn : ∀ n, s.spawned ≤ n → s.goroutines n = ⟨[], false, []⟩

theorem disciplined_idle {todo : List (LockAction ι)} (h : Orderly rank [] todo) :
    Disciplined rank ⟨[], false, todo⟩ := ⟨h, List.nodup_nil, nofun⟩

theorem kept_start : Kept rank (start : LockSystem ι) where
  fatal := rfl
  disciplined := fun _ ↦ disciplined_idle rfl
  held := fun lock ↦ ⟨∅, ∅, ∅, Latch.held_free, fun n ↦ by simp [start], fun n ↦ by simp [start],
    fun n ↦ by simp [start, Announces]⟩
  unborn := fun _ _ ↦ rfl

theorem Kept.not_fatal (h : s.Kept rank) : ¬s.fatal.isSome = true := by
  rw [h.fatal]
  exact Bool.false_ne_true

/-! ### One goroutine moves -/

theorem Kept.proceed (h : s.Kept rank) {g : Goroutine ι} {l : Latch} (hn : n < s.spawned)
    (hg : Disciplined rank g)
    (hlock : ∃ R W A, l.Held R W A ∧ Claimed (Function.update s.goroutines n g) lock R W A)
    (hother : ∀ lock' ≠ lock, (∀ mode, (lock', mode) ∈ g.held ↔
      (lock', mode) ∈ (s.goroutines n).held) ∧
      (Announces g lock' ↔ Announces (s.goroutines n) lock')) :
    Kept rank { s with
      locks := Function.update s.locks lock l
      goroutines := Function.update s.goroutines n g } where
  fatal := h.fatal
  disciplined := by
    intro m
    change Disciplined rank (Function.update s.goroutines n g m)
    by_cases hm : m = n
    · rw [hm, Function.update_self]
      exact hg
    · rw [Function.update_of_ne hm]
      exact h.disciplined m
  held := by
    intro lock'
    change ∃ R W A, (Function.update s.locks lock l lock').Held R W A ∧
      Claimed (Function.update s.goroutines n g) lock' R W A
    by_cases heq : lock' = lock
    · subst heq
      rw [Function.update_self]
      exact hlock
    · obtain ⟨R, W, A, hheld, hclaimed⟩ := h.held lock'
      rw [Function.update_of_ne heq]
      exact ⟨R, W, A, hheld, hclaimed.update_same (hother lock' heq).1 (hother lock' heq).2⟩
  unborn := fun m hm ↦ (Function.update_of_ne (hn.trans_le hm).ne' _ _).trans (h.unborn m hm)

theorem Kept.lt_spawned (h : s.Kept rank) (htodo : (s.goroutines n).todo ≠ []) :
    n < s.spawned := by
  by_contra hn
  exact htodo (congrArg Goroutine.todo (h.unborn n (not_lt.mp hn)))

theorem notMem_erase {held : List (ι × LockMode)} (h : (held.map Prod.fst).Nodup)
    {mode : LockMode} (hmem : (lock, mode) ∈ held) (mode' : LockMode) :
    (lock, mode') ∉ held.erase (lock, mode) := by
  intro hmem'
  have heq : (lock, mode') = (lock, mode) :=
    List.inj_on_of_nodup_map h (List.mem_of_mem_erase hmem') hmem rfl
  rw [heq] at hmem'
  exact ((List.Nodup.of_map _ h).mem_erase_iff.mp hmem').1 rfl

section Steps

variable {rest : List (LockAction ι)} {l : Latch}

theorem Kept.disciplined_acquire (h : s.Kept rank) {mode : LockMode}
    (htodo : (s.goroutines n).todo = .acquire mode lock :: rest) :
    Disciplined rank ⟨(lock, mode) :: (s.goroutines n).held, false, rest⟩ := by
  obtain ⟨horderly, hnodup, -⟩ := h.disciplined n
  rw [htodo] at horderly
  refine ⟨horderly.2, List.nodup_cons.mpr ⟨fun hmem ↦ ?_, hnodup⟩, nofun⟩
  obtain ⟨x, hx, hfst⟩ := List.mem_map.mp hmem
  exact (horderly.1 x hx).ne (congrArg rank hfst)

theorem Kept.notMem_held (h : s.Kept rank) {mode : LockMode}
    (htodo : (s.goroutines n).todo = .acquire mode lock :: rest) (mode' : LockMode) :
    (lock, mode') ∉ (s.goroutines n).held := by
  have horderly := (h.disciplined n).orderly
  rw [htodo] at horderly
  exact fun hmem ↦ lt_irrefl _ (horderly.1 _ hmem)

theorem Kept.readLock (h : s.Kept rank)
    (htodo : (s.goroutines n).todo = .acquire .read lock :: rest)
    (hlock : (s.locks lock).rLock = .ok l) :
    Kept rank { s with
      locks := Function.update s.locks lock l
      goroutines := Function.update s.goroutines n
        ⟨(lock, .read) :: (s.goroutines n).held, false, rest⟩ } := by
  have hnot : ∀ lock', ¬Announces (s.goroutines n) lock' := by
    rintro lock' ⟨-, rest', hrest'⟩
    rw [htodo] at hrest'
    cases hrest'
  have hout := h.notMem_held htodo
  obtain ⟨R, W, A, hheld, hclaimed⟩ := h.held lock
  refine h.proceed (h.lt_spawned (by rw [htodo]; exact List.cons_ne_nil _ _))
    (h.disciplined_acquire htodo)
    ⟨insert n R, W, A, hheld.rLock (fun hn ↦ hout _ ((hclaimed.reads n).mp hn)) hlock,
      hclaimed.update (fun m hm ↦ ⟨?_, Iff.rfl, Iff.rfl⟩) ?_ ?_ ?_⟩ fun lock' hne ↦ ⟨?_, ?_⟩
  · rw [Finset.mem_insert, or_iff_right hm]
  · exact iff_of_true (Finset.mem_insert_self n R) List.mem_cons_self
  · rw [hclaimed.writes n, List.mem_cons, or_iff_right (by simp)]
  · exact iff_of_false (fun hn ↦ hnot lock ((hclaimed.announces n).mp hn)) not_announces
  · intro mode
    rw [List.mem_cons, or_iff_right fun heq ↦ hne (Prod.mk.inj heq).1]
  · exact iff_of_false not_announces (hnot lock')

theorem Kept.announce (h : s.Kept rank)
    (htodo : (s.goroutines n).todo = .acquire .write lock :: rest)
    (hquiet : (s.goroutines n).announced = false) (hlock : (s.locks lock).announce = .ok l) :
    Kept rank { s with
      locks := Function.update s.locks lock l
      goroutines := Function.update s.goroutines n { s.goroutines n with announced := true } } := by
  have hannounces : Announces { s.goroutines n with announced := true } lock :=
    ⟨rfl, rest, htodo⟩
  have hnot : ∀ lock', ¬Announces (s.goroutines n) lock' := fun lock' ha ↦
    Bool.false_ne_true (hquiet.symm.trans ha.1)
  obtain ⟨R, W, A, hheld, hclaimed⟩ := h.held lock
  obtain ⟨horderly, hnodup, -⟩ := h.disciplined n
  refine h.proceed (h.lt_spawned (by rw [htodo]; exact List.cons_ne_nil _ _))
    ⟨horderly, hnodup, fun _ ↦ ⟨lock, hannounces⟩⟩
    ⟨R, W, insert n A, hheld.announce hlock n,
      hclaimed.update (fun m hm ↦ ⟨Iff.rfl, Iff.rfl, ?_⟩) (hclaimed.reads n) (hclaimed.writes n)
        (iff_of_true (Finset.mem_insert_self n A) hannounces)⟩
    fun lock' hne ↦ ⟨fun _ ↦ Iff.rfl, iff_of_false (fun ha ↦ hne ?_) (hnot lock')⟩
  · rw [Finset.mem_insert, or_iff_right hm]
  · exact ha.lock_eq htodo

theorem Kept.writeLock (h : s.Kept rank)
    (htodo : (s.goroutines n).todo = .acquire .write lock :: rest)
    (hannounced : (s.goroutines n).announced = true) (hlock : (s.locks lock).lock = .ok l) :
    Kept rank { s with
      locks := Function.update s.locks lock l
      goroutines := Function.update s.goroutines n
        ⟨(lock, .write) :: (s.goroutines n).held, false, rest⟩ } := by
  obtain ⟨R, W, A, hheld, hclaimed⟩ := h.held lock
  have hnA : n ∈ A := (hclaimed.announces n).mpr ⟨hannounced, rest, htodo⟩
  refine h.proceed (h.lt_spawned (by rw [htodo]; exact List.cons_ne_nil _ _))
    (h.disciplined_acquire htodo)
    ⟨R, insert n W, A.erase n, hheld.lock hnA hlock,
      hclaimed.update (fun m hm ↦ ⟨Iff.rfl, ?_, ?_⟩) ?_ ?_ ?_⟩ fun lock' hne ↦ ⟨?_, ?_⟩
  · rw [Finset.mem_insert, or_iff_right hm]
  · rw [Finset.mem_erase, and_iff_right hm]
  · rw [hclaimed.reads n, List.mem_cons, or_iff_right (by simp)]
  · exact iff_of_true (Finset.mem_insert_self n W) List.mem_cons_self
  · exact iff_of_false (Finset.notMem_erase n A) not_announces
  · intro mode
    rw [List.mem_cons, or_iff_right fun heq ↦ hne (Prod.mk.inj heq).1]
  · exact iff_of_false not_announces fun ha ↦ hne (ha.lock_eq htodo)

/-- A release is one of what the goroutine holds, so it is not fatal. -/
theorem Kept.release (h : s.Kept rank) {mode : LockMode}
    (htodo : (s.goroutines n).todo = .release mode lock :: rest) :
    ∃ l, (s.locks lock).release mode = .ok l ∧
      Kept rank { s with
        locks := Function.update s.locks lock l
        goroutines := Function.update s.goroutines n
          ⟨(s.goroutines n).held.erase (lock, mode), false, rest⟩ } := by
  have hnot : ∀ lock', ¬Announces (s.goroutines n) lock' := by
    rintro lock' ⟨-, rest', hrest'⟩
    rw [htodo] at hrest'
    cases hrest'
  obtain ⟨R, W, A, hheld, hclaimed⟩ := h.held lock
  obtain ⟨horderly, hnodup, -⟩ := h.disciplined n
  rw [htodo] at horderly
  have hgone := notMem_erase hnodup horderly.1
  have hdisciplined : Disciplined rank ⟨(s.goroutines n).held.erase (lock, mode), false, rest⟩ :=
    ⟨horderly.2, hnodup.sublist (List.erase_sublist.map Prod.fst), nofun⟩
  have hA : n ∉ A := fun hn ↦ hnot lock ((hclaimed.announces n).mp hn)
  have hother : ∀ lock' ≠ lock,
      (∀ mode', (lock', mode') ∈ (s.goroutines n).held.erase (lock, mode) ↔
        (lock', mode') ∈ (s.goroutines n).held) ∧
      (Announces ⟨(s.goroutines n).held.erase (lock, mode), false, rest⟩ lock' ↔
        Announces (s.goroutines n) lock') := fun lock' hne ↦
    ⟨fun mode' ↦ List.mem_erase_of_ne fun heq ↦ hne (Prod.mk.inj heq).1,
      iff_of_false not_announces (hnot lock')⟩
  have hn := h.lt_spawned (n := n) (by rw [htodo]; exact List.cons_ne_nil _ _)
  -- a lock is held in one mode, so the goroutine is in one of the two sets
  have honly : ∀ mode', (lock, mode') ∈ (s.goroutines n).held → mode' = mode := fun mode' hmem ↦
    (Prod.mk.inj (List.inj_on_of_nodup_map hnodup hmem horderly.1 rfl)).2
  cases mode with
  | read =>
    obtain ⟨l, hl, hheld'⟩ := hheld.releaseRead ((hclaimed.reads n).mpr horderly.1)
    refine ⟨l, hl, h.proceed hn hdisciplined ⟨R.erase n, W, A, hheld',
      hclaimed.update (fun m hm ↦ ⟨?_, Iff.rfl, Iff.rfl⟩) ?_ ?_ ?_⟩ hother⟩
    · rw [Finset.mem_erase, and_iff_right hm]
    · exact iff_of_false (Finset.notMem_erase n R) (hgone .read)
    · exact iff_of_false (fun hnW ↦ nomatch honly .write ((hclaimed.writes n).mp hnW))
        (hgone .write)
    · exact iff_of_false hA not_announces
  | write =>
    obtain ⟨l, hl, hheld'⟩ := hheld.releaseWrite ((hclaimed.writes n).mpr horderly.1)
    refine ⟨l, hl, h.proceed hn hdisciplined ⟨R, W.erase n, A, hheld',
      hclaimed.update (fun m hm ↦ ⟨Iff.rfl, ?_, Iff.rfl⟩) ?_ ?_ ?_⟩ hother⟩
    · rw [Finset.mem_erase, and_iff_right hm]
    · exact iff_of_false (fun hnR ↦ nomatch honly .read ((hclaimed.reads n).mp hnR))
        (hgone .read)
    · exact iff_of_false (Finset.notMem_erase n W) (hgone .write)
    · exact iff_of_false hA not_announces

end Steps

/-! ### The next step of a goroutine -/

section Go

variable {rest : List (LockAction ι)} {l : Latch}

theorem proceed_cases {g : Goroutine ι} {x : Ending FatalUnlock Latch}
    (h : s.proceed n lock g x = some t) :
    (∃ l, x = .ok l ∧ t = { s with
      locks := Function.update s.locks lock l
      goroutines := Function.update s.goroutines n g }) ∨ ∃ e, x = .fault e := by
  cases x with
  | ok l => exact .inl ⟨l, rfl, (Option.some_inj.mp h).symm⟩
  | wait => cases h
  | fault e => exact .inr ⟨e, rfl⟩

theorem go_read (htodo : (s.goroutines n).todo = .acquire .read lock :: rest) :
    s.go n = s.proceed n lock ⟨(lock, .read) :: (s.goroutines n).held, false, rest⟩
      (s.locks lock).rLock := by
  simp only [go, htodo]

theorem go_announce (htodo : (s.goroutines n).todo = .acquire .write lock :: rest)
    (hquiet : (s.goroutines n).announced = false) :
    s.go n = s.proceed n lock { s.goroutines n with announced := true }
      (s.locks lock).announce := by
  simp only [go, htodo, hquiet, Bool.false_eq_true, if_false]

theorem go_lock (htodo : (s.goroutines n).todo = .acquire .write lock :: rest)
    (hannounced : (s.goroutines n).announced = true) :
    s.go n = s.proceed n lock ⟨(lock, .write) :: (s.goroutines n).held, false, rest⟩
      (s.locks lock).lock := by
  simp only [go, htodo, hannounced, if_true]

theorem go_release {mode : LockMode}
    (htodo : (s.goroutines n).todo = .release mode lock :: rest) :
    s.go n = s.proceed n lock ⟨(s.goroutines n).held.erase (lock, mode), false, rest⟩
      ((s.locks lock).release mode) := by
  simp only [go, htodo]

end Go

/-- How many steps the goroutine can still take without being woken, or more. -/
def ahead (g : Goroutine ι) : ℕ := 2 * g.todo.length - g.announced.toNat

/-- **A goroutine goes on.** The discipline is kept, the others are not touched, and there is less
ahead than before. -/
theorem Kept.go (h : s.Kept rank) (hgo : s.go n = some t) :
    t.Kept rank ∧ t.spawned = s.spawned ∧
      ∃ g, t.goroutines = Function.update s.goroutines n g ∧ ahead g < ahead (s.goroutines n) := by
  have hless : ∀ {action rest held}, (s.goroutines n).todo = action :: rest →
      ahead ⟨held, false, rest⟩ < ahead (s.goroutines n) := by
    intro action rest held htodo
    have hle := Bool.toNat_le (s.goroutines n).announced
    simp only [ahead, htodo, List.length_cons, Bool.toNat_false]
    omega
  cases htodo : (s.goroutines n).todo with
  | nil => simp only [LockSystem.go, htodo, reduceCtorEq] at hgo
  | cons action rest =>
    cases action with
    | sleep => simp only [LockSystem.go, htodo, reduceCtorEq] at hgo
    | release mode lock =>
      obtain ⟨l, hl, hkept⟩ := h.release htodo
      rw [go_release htodo, hl] at hgo
      obtain rfl := Option.some_inj.mp hgo
      exact ⟨hkept, rfl, _, rfl, hless htodo⟩
    | acquire mode lock =>
      cases mode with
      | read =>
        rw [go_read htodo] at hgo
        obtain ⟨l, hl, rfl⟩ | ⟨e, he⟩ := proceed_cases hgo
        · exact ⟨h.readLock htodo hl, rfl, _, rfl, hless htodo⟩
        · exact absurd he Latch.rLock_ne_fault
      | write =>
        cases hannounced : (s.goroutines n).announced with
        | false =>
          rw [go_announce htodo hannounced] at hgo
          obtain ⟨l, hl, rfl⟩ | ⟨e, he⟩ := proceed_cases hgo
          · refine ⟨h.announce htodo hannounced hl, rfl, _, rfl, ?_⟩
            simp only [ahead, htodo, hannounced, List.length_cons, Bool.toNat_false,
              Bool.toNat_true]
            omega
          · exact absurd he Latch.announce_ne_fault
        | true =>
          rw [go_lock htodo hannounced] at hgo
          obtain ⟨l, hl, rfl⟩ | ⟨e, he⟩ := proceed_cases hgo
          · exact ⟨h.writeLock htodo hannounced hl, rfl, _, rfl, hless htodo⟩
          · exact absurd he Latch.lock_ne_fault

theorem Kept.update (h : s.Kept rank) {g : Goroutine ι} {spawned : ℕ} (hn : n < spawned)
    (hle : s.spawned ≤ spawned) (hg : Disciplined rank g) (hheld : g.held = (s.goroutines n).held)
    (hquiet : g.announced = false) (hquiet' : (s.goroutines n).announced = false) :
    Kept rank { s with
      goroutines := Function.update s.goroutines n g
      spawned := spawned } where
  fatal := h.fatal
  disciplined := by
    intro m
    change Disciplined rank (Function.update s.goroutines n g m)
    by_cases hm : m = n
    · rw [hm, Function.update_self]
      exact hg
    · rw [Function.update_of_ne hm]
      exact h.disciplined m
  held := by
    intro lock
    obtain ⟨R, W, A, hRWA, hclaimed⟩ := h.held lock
    refine ⟨R, W, A, hRWA, hclaimed.update_same (fun mode ↦ by rw [hheld]) ?_⟩
    exact iff_of_false (fun ha ↦ Bool.false_ne_true (hquiet.symm.trans ha.1))
      fun ha ↦ Bool.false_ne_true (hquiet'.symm.trans ha.1)
  unborn := fun m hm ↦
    (Function.update_of_ne (hn.trans_le hm).ne' _ _).trans (h.unborn m (hle.trans hm))

/-- Only orderly programs are started. -/
def Admitted (rank : ι → ℕ) : Label ι → Prop
  | .spawn todo => Orderly rank [] todo
  | .step _ | .wake _ => True

theorem Kept.rouse (h : s.Kept rank) (hrouse : s.rouse n = some t) : t.Kept rank := by
  cases htodo : (s.goroutines n).todo with
  | nil => simp only [LockSystem.rouse, htodo, reduceCtorEq] at hrouse
  | cons action rest =>
    cases action with
    | acquire mode lock => simp only [LockSystem.rouse, htodo, reduceCtorEq] at hrouse
    | release mode lock => simp only [LockSystem.rouse, htodo, reduceCtorEq] at hrouse
    | sleep =>
      simp only [LockSystem.rouse, htodo] at hrouse
      obtain rfl := Option.some_inj.mp hrouse
      obtain ⟨horderly, hnodup, hannounced⟩ := h.disciplined n
      rw [htodo] at horderly
      have hquiet : (s.goroutines n).announced = false := by
        refine Bool.eq_false_of_not_eq_true fun ha ↦ ?_
        obtain ⟨lock, -, rest', hrest'⟩ := hannounced ha
        rw [htodo] at hrest'
        cases hrest'
      refine h.update (h.lt_spawned (by rw [htodo]; exact List.cons_ne_nil _ _)) le_rfl
        ⟨horderly.2, hnodup, fun ha ↦ ?_⟩ rfl hquiet hquiet
      exact absurd (hquiet.symm.trans ha) Bool.false_ne_true

/-- **One step** of the system. -/
theorem Kept.step {l : Label ι} (h : s.Kept rank) (hl : Admitted rank l)
    (hstep : s.step l = some t) : t.Kept rank := by
  simp only [LockSystem.step, if_neg h.not_fatal] at hstep
  cases l with
  | spawn todo =>
    obtain rfl := Option.some_inj.mp hstep
    have hunborn := h.unborn s.spawned le_rfl
    exact h.update (Nat.lt_succ_self _) (Nat.le_succ _) (disciplined_idle hl)
      (by rw [hunborn]) rfl (by rw [hunborn])
  | step n => exact (h.go hstep).1
  | wake n => exact h.rouse hstep

theorem Kept.step_eq (h : s.Kept rank) : s.step (.step n) = s.go n := if_neg h.not_fatal

/-- **A whole run.** -/
theorem kept_of_run {ls : List (Label ι)} (hls : ∀ l ∈ ls, Admitted rank l)
    (h : Run LockSystem.step (fun _ ↦ True) start ls s) : s.Kept rank :=
  Run.invariant_of_guarded (fun _ _ _ hl hstep hkept ↦ hkept.step hl hstep) h
    (Run.guarded_of_forall fun l hl _ ↦ hls l hl) kept_start

theorem Kept.steps {ns : List ℕ} (h : s.Kept rank)
    (hrun : Run LockSystem.step (fun _ ↦ True) s (ns.map .step) t) : t.Kept rank := by
  have hadmitted : ∀ l ∈ ns.map Label.step, Admitted rank l := by
    intro l hl
    obtain ⟨n, -, rfl⟩ := List.mem_map.mp hl
    trivial
  exact Run.invariant_of_guarded (fun _ _ _ hl hstep hkept ↦ hkept.step hl hstep) hrun
    (Run.guarded_of_forall fun l hl _ ↦ hadmitted l hl) h

/-! ## What follows -/

/-- **A writer is alone.** -/
theorem Kept.eq_of_write (h : s.Kept rank) {mode : LockMode}
    (hn : (lock, .write) ∈ (s.goroutines n).held) (hm : (lock, mode) ∈ (s.goroutines m).held) :
    m = n := by
  obtain ⟨R, W, A, hheld, hclaimed⟩ := h.held lock
  have hnW := (hclaimed.writes n).mpr hn
  cases mode with
  | read => exact absurd ((hclaimed.reads m).mpr hm) (hheld.mu.notMem_of_mem hnW)
  | write => exact hheld.mu.eq_of_mem hnW ((hclaimed.writes m).mpr hm)

theorem Kept.exists_held (h : s.Kept rank) (hlock : (s.locks lock).mu ≠ .free) :
    ∃ m mode, (lock, mode) ∈ (s.goroutines m).held := by
  obtain ⟨R, W, A, hheld, hclaimed⟩ := h.held lock
  by_contra hnone
  push Not at hnone
  have hR : R = ∅ := Finset.eq_empty_of_forall_notMem fun m hm ↦
    hnone m .read ((hclaimed.reads m).mp hm)
  have hW : W = ∅ := Finset.eq_empty_of_forall_notMem fun m hm ↦
    hnone m .write ((hclaimed.writes m).mp hm)
  have hmu := hheld.mu
  rw [hR, hW] at hmu
  exact hlock hmu.eq_free

theorem proceed_eq_none {g : Goroutine ι} {x : Ending FatalUnlock Latch}
    (h : s.proceed n lock g x = none) : x = .wait := by
  cases x with
  | ok l => cases h
  | wait => rfl
  | fault e => cases h

theorem Kept.exists_held_of_announced (h : s.Kept rank) (hstuck : ∀ n, s.go n = none)
    (hannounced : (s.locks lock).announced = true) :
    ∃ m mode, (lock, mode) ∈ (s.goroutines m).held := by
  obtain ⟨R, W, A, hheld, hclaimed⟩ := h.held lock
  obtain ⟨m, hm⟩ := hheld.exists_of_announced hannounced
  obtain ⟨ha, rest, htodo⟩ := (hclaimed.announces m).mp hm
  refine h.exists_held fun hfree ↦ ?_
  have hwait := proceed_eq_none ((go_lock htodo ha).symm.trans (hstuck m))
  rw [Latch.lock, RWMutex.lock, if_pos hfree] at hwait
  cases hwait

/-- **If nobody can go on, a lock that is wanted is held.** -/
theorem Kept.exists_held_of_wants (h : s.Kept rank) (hstuck : ∀ n, s.go n = none)
    (hwants : Wants (s.goroutines n) lock) : ∃ m mode, (lock, mode) ∈ (s.goroutines m).held := by
  have hwriter : (s.locks lock).mu.writer = true →
      ∃ m mode, (lock, mode) ∈ (s.goroutines m).held := fun hw ↦
    h.exists_held fun hfree ↦ Bool.false_ne_true (by rw [← hw, hfree]; rfl)
  obtain ⟨mode, rest, htodo⟩ := hwants
  cases mode with
  | read =>
    have hwait := proceed_eq_none ((go_read htodo).symm.trans (hstuck n))
    rw [Latch.rLock] at hwait
    split at hwait
    · rename_i ha
      exact h.exists_held_of_announced hstuck ha
    · rw [RWMutex.rLock] at hwait
      split at hwait
      · rename_i hw
        exact hwriter hw
      · cases hwait
  | write =>
    cases hquiet : (s.goroutines n).announced with
    | true =>
      refine h.exists_held_of_announced hstuck ?_
      obtain ⟨R, W, A, hheld, hclaimed⟩ := h.held lock
      exact hheld.announced_of_mem ((hclaimed.announces n).mpr ⟨hquiet, rest, htodo⟩)
    | false =>
      have hwait := proceed_eq_none ((go_announce htodo hquiet).symm.trans (hstuck n))
      rw [Latch.announce] at hwait
      split at hwait
      · rename_i hor
        exact hor.elim (h.exists_held_of_announced hstuck) hwriter
      · cases hwait

/-- **Who holds a lock wants a larger one**, if nobody can go on. -/
theorem Kept.wants_of_held (h : s.Kept rank) (hstuck : ∀ n, s.go n = none) {mode : LockMode}
    (hheld : (lock, mode) ∈ (s.goroutines n).held) :
    ∃ lock', Wants (s.goroutines n) lock' ∧ rank lock < rank lock' := by
  have horderly := (h.disciplined n).orderly
  cases htodo : (s.goroutines n).todo with
  | nil =>
    rw [htodo] at horderly
    exact absurd hheld (horderly ▸ List.not_mem_nil)
  | cons action rest =>
    rw [htodo] at horderly
    cases action with
    | sleep => exact absurd hheld (horderly.1 ▸ List.not_mem_nil)
    | acquire mode' lock' => exact ⟨lock', ⟨mode', rest, htodo⟩, horderly.1 _ hheld⟩
    | release mode' lock' =>
      obtain ⟨l, hl, -⟩ := h.release htodo
      have hgo := hstuck n
      rw [go_release htodo, hl] at hgo
      cases hgo

/-- **Nobody waits for ever.** If nobody can go on, then nobody wants a lock. -/
theorem Kept.not_wants (h : s.Kept rank) (hstuck : ∀ n, s.go n = none) :
    ¬Wants (s.goroutines n) lock := by
  intro hwants
  -- the chain of those who wait for one another goes up in rank
  have hchain : ∀ k, ∃ m lock', Wants (s.goroutines m) lock' ∧ k ≤ rank lock' := by
    intro k
    induction k with
    | zero => exact ⟨n, lock, hwants, Nat.zero_le _⟩
    | succ k ih =>
      obtain ⟨m, lock₁, hm, hk⟩ := ih
      obtain ⟨m', mode, hheld⟩ := h.exists_held_of_wants hstuck hm
      obtain ⟨lock₂, hm', hlt⟩ := h.wants_of_held hstuck hheld
      exact ⟨m', lock₂, hm', hk.trans_lt hlt⟩
  obtain ⟨m, lock', hm, hk⟩ :=
    hchain ((∑ m ∈ Finset.range s.spawned, wantedRank rank (s.goroutines m)) + 1)
  have hspawned : m < s.spawned := by
    obtain ⟨mode, rest, htodo⟩ := hm
    exact h.lt_spawned (by rw [htodo]; exact List.cons_ne_nil _ _)
  have hle := Finset.single_le_sum (f := fun m ↦ wantedRank rank (s.goroutines m))
    (fun _ _ ↦ Nat.zero_le _) (Finset.mem_range.mpr hspawned)
  exact absurd ((hk.trans_eq hm.rank_eq).trans hle) (Nat.not_succ_le_self _)

/-- **A state in which nobody can go on**: all have come to their ends or sleep, and all locks are
free. -/
theorem Kept.resting (h : s.Kept rank) (hstuck : ∀ n, s.go n = none) :
    (∀ n, Resting (s.goroutines n)) ∧ ∀ lock, s.locks lock = .free := by
  have hnone : ∀ n lock mode, (lock, mode) ∉ (s.goroutines n).held := fun n lock mode hheld ↦
    have ⟨_, hwants, _⟩ := h.wants_of_held hstuck hheld
    h.not_wants hstuck hwants
  refine ⟨fun n ↦ ?_, fun lock ↦ ?_⟩
  · cases htodo : (s.goroutines n).todo with
    | nil => exact .inl htodo
    | cons action rest =>
      cases action with
      | sleep => exact .inr ⟨rest, htodo⟩
      | acquire mode lock => exact absurd ⟨mode, rest, htodo⟩ (h.not_wants hstuck)
      | release mode lock =>
        have horderly := (h.disciplined n).orderly
        rw [htodo] at horderly
        exact absurd horderly.1 (hnone n lock mode)
  · have hmu : (s.locks lock).mu = .free := by
      by_contra hmu
      obtain ⟨m, mode, hheld⟩ := h.exists_held hmu
      exact hnone m lock mode hheld
    have hquiet : (s.locks lock).announced = false := Bool.eq_false_of_not_eq_true fun ha ↦
      have ⟨m, mode, hheld⟩ := h.exists_held_of_announced hstuck ha
      hnone m lock mode hheld
    exact congrArg₂ Latch.mk hmu hquiet

/-! ### The work ahead -/

/-- How many steps can still be taken without anybody being woken, or more. -/
def work (s : LockSystem ι) : ℕ := ∑ n ∈ Finset.range s.spawned, ahead (s.goroutines n)

theorem Kept.work_lt (h : s.Kept rank) (hgo : s.go n = some t) : t.work < s.work := by
  have hn : n ∈ Finset.range s.spawned := by
    refine Finset.mem_range.mpr (h.lt_spawned fun htodo ↦ ?_)
    simp only [LockSystem.go, htodo, reduceCtorEq] at hgo
  obtain ⟨-, hspawned, g, hg, hless⟩ := h.go hgo
  rw [work, work, hspawned, hg]
  refine Finset.sum_lt_sum (fun m _ ↦ ?_) ⟨n, hn, by rwa [Function.update_self]⟩
  by_cases hm : m = n
  · rw [hm, Function.update_self]
    exact hless.le
  · rw [Function.update_of_ne hm]

/-- **Steps come to an end**: without anybody being started or woken, there are no more of them
than there is work. -/
theorem Kept.length_add_work_le {ns : List ℕ}
    (hrun : Run LockSystem.step (fun _ ↦ True) s (ns.map .step) t) :
    s.Kept rank → ns.length + t.work ≤ s.work := by
  induction ns generalizing s with
  | nil =>
    intro _
    cases hrun
    simp
  | cons n ns ih =>
    intro h
    cases hrun with
    | cons _ hstep hrest =>
      rw [h.step_eq] at hstep
      have hlt := h.work_lt hstep
      have hle := ih hrest (h.go hstep).1
      rw [List.length_cons]
      omega

end LockSystem

end VortexMQ
