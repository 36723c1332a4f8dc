import Mathlib.Data.Finset.Card
import VortexMQ.Basic.Ending

/-!
# A readers-writer lock

The lock of the `sync` package: a flag for the writer and a number of readers. It does not know who
holds it, and releases it for whoever asks. A release in a mode in which nobody holds the lock is
fatal.

`RWMutex.Held` says who holds it. Where everybody releases only what they hold, no release is fatal,
and a writer is alone.
-/

namespace VortexMQ

structure RWMutex where
  writer : Bool
  readers : ℕ
  deriving DecidableEq

/-- The fatal errors of a release. -/
inductive FatalUnlock where
  /-- `sync: Unlock of unlocked RWMutex`. -/
  | unlock
  /-- `sync: RUnlock of unlocked RWMutex`. -/
  | rUnlock
  deriving DecidableEq

namespace RWMutex

/-- Nobody holds it. -/
def free : RWMutex := ⟨false, 0⟩

def lock (mu : RWMutex) : Ending FatalUnlock RWMutex :=
  if mu = free then .ok { mu with writer := true } else .wait

def rLock (mu : RWMutex) : Ending FatalUnlock RWMutex :=
  if mu.writer then .wait else .ok { mu with readers := mu.readers + 1 }

def unlock (mu : RWMutex) : Ending FatalUnlock RWMutex :=
  if mu.writer then .ok { mu with writer := false } else .fault .unlock

def rUnlock (mu : RWMutex) : Ending FatalUnlock RWMutex :=
  match mu.readers with
  | 0 => .fault .rUnlock
  | readers + 1 => .ok { mu with readers := readers }

/-! ## Who holds the lock -/

variable {α : Type*} {mu mu' : RWMutex} {R W : Finset α} {a b : α}

/-- The readers are `R`, and the writers, one at most, are `W`. -/
structure Held (mu : RWMutex) (R W : Finset α) : Prop where
  readers_eq : mu.readers = R.card
  writers_eq : W.card = mu.writer.toNat
  alone : mu.writer = true → R = ∅

theorem held_free : free.Held (∅ : Finset α) ∅ where
  readers_eq := rfl
  writers_eq := rfl
  alone := fun _ ↦ rfl

namespace Held

theorem eq_free (h : mu.Held (∅ : Finset α) ∅) : mu = free := by
  obtain ⟨writer, readers⟩ := mu
  cases writer with
  | false => exact congrArg (RWMutex.mk false) h.readers_eq
  | true => exact absurd h.writers_eq Nat.zero_ne_one

theorem writer_of_mem (h : mu.Held R W) (ha : a ∈ W) : mu.writer = true := by
  have hcard := h.writers_eq
  cases hw : mu.writer with
  | true => rfl
  | false =>
    rw [hw, Bool.toNat_false, Finset.card_eq_zero] at hcard
    exact absurd ha (hcard ▸ Finset.notMem_empty a)

theorem eq_of_mem (h : mu.Held R W) (ha : a ∈ W) (hb : b ∈ W) : b = a := by
  have hcard := h.writers_eq
  rw [h.writer_of_mem ha, Bool.toNat_true] at hcard
  exact Finset.card_le_one.mp hcard.le b hb a ha

theorem notMem_of_mem (h : mu.Held R W) (ha : a ∈ W) : b ∉ R := by
  rw [h.alone (h.writer_of_mem ha)]
  exact Finset.notMem_empty b

variable [DecidableEq α]

theorem lock (h : mu.Held R W) (hlock : mu.lock = .ok mu') (a : α) :
    mu'.Held R (insert a W) := by
  rw [RWMutex.lock] at hlock
  split at hlock
  · rename_i hfree
    obtain rfl := Ending.ok.inj hlock
    subst hfree
    have hR : R = ∅ := Finset.card_eq_zero.mp h.readers_eq.symm
    have hW : W = ∅ := Finset.card_eq_zero.mp h.writers_eq
    subst hR hW
    exact ⟨rfl, rfl, fun _ ↦ rfl⟩
  · cases hlock

theorem rLock (h : mu.Held R W) (ha : a ∉ R) (hlock : mu.rLock = .ok mu') :
    mu'.Held (insert a R) W := by
  rw [RWMutex.rLock] at hlock
  split at hlock
  · cases hlock
  · rename_i hwriter
    obtain rfl := Ending.ok.inj hlock
    refine ⟨?_, h.writers_eq, fun hw ↦ absurd hw hwriter⟩
    rw [Finset.card_insert_of_notMem ha, ← h.readers_eq]

theorem unlock (h : mu.Held R W) (ha : a ∈ W) :
    ∃ mu', mu.unlock = .ok mu' ∧ mu'.Held R (W.erase a) := by
  have hwriter := h.writer_of_mem ha
  refine ⟨_, if_pos hwriter, h.readers_eq, ?_, fun hw ↦ absurd hw Bool.false_ne_true⟩
  rw [Finset.card_erase_of_mem ha, h.writers_eq, hwriter]
  rfl

theorem rUnlock (h : mu.Held R W) (ha : a ∈ R) :
    ∃ mu', mu.rUnlock = .ok mu' ∧ mu'.Held (R.erase a) W := by
  obtain ⟨writer, readers⟩ := mu
  have hcard : readers = R.card := h.readers_eq
  cases readers with
  | zero => exact absurd ha (Finset.card_eq_zero.mp hcard.symm ▸ Finset.notMem_empty a)
  | succ readers =>
    refine ⟨⟨writer, readers⟩, rfl, ?_, h.writers_eq, fun hw ↦ ?_⟩
    · rw [Finset.card_erase_of_mem ha, ← hcard]
      rfl
    · rw [h.alone hw, Finset.erase_empty]

end Held

end RWMutex

end VortexMQ
