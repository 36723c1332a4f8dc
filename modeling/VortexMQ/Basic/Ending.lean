import Mathlib.Logic.Basic
import Mathlib.Tactic.TypeStar
import Mathlib.Tactic.Common

/-!
# How a computation ends

A computation of a concurrent program ends with a value, or waits for something that others have to
do first, or is brought down by a fault. Sequences of computations are written with `do`.

`Ending.Sat` is a specification: what holds of the value, and which faults are possible. It says
nothing about waiting. The rule `Ending.Sat.bind` takes specifications through a sequence.
-/

namespace VortexMQ

universe u v

/-- The end of a computation: a value, a wait, or a fault. -/
inductive Ending (ε : Type u) (α : Type v) where
  | ok (a : α)
  | wait
  | fault (e : ε)
  deriving DecidableEq

namespace Ending

variable {ε : Type u} {α β : Type v}

protected def bind (x : Ending ε α) (f : α → Ending ε β) : Ending ε β :=
  match x with
  | .ok a => f a
  | .wait => .wait
  | .fault e => .fault e

instance : Monad (Ending ε) where
  pure := .ok
  bind := Ending.bind

@[simp] theorem pure_eq (a : α) : (pure a : Ending ε α) = .ok a := rfl

@[simp] theorem ok_bind (a : α) (f : α → Ending ε β) : (Ending.ok a >>= f) = f a := rfl

@[simp] theorem wait_bind (f : α → Ending ε β) : ((.wait : Ending ε α) >>= f) = .wait := rfl

@[simp] theorem fault_bind (e : ε) (f : α → Ending ε β) :
    ((.fault e : Ending ε α) >>= f) = .fault e := rfl

theorem bind_eq_ok {x : Ending ε α} {f : α → Ending ε β} {b : β} :
    (x >>= f) = .ok b ↔ ∃ a, x = .ok a ∧ f a = .ok b := by
  cases x with
  | ok a =>
    constructor
    · exact fun h ↦ ⟨a, rfl, h⟩
    · rintro ⟨a', ha, h⟩
      cases ha
      exact h
  | wait => exact ⟨nofun, fun ⟨_, h, _⟩ ↦ nomatch h⟩
  | fault e => exact ⟨nofun, fun ⟨_, h, _⟩ ↦ nomatch h⟩

def isWait : Ending ε α → Bool
  | .wait => true
  | _ => false

theorem isWait_iff {x : Ending ε α} : x.isWait = true ↔ x = .wait := by
  cases x with
  | wait => exact iff_of_true rfl rfl
  | ok a => exact iff_of_false Bool.false_ne_true nofun
  | fault e => exact iff_of_false Bool.false_ne_true nofun

/-- The value, or else what `none` stands for. -/
def ofOption (otherwise : Ending ε α) : Option α → Ending ε α
  | some a => .ok a
  | none => otherwise

/-! ## Specifications -/

/-- A value satisfies `P`, and a fault `F`. -/
def Sat (x : Ending ε α) (P : α → Prop) (F : ε → Prop) : Prop :=
  match x with
  | .ok a => P a
  | .wait => True
  | .fault e => F e

variable {x : Ending ε α} {P Q : α → Prop} {F G : ε → Prop}

theorem Sat.of_ok {a : α} (h : Sat x P F) (hx : x = .ok a) : P a := by
  subst hx
  exact h

theorem Sat.mono (h : Sat x P F) (hP : ∀ a, P a → Q a) (hF : ∀ e, F e → G e) : Sat x Q G := by
  cases x with
  | ok a => exact hP a h
  | wait => trivial
  | fault e => exact hF e h

theorem sat_trivial (x : Ending ε α) : Sat x (fun _ ↦ True) fun _ ↦ True := by
  cases x <;> trivial

/-- **One computation after another.** -/
theorem Sat.bind {f : α → Ending ε β} {R : β → Prop} (h : Sat x P F)
    (hf : ∀ a, P a → Sat (f a) R F) : Sat (x >>= f) R F := by
  cases x with
  | ok a => exact hf a h
  | wait => trivial
  | fault e => exact h

theorem sat_ofOption {otherwise : Ending ε α} {x : Option α} (hsome : ∀ a, x = some a → P a)
    (hnone : x = none → Sat otherwise P F) : Sat (ofOption otherwise x) P F := by
  cases x with
  | none => exact hnone rfl
  | some a => exact hsome a rfl

end Ending

end VortexMQ
