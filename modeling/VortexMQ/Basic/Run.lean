import Mathlib

/-!
# Runs of a labelled system

A system is a partial step function: `step s l = none` when the action `l` is not enabled in `s`.
A `Run` is a finite sequence of enabled actions all of whose states, the two ends included, satisfy
a side condition `ok`. The side condition is how an assumption about a whole execution ("the buffer
is never full") is stated without building it into the steps.

Invariants go through `Run.history`, which hands the step lemma the side condition at both ends of
the step.
-/

namespace VortexMQ

variable {σ ι : Type*}

/-- From `s` the actions `ls` lead to `t`, and `ok` holds throughout. -/
inductive Run (step : σ → ι → Option σ) (ok : σ → Prop) : σ → List ι → σ → Prop
  | nil {s : σ} : ok s → Run step ok s [] s
  | cons {s u t : σ} {l : ι} {ls : List ι} :
      ok s → step s l = some u → Run step ok u ls t → Run step ok s (l :: ls) t

namespace Run

variable {step : σ → ι → Option σ} {ok : σ → Prop} {s t u : σ} {l : ι} {ls ms : List ι}

theorem ok_left (h : Run step ok s ls t) : ok s := by
  cases h with
  | nil h => exact h
  | cons h _ _ => exact h

theorem append (h : Run step ok s ls t) (h' : Run step ok t ms u) :
    Run step ok s (ls ++ ms) u := by
  induction h with
  | nil _ => exact h'
  | cons hok hstep _ ih => exact Run.cons hok hstep (ih h')

theorem exists_of_append : ∀ {ls : List ι} {s : σ}, Run step ok s (ls ++ ms) t →
    ∃ u, Run step ok s ls u ∧ Run step ok u ms t := by
  intro ls
  induction ls with
  | nil => intro s h; exact ⟨s, Run.nil h.ok_left, h⟩
  | cons l ls ih =>
    intro s h
    cases h with
    | cons hok hstep hrest =>
      obtain ⟨u, hls, hms⟩ := ih hrest
      exact ⟨u, Run.cons hok hstep hls, hms⟩

private theorem induct {I : List ι → σ → Prop}
    (hstep : ∀ ⦃ls s l t⦄, ok s → ok t → step s l = some t → I ls s → I (ls ++ [l]) t) :
    ∀ {ls : List ι} {s t : σ} {ms : List ι}, Run step ok s ms t → I ls s → I (ls ++ ms) t := by
  intro ls s t ms h
  induction h generalizing ls with
  | nil _ => intro hI; simpa using hI
  | cons hok hs hrest ih =>
    intro hI
    have h' := ih (hstep hok hrest.ok_left hs hI)
    rwa [List.append_assoc, List.singleton_append] at h'

/-- **The invariant rule.** An invariant may mention the actions taken so far; it is enough that
each step carries it along. -/
theorem history {I : List ι → σ → Prop}
    (hstep : ∀ ⦃ls s l t⦄, ok s → ok t → step s l = some t → I ls s → I (ls ++ [l]) t)
    (h : Run step ok s ls t) (hI : I [] s) : I ls t :=
  induct hstep h hI

theorem invariant {I : σ → Prop}
    (hstep : ∀ ⦃s l t⦄, ok s → ok t → step s l = some t → I s → I t)
    (h : Run step ok s ls t) (hI : I s) : I t := by
  induction h with
  | nil _ => exact hI
  | cons hok hs hrest ih => exact ih (hstep hok hrest.ok_left hs hI)

/-! ## Guarded runs -/

/-- Every action of the sequence is taken in a state that admits it. -/
def Guarded (step : σ → ι → Option σ) (guard : σ → ι → Prop) : σ → List ι → Prop
  | _, [] => True
  | s, l :: ls => guard s l ∧ ∀ u, step s l = some u → Guarded step guard u ls

theorem guarded_cons {guard : σ → ι → Prop} (hguard : guard s l) (hstep : step s l = some t)
    (hrest : Guarded step guard t ls) : Guarded step guard s (l :: ls) := by
  refine ⟨hguard, fun u hu ↦ ?_⟩
  obtain rfl := Option.some_inj.mp (hstep.symm.trans hu)
  exact hrest

theorem guarded_append {guard : σ → ι → Prop} (h : Run step ok s ls t)
    (hls : Guarded step guard s ls) (hms : Guarded step guard t ms) :
    Guarded step guard s (ls ++ ms) := by
  induction h with
  | nil _ => exact hms
  | cons _ hstep _ ih => exact guarded_cons hls.1 hstep (ih (hls.2 _ hstep) hms)

theorem guarded_of_forall {guard : σ → ι → Prop} :
    ∀ {ls : List ι} {s : σ}, (∀ l ∈ ls, ∀ s, guard s l) → Guarded step guard s ls := by
  intro ls
  induction ls with
  | nil => intro s _; trivial
  | cons l ls ih =>
    intro s h
    exact ⟨h l List.mem_cons_self s, fun u _ ↦ ih fun l' hl' ↦ h l' (List.mem_cons_of_mem _ hl')⟩

theorem Guarded.mono {guard guard' : σ → ι → Prop} (h : ∀ s l, guard s l → guard' s l) :
    ∀ {ls : List ι} {s : σ}, Guarded step guard s ls → Guarded step guard' s ls := by
  intro ls
  induction ls with
  | nil => intro s _; trivial
  | cons l ls ih => exact fun hls ↦ ⟨h _ l hls.1, fun u hu ↦ ih (hls.2 u hu)⟩

theorem invariant_of_guarded {guard : σ → ι → Prop} {I : σ → Prop}
    (hstep : ∀ ⦃s l t⦄, guard s l → step s l = some t → I s → I t) (h : Run step ok s ls t)
    (hguard : Guarded step guard s ls) (hI : I s) : I t := by
  induction h with
  | nil _ => exact hI
  | cons _ hs _ ih => exact ih (hguard.2 _ hs) (hstep hguard.1 hs hI)

/-- Every enabled action of the sequence does what `good` says. -/
def AllSteps (step : σ → ι → Option σ) (good : σ → ι → σ → Prop) : σ → List ι → Prop
  | _, [] => True
  | s, l :: ls => ∀ u, step s l = some u → good s l u ∧ AllSteps step good u ls

theorem allSteps_of_guarded {guard : σ → ι → Prop} {good : σ → ι → σ → Prop} {I : σ → Prop}
    (hstep : ∀ ⦃s l u⦄, I s → guard s l → step s l = some u → good s l u ∧ I u) :
    ∀ {ls : List ι} {s : σ}, I s → Guarded step guard s ls → AllSteps step good s ls := by
  intro ls
  induction ls with
  | nil => intro s _ _; trivial
  | cons l ls ih =>
    intro s hI hguard u hu
    obtain ⟨hgood, hI'⟩ := hstep hI hguard.1 hu
    exact ⟨hgood, ih hI' (hguard.2 u hu)⟩

/-- **Exactly the guarded runs are good.** A step that starts well does good precisely if its guard
holds, and then the next one starts well. -/
theorem allSteps_iff_guarded {guard : σ → ι → Prop} {good : σ → ι → σ → Prop} {I : σ → Prop}
    (hstep : ∀ ⦃s l u⦄, I s → step s l = some u →
      (good s l u ↔ guard s l) ∧ (good s l u → I u))
    (h : Run step ok s ls t) : I s → (AllSteps step good s ls ↔ Guarded step guard s ls) := by
  induction h with
  | nil _ => exact fun _ ↦ Iff.rfl
  | cons _ hs _ ih =>
    intro hI
    obtain ⟨hiff, hkeep⟩ := hstep hI hs
    constructor
    · intro hall
      obtain ⟨hgood, hrest⟩ := hall _ hs
      exact guarded_cons (hiff.mp hgood) hs ((ih (hkeep hgood)).mp hrest)
    · intro hguard u hu
      obtain rfl := Option.some_inj.mp (hs.symm.trans hu)
      have hgood := hiff.mpr hguard.1
      exact ⟨hgood, (ih (hkeep hgood)).mpr (hguard.2 _ hs)⟩

/-! ## Executing a run -/

/-- Take the actions in turn, checking the side condition at every state. -/
def exec (step : σ → ι → Option σ) (ok : σ → Prop) [DecidablePred ok] : σ → List ι → Option σ
  | s, [] => if ok s then some s else none
  | s, l :: ls => if ok s then (step s l).bind fun u ↦ exec step ok u ls else none

theorem of_exec [DecidablePred ok] :
    ∀ {ls : List ι} {s t : σ}, exec step ok s ls = some t → Run step ok s ls t := by
  intro ls
  induction ls with
  | nil =>
    intro s t h
    rw [exec, Option.ite_none_right_eq_some, Option.some_inj] at h
    obtain ⟨hok, rfl⟩ := h
    exact Run.nil hok
  | cons l ls ih =>
    intro s t h
    rw [exec, Option.ite_none_right_eq_some, Option.bind_eq_some_iff] at h
    obtain ⟨hok, u, hstep, hrest⟩ := h
    exact Run.cons hok hstep (ih hrest)

theorem exec_eq [DecidablePred ok] (h : Run step ok s ls t) : exec step ok s ls = some t := by
  induction h with
  | nil hok => exact if_pos hok
  | cons hok hstep _ ih => rw [exec, if_pos hok, hstep, Option.bind_some, ih]

/-- Check a guard along the sequence. -/
def checkGuard (step : σ → ι → Option σ) (guard : σ → ι → Bool) : σ → List ι → Bool
  | _, [] => true
  | s, l :: ls =>
      guard s l && match step s l with
        | none => true
        | some u => checkGuard step guard u ls

theorem guarded_of_checkGuard {guard : σ → ι → Bool} :
    ∀ {ls : List ι} {s : σ}, checkGuard step guard s ls = true →
      Guarded step (fun s l ↦ guard s l = true) s ls := by
  intro ls
  induction ls with
  | nil => intro s _; trivial
  | cons l ls ih =>
    intro s h
    rw [checkGuard, Bool.and_eq_true] at h
    refine ⟨h.1, fun u hu ↦ ih ?_⟩
    have hrest := h.2
    rw [hu] at hrest
    exact hrest

theorem AllSteps.last {good : σ → ι → σ → Prop} (h : Run step ok s ls t) :
    AllSteps step good s (ls ++ [l]) → step t l = some u → good t l u := by
  induction h with
  | nil _ => intro hall hu; exact (hall u hu).1
  | cons _ hs _ ih => intro hall hu; exact ih (hall _ hs).2 hu

theorem of_exec_map [DecidablePred ok] {α : Type*} {f : σ → α} {a : α} (h : Run step ok s ls t)
    (hexec : (exec step ok s ls).map f = some a) : f t = a := by
  rw [h.exec_eq, Option.map_some, Option.some_inj] at hexec
  exact hexec

end Run

end VortexMQ
