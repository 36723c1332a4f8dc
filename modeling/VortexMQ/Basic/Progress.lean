import VortexMQ.Basic.Run

/-!
# Progress along runs

An invariant says what a run cannot leave. Here it is left in one way only: as long as `P` holds, a
step keeps `P` or leads to `Q`. A run that starts in `P` and does not end in `P` has then been
through `Q`, which is how "sooner or later" is said of finite runs: whatever is assumed of the end
of the run, that operations have finished or that time has passed, is there to exclude `P`.
-/

namespace VortexMQ

namespace Run

variable {σ ι : Type*} {step : σ → ι → Option σ} {ok ok' : σ → Prop} {Q : σ → Prop} {s t u : σ}
  {ls ms : List ι}

theorem ok_right (h : Run step ok s ls t) : ok t := by
  induction h with
  | nil h => exact h
  | cons _ _ _ ih => exact ih

theorem mono (hok : ∀ s, ok s → ok' s) (h : Run step ok s ls t) : Run step ok' s ls t := by
  induction h with
  | nil h => exact Run.nil (hok _ h)
  | cons h hstep _ ih => exact Run.cons (hok _ h) hstep ih

theorem strengthen (h : Run step ok s ls t) :
    (∀ front back u, ls = front ++ back → Run step ok s front u → ok' u) →
      Run step ok' s ls t := by
  induction h with
  | nil h => exact fun hok' ↦ Run.nil (hok' [] [] _ rfl (Run.nil h))
  | @cons s u t l ls hok hstep hrest ih =>
    intro hok'
    refine Run.cons (hok' [] (l :: ls) s rfl (Run.nil hok)) hstep (ih fun front back w heq hw ↦ ?_)
    exact hok' (l :: front) back w (congrArg (l :: ·) heq) (Run.cons hok hstep hw)

/-- Somewhere along the run, its ends included, the state is in `Q`. -/
def Meets (step : σ → ι → Option σ) (ok Q : σ → Prop) (s : σ) (ls : List ι) (t : σ) : Prop :=
  ∃ front back u, ls = front ++ back ∧ Run step ok s front u ∧ Run step ok u back t ∧ Q u

theorem Meets.mono (hok : ∀ s, ok s → ok' s) :
    Meets step ok Q s ls t → Meets step ok' Q s ls t := by
  rintro ⟨front, back, w, rfl, hfront, hback, hQ⟩
  exact ⟨front, back, w, rfl, hfront.mono hok, hback.mono hok, hQ⟩

theorem Meets.append_right (h : Run step ok t ms u) :
    Meets step ok Q s ls t → Meets step ok Q s (ls ++ ms) u := by
  rintro ⟨front, back, w, rfl, hfront, hback, hQ⟩
  exact ⟨front, back ++ ms, w, List.append_assoc .., hfront, hback.append h, hQ⟩

theorem Meets.append_left (h : Run step ok s ls t) :
    Meets step ok Q t ms u → Meets step ok Q s (ls ++ ms) u := by
  rintro ⟨front, back, w, rfl, hfront, hback, hQ⟩
  exact ⟨ls ++ front, back, w, (List.append_assoc ..).symm, h.append hfront, hback, hQ⟩

/-- **The progress rule.** If a step leaves `P` only for `Q`, then a run from `P` is in `P` at its
end or has been in `Q`. As in the invariant rule, `P` may mention the actions taken so far. -/
theorem progress {P : List ι → σ → Prop} {good : ι → Prop}
    (hstep : ∀ ⦃ls s l t⦄, ok s → ok t → good l → step s l = some t → P ls s →
      P (ls ++ [l]) t ∨ Q t)
    (h : Run step ok s ls t) (hgood : ∀ l ∈ ls, good l) (hP : P [] s) :
    P ls t ∨ Meets step ok Q s ls t := by
  refine (h.history (I := fun ls u ↦ (∀ l ∈ ls, good l) →
    Run step ok s ls u ∧ (P ls u ∨ Meets step ok Q s ls u)) ?_
    (fun _ ↦ ⟨Run.nil h.ok_left, Or.inl hP⟩) hgood).2
  intro ls u l v hu hv hl hI hgood
  obtain ⟨hrun, hor⟩ := hI fun k hk ↦ hgood k (List.mem_append_left _ hk)
  have hlast : Run step ok u [l] v := Run.cons hu hl (Run.nil hv)
  refine ⟨hrun.append hlast, ?_⟩
  rcases hor with hP | hmeets
  · have hgoodl := hgood l (List.mem_append_right _ (List.mem_singleton_self l))
    rcases hstep hu hv hgoodl hl hP with hP' | hQ
    · exact Or.inl hP'
    · exact Or.inr ⟨ls ++ [l], [], v, (List.append_nil _).symm, hrun.append hlast, Run.nil hv, hQ⟩
  · exact Or.inr (hmeets.append_right hlast)

end Run

end VortexMQ
