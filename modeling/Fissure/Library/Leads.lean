import Fissure.Library.Transition

/-!
# What can be brought about

`Leads step A s t` says that some run whose steps all meet `A` goes from `s` to `t`. Such runs are
put together one after the other, and `leads_of_progress` builds one to a goal out of pieces that
each come closer to it.
-/

set_option autoImplicit false

namespace Fissure.Library

variable {σ ε ρ : Type} {step : σ → ε → Option (σ × ρ)} {A B : σ → ε → Prop} {s t u : σ}

/-- A run whose steps all meet `A` goes from `s` to `t`. -/
def Leads (step : σ → ε → Option (σ × ρ)) (A : σ → ε → Prop) (s t : σ) : Prop :=
  ∃ es, AllSteps step A s es ∧ run step s es = some t

theorem Leads.refl (s : σ) : Leads step A s s := ⟨[], trivial, rfl⟩

/-- A step comes first. -/
theorem Leads.head {e : ε} {r : ρ} (hA : A s e) (he : step s e = some (t, r))
    (h : Leads step A t u) : Leads step A s u := by
  obtain ⟨es, hes, hrun⟩ := h
  refine ⟨e :: es, ⟨hA, fun t' r' he' => ?_⟩, by rwa [run_cons_some es he]⟩
  rw [he] at he'
  cases he'
  exact hes

theorem leads_of_step {e : ε} {r : ρ} (hA : A s e) (he : step s e = some (t, r)) :
    Leads step A s t :=
  .head hA he (.refl t)

/-- Runs whose steps meet `A` are runs whose steps meet what follows from it. -/
theorem Leads.mono (hAB : ∀ s e, A s e → B s e) (h : Leads step A s t) : Leads step B s t := by
  obtain ⟨es, hes, hrun⟩ := h
  exact ⟨es, hes.mono hAB, hrun⟩

/-- What every step that meets `A` keeps is kept. -/
theorem Leads.invariant (Inv : σ → Prop)
    (hkeep : ∀ s e t r, Inv s → A s e → step s e = some (t, r) → Inv t) (hs : Inv s)
    (h : Leads step A s t) : Inv t := by
  obtain ⟨es, hes, hrun⟩ := h
  induction es generalizing s with
  | nil =>
    cases hrun
    exact hs
  | cons e es ih =>
    obtain ⟨v, r, he, hrun⟩ := run_cons_eq_some.mp hrun
    exact ih (hkeep s e v r hs hes.1 he) (hes.2 v r he) hrun

theorem Leads.trans (h : Leads step A s t) (h' : Leads step A t u) : Leads step A s u := by
  obtain ⟨es, hes, hrun⟩ := h
  induction es generalizing s with
  | nil =>
    cases hrun
    exact h'
  | cons e es ih =>
    obtain ⟨v, r, he, hrun⟩ := run_cons_eq_some.mp hrun
    exact .head hes.1 he (ih (hes.2 v r he) hrun)

/-- The progress rule: when an invariant holds, the goal is reached or a state in which the
invariant holds can be brought about that is the goal or closer to it. -/
theorem leads_of_progress {β : Type} [Preorder β] [WellFoundedLT β] (distance : σ → β)
    (Inv : σ → Prop) {Goal : σ → Prop}
    (hstep : ∀ s, Inv s → Goal s ∨
      ∃ t, Leads step A s t ∧ Inv t ∧ (Goal t ∨ distance t < distance s))
    (hs : Inv s) : ∃ t, Leads step A s t ∧ Inv t ∧ Goal t := by
  induction hd : distance s using WellFoundedLT.induction generalizing s with
  | ind d ih =>
    rcases hstep s hs with hgoal | ⟨t, hst, ht, hgoal | hlt⟩
    · exact ⟨s, .refl s, hs, hgoal⟩
    · exact ⟨t, hst, ht, hgoal⟩
    · obtain ⟨u, htu, hu, hgoal⟩ := ih (distance t) (hd ▸ hlt) ht rfl
      exact ⟨u, hst.trans htu, hu, hgoal⟩

end Fissure.Library
