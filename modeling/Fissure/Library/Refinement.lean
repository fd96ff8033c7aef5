import Fissure.Library.Transition

/-!
# Refinement by an abstraction function

A machine refines another one when each of its steps either leaves the abstraction of the state
alone or is the step of the other machine on the event that the step puts out. Then every run is
explained by a run of the other machine on what the run puts out (`run_outputs_of_refines`), and
what is assumed of the one run is what is assumed of the other (`allSteps_outputs_of_refines`).
-/

set_option autoImplicit false

namespace Fissure.Library

variable {σ ε ρ α β γ : Type} {step : σ → ε → Option (σ × ρ)} {spec : α → β → Option (α × γ)}

/-- The step on `e` leaves the abstraction alone or is the step of `spec` on what `e` puts out. -/
def RefinesStep (spec : α → β → Option (α × γ)) (abs : σ → α) (out : σ → ε → Option β) (s : σ)
    (e : ε) (t : σ) : Prop :=
  match out s e with
  | none => abs t = abs s
  | some b => ∃ r, spec (abs s) b = some (abs t, r)

/-- What holds of every step holds of those of a run. -/
theorem allSteps_of_forall {A : σ → ε → Prop} (hA : ∀ s e, A s e) (s : σ) (es : List ε) :
    AllSteps step A s es := by
  induction es generalizing s with
  | nil => trivial
  | cons e es ih => exact ⟨hA s e, fun t _ _ => ih t⟩

/-- The refinement rule: when an invariant makes every step one of the other machine, a run that
meets the premise `A` is a run of the other machine on what it puts out. -/
theorem run_outputs_of_refines (Inv : σ → Prop) {A : σ → ε → Prop} (abs : σ → α)
    (out : σ → ε → Option β)
    (hkeep : ∀ s e t r, Inv s → A s e → step s e = some (t, r) → Inv t)
    (hrefines : ∀ s e t r, Inv s → A s e → step s e = some (t, r) → RefinesStep spec abs out s e t)
    {s t : σ} {es : List ε} (hs : Inv s) (hA : AllSteps step A s es)
    (h : run step s es = some t) :
    run spec (abs s) (outputs step out s es) = some (abs t) := by
  induction es generalizing s with
  | nil =>
    cases h
    rfl
  | cons e es ih =>
    obtain ⟨u, r, he, h⟩ := run_cons_eq_some.mp h
    have hrest := ih (hkeep s e u r hs hA.1 he) (hA.2 u r he) h
    have hstep := hrefines s e u r hs hA.1 he
    unfold RefinesStep at hstep
    rw [outputs_cons es he]
    cases hout : out s e with
    | none =>
      rw [hout] at hstep
      rw [← hstep]
      exact hrest
    | some b =>
      rw [hout] at hstep
      obtain ⟨r', hb⟩ := hstep
      rw [Option.toList_some, List.singleton_append, run_cons_some _ hb]
      exact hrest

/-- When the premise of a step is one of the step that it stands for, the premises of a run are
those of the run of the other machine. -/
theorem allSteps_outputs_of_refines (Inv : σ → Prop) {A : σ → ε → Prop} {B : α → β → Prop}
    (abs : σ → α) (out : σ → ε → Option β)
    (hkeep : ∀ s e t r, Inv s → A s e → step s e = some (t, r) → Inv t)
    (hrefines : ∀ s e t r, Inv s → A s e → step s e = some (t, r) → RefinesStep spec abs out s e t)
    (hB : ∀ s e b, A s e → out s e = some b → B (abs s) b) {s : σ} {es : List ε} (hs : Inv s)
    (hA : AllSteps step A s es) : AllSteps spec B (abs s) (outputs step out s es) := by
  induction es generalizing s with
  | nil => trivial
  | cons e es ih =>
    cases he : step s e with
    | none =>
      simp only [outputs, he]
      trivial
    | some next =>
      obtain ⟨u, r⟩ := next
      have hrest := ih (hkeep s e u r hs hA.1 he) (hA.2 u r he)
      have hstep := hrefines s e u r hs hA.1 he
      unfold RefinesStep at hstep
      rw [outputs_cons es he]
      cases hout : out s e with
      | none =>
        rw [hout] at hstep
        rw [← hstep]
        exact hrest
      | some b =>
        rw [hout] at hstep
        obtain ⟨r', hb⟩ := hstep
        refine ⟨hB s e b hA.1 hout, fun a r'' ha => ?_⟩
        rw [hb] at ha
        cases ha
        exact hrest

end Fissure.Library
