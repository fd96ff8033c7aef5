import Mathlib.Data.List.Basic
import Mathlib.Logic.Function.Basic

/-!
# Interleavings of independent machines

A family of machines runs side by side, and each event drives one of them. A run of the family is
a run of each machine on its own events (`foldlM_productStep_eq_some_iff`), so it depends only on
the order in which each machine sees its own events (`foldlM_productStep_congr`).
-/

set_option autoImplicit false

namespace Fissure.Library

variable {ι : Type} [DecidableEq ι] {σ ε : ι → Type}

/-- The event `⟨i, e⟩` drives machine `i`. -/
def productStep (step : ∀ i, σ i → ε i → Option (σ i)) (s : ∀ i, σ i) (e : Σ i, ε i) :
    Option (∀ i, σ i) :=
  (step e.1 (s e.1) e.2).map (Function.update s e.1)

/-- The event as one of machine `i`. -/
def eventOf (i : ι) (e : Σ i, ε i) : Option (ε i) :=
  if h : e.1 = i then some (h ▸ e.2) else none

/-- The events of machine `i`, in order. -/
def eventsOf (i : ι) (es : List (Σ i, ε i)) : List (ε i) := es.filterMap (eventOf i)

theorem eventsOf_cons_self (i : ι) (e : ε i) (es : List (Σ i, ε i)) :
    eventsOf i (⟨i, e⟩ :: es) = e :: eventsOf i es := by
  simp [eventsOf, eventOf]

theorem eventsOf_cons_of_ne {i j : ι} (h : j ≠ i) (e : ε j) (es : List (Σ i, ε i)) :
    eventsOf i (⟨j, e⟩ :: es) = eventsOf i es := by
  simp [eventsOf, eventOf, h]

variable {step : ∀ i, σ i → ε i → Option (σ i)}

/-- A run of the family is a run of each machine on its own events. The induction is on the
events: the first one moves its machine and leaves the others where they are. -/
theorem foldlM_productStep_eq_some_iff {s t : ∀ i, σ i} {es : List (Σ i, ε i)} :
    es.foldlM (productStep step) s = some t ↔
      ∀ i, (eventsOf i es).foldlM (step i) (s i) = some (t i) := by
  induction es generalizing s with
  | nil =>
    constructor
    · rintro ⟨⟩ i
      rfl
    · intro h
      have heq : s = t := funext fun i => Option.some.inj (h i)
      rw [heq]
      rfl
  | cons e es ih =>
    obtain ⟨j, e⟩ := e
    rw [List.foldlM_cons, Option.bind_eq_bind, Option.bind_eq_some_iff]
    simp only [ih, productStep, Option.map_eq_some_iff]
    constructor
    · rintro ⟨u, ⟨c, hc, rfl⟩, h⟩ i
      by_cases hij : j = i
      · subst hij
        rw [eventsOf_cons_self, List.foldlM_cons, hc]
        simpa using h j
      · rw [eventsOf_cons_of_ne hij]
        simpa [Function.update_of_ne (Ne.symm hij)] using h i
    · intro h
      have hj := h j
      rw [eventsOf_cons_self, List.foldlM_cons, Option.bind_eq_bind,
        Option.bind_eq_some_iff] at hj
      obtain ⟨c, hc, hj⟩ := hj
      refine ⟨_, ⟨c, hc, rfl⟩, fun i => ?_⟩
      by_cases hij : j = i
      · subst hij
        rwa [Function.update_self]
      · rw [Function.update_of_ne (Ne.symm hij)]
        have hi := h i
        rwa [eventsOf_cons_of_ne hij] at hi

/-- Only the order in which each machine sees its own events matters. -/
theorem foldlM_productStep_congr {s t : ∀ i, σ i} {es es' : List (Σ i, ε i)}
    (h : ∀ i, eventsOf i es = eventsOf i es') (ht : es.foldlM (productStep step) s = some t) :
    es'.foldlM (productStep step) s = some t := by
  rw [foldlM_productStep_eq_some_iff] at ht ⊢
  intro i
  rw [← h i]
  exact ht i

end Fissure.Library
