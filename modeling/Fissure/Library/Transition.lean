import Mathlib.Data.List.Basic
import Mathlib.Order.WellFounded

/-!
# Runs of a partial step function

A component is a step function `step : σ → ε → Option (σ × ρ)`: in state `s` the event `e`
leads to a new state and a reply, or (`none`) it stops the component. A run is the list of
the events the component handles, one after the other. `AllSteps` says that a property of
a state and the event handled in it holds at every step of a run, `AllStates` that a
property holds in every state between two events; both end where the run stops.
-/

set_option autoImplicit false

namespace Fissure.Library

variable {σ ε ρ : Type}

/-- The state a run ends in, `none` when some step stops the component. -/
def run (step : σ → ε → Option (σ × ρ)) : σ → List ε → Option σ
  | s, [] => some s
  | s, e :: es =>
    match step s e with
    | none => none
    | some (t, _) => run step t es

/-- `P s e` holds at every step of the run on `es` from `s`. -/
def AllSteps (step : σ → ε → Option (σ × ρ)) (P : σ → ε → Prop) : σ → List ε → Prop
  | _, [] => True
  | s, e :: es => P s e ∧ ∀ t r, step s e = some (t, r) → AllSteps step P t es

/-- `Q` holds in every state the run on `es` from `s` goes through. -/
def AllStates (step : σ → ε → Option (σ × ρ)) (Q : σ → Prop) : σ → List ε → Prop
  | s, [] => Q s
  | s, e :: es => Q s ∧ ∀ t r, step s e = some (t, r) → AllStates step Q t es

/-- `P s e` holds at some step of the run on `es` from `s`. -/
def Occurs (step : σ → ε → Option (σ × ρ)) (P : σ → ε → Prop) (s : σ) (es : List ε) : Prop :=
  ∃ xs e ys t, es = xs ++ e :: ys ∧ run step s xs = some t ∧ P t e

/-- `P` holds at some step of the run, and `Q` at that step or at a later one. -/
def OccursThen (step : σ → ε → Option (σ × ρ)) (P Q : σ → ε → Prop) (s : σ) (es : List ε) :
    Prop :=
  ∃ xs e ys t, es = xs ++ e :: ys ∧ run step s xs = some t ∧ P t e ∧ Occurs step Q t (e :: ys)

/-- What the steps of a run put out, in order; `out s e` is what the event `e` puts out in `s`. -/
def outputs {α : Type} (step : σ → ε → Option (σ × ρ)) (out : σ → ε → Option α) :
    σ → List ε → List α
  | _, [] => []
  | s, e :: es =>
    match step s e with
    | none => []
    | some (t, _) => (out s e).toList ++ outputs step out t es

/-- Every run from `s`, whichever way it goes, comes to a state with `Q`: before that it neither
gets stuck nor goes on for ever. -/
inductive AlwaysReaches (step : σ → ε → Option (σ × ρ)) (Q : σ → Prop) : σ → Prop
  | here {s : σ} (h : Q s) : AlwaysReaches step Q s
  | next {s : σ} (hgoes : ∃ e t r, step s e = some (t, r))
      (hall : ∀ e t r, step s e = some (t, r) → AlwaysReaches step Q t) : AlwaysReaches step Q s

variable {step : σ → ε → Option (σ × ρ)}

/-- The empty run stays where it is. -/
@[simp] theorem run_nil (s : σ) : run step s [] = some s := rfl

/-- A run that begins with a step that stops goes nowhere. -/
theorem run_cons_none {s : σ} {e : ε} (es : List ε) (h : step s e = none) :
    run step s (e :: es) = none := by
  simp [run, h]

/-- A run goes through the state its first step leads to. -/
theorem run_cons_some {s t : σ} {e : ε} {r : ρ} (es : List ε) (h : step s e = some (t, r)) :
    run step s (e :: es) = run step t es := by
  simp [run, h]

/-- A run that ends somewhere made its first step. -/
theorem run_cons_eq_some {s u : σ} {e : ε} {es : List ε} :
    run step s (e :: es) = some u ↔ ∃ t r, step s e = some (t, r) ∧ run step t es = some u := by
  constructor
  · intro h
    cases hs : step s e with
    | none => rw [run_cons_none es hs] at h; cases h
    | some p => exact ⟨p.1, p.2, rfl, by rwa [run_cons_some es hs] at h⟩
  · rintro ⟨t, r, hs, h⟩
    rwa [run_cons_some es hs]

/-- A run on `xs ++ ys` is a run on `xs` and then one on `ys`. -/
theorem run_append {s u : σ} {xs ys : List ε} :
    run step s (xs ++ ys) = some u ↔ ∃ t, run step s xs = some t ∧ run step t ys = some u := by
  induction xs generalizing s with
  | nil => simp
  | cons x xs ih =>
    simp only [List.cons_append, run_cons_eq_some, ih]
    constructor
    · rintro ⟨a, r, hs, t, ht, hu⟩
      exact ⟨t, ⟨a, r, hs, ht⟩, hu⟩
    · rintro ⟨t, ⟨a, r, hs, ht⟩, hu⟩
      exact ⟨a, r, hs, t, ht, hu⟩

/-- Whether a step property holds along a run can be decided by running. -/
instance decidableAllSteps {P : σ → ε → Prop} [∀ s e, Decidable (P s e)] :
    ∀ (s : σ) (es : List ε), Decidable (AllSteps step P s es)
  | _, [] => isTrue trivial
  | s, e :: es =>
    match h : step s e with
    | none => decidable_of_iff (P s e) (by simp [AllSteps, h])
    | some (t, _) =>
      have := decidableAllSteps (P := P) t es
      decidable_of_iff (P s e ∧ AllSteps step P t es) (by simp [AllSteps, h])

/-- The invariant rule: what every step keeps holds wherever a run ends. -/
theorem run_invariant {Inv : σ → Prop}
    (hstep : ∀ s e t r, Inv s → step s e = some (t, r) → Inv t)
    {s u : σ} {es : List ε} (hs : Inv s) (h : run step s es = some u) : Inv u := by
  induction es generalizing s with
  | nil => cases h; exact hs
  | cons e es ih =>
    obtain ⟨t, r, he, h⟩ := run_cons_eq_some.mp h
    exact ih (hstep s e t r hs he) h

/-- The invariant rule for runs on events that all meet `P`. -/
theorem run_invariant_of_forall (Inv : σ → Prop) {P : ε → Prop}
    (hstep : ∀ s e t r, Inv s → P e → step s e = some (t, r) → Inv t)
    {s u : σ} {es : List ε} (hs : Inv s) (hP : ∀ e ∈ es, P e)
    (h : run step s es = some u) : Inv u := by
  induction es generalizing s with
  | nil => cases h; exact hs
  | cons e es ih =>
    rw [List.forall_mem_cons] at hP
    obtain ⟨t, r, he, h⟩ := run_cons_eq_some.mp h
    exact ih (hstep s e t r hs hP.1 he) hP.2 h

/-- The progress rule: when an invariant always allows a step that keeps it and comes closer to a
goal, some run on events that all meet `P` reaches the goal. -/
theorem exists_run_of_progress {β : Type} [Preorder β] [WellFoundedLT β] (distance : σ → β)
    (Inv : σ → Prop) {P : ε → Prop} {Goal : σ → Prop}
    (hstep : ∀ s, Inv s → Goal s ∨
      ∃ e t r, P e ∧ step s e = some (t, r) ∧ Inv t ∧ distance t < distance s)
    {s : σ} (hs : Inv s) : ∃ es t, (∀ e ∈ es, P e) ∧ run step s es = some t ∧ Goal t := by
  induction hd : distance s using WellFoundedLT.induction generalizing s with
  | ind d ih =>
    rcases hstep s hs with hgoal | ⟨e, t, r, hP, he, ht, hlt⟩
    · exact ⟨[], s, nofun, rfl, hgoal⟩
    · obtain ⟨es, u, hes, hrun, hgoal⟩ := ih (distance t) (hd ▸ hlt) ht rfl
      exact ⟨e :: es, u, List.forall_mem_cons.mpr ⟨hP, hes⟩, by rwa [run_cons_some es he], hgoal⟩

/-- The termination rule: when an invariant always allows a step, and every step keeps it and comes
closer to a goal, every run reaches the goal. -/
theorem alwaysReaches_of_progress {β : Type} [Preorder β] [WellFoundedLT β] (distance : σ → β)
    (Inv : σ → Prop) {Q : σ → Prop}
    (hgoes : ∀ s, Inv s → Q s ∨ ∃ e t r, step s e = some (t, r))
    (hstep : ∀ s e t r, Inv s → step s e = some (t, r) → Inv t ∧ distance t < distance s)
    {s : σ} (hs : Inv s) : AlwaysReaches step Q s := by
  induction hd : distance s using WellFoundedLT.induction generalizing s with
  | ind d ih =>
    rcases hgoes s hs with hgoal | hgoes
    · exact .here hgoal
    · refine .next hgoes fun e t r he => ?_
      obtain ⟨ht, hlt⟩ := hstep s e t r hs he
      exact ih (distance t) (hd ▸ hlt) ht rfl

/-- When every run comes to a state with `Q`, some run does. -/
theorem AlwaysReaches.exists_run {Q : σ → Prop} {s : σ} (h : AlwaysReaches step Q s) :
    ∃ es t, run step s es = some t ∧ Q t := by
  induction h with
  | here hgoal => exact ⟨[], _, rfl, hgoal⟩
  | next hgoes _ ih =>
    obtain ⟨e, t, r, he⟩ := hgoes
    obtain ⟨es, u, hrun, hgoal⟩ := ih e t r he
    exact ⟨e :: es, u, by rwa [run_cons_some es he], hgoal⟩

/-- A step property that follows from an invariant and the premise `A` holds along every run whose
steps keep the invariant under that premise. -/
theorem allSteps_of_invariant (Inv : σ → Prop) {A P : σ → ε → Prop}
    (hstep : ∀ s e t r, Inv s → A s e → step s e = some (t, r) → Inv t)
    (hP : ∀ s e, Inv s → A s e → P s e) {s : σ} {es : List ε} (hs : Inv s)
    (hA : AllSteps step A s es) : AllSteps step P s es := by
  induction es generalizing s with
  | nil => trivial
  | cons e es ih =>
    exact ⟨hP s e hs hA.1, fun t r he => ih (hstep s e t r hs hA.1 he) (hA.2 t r he)⟩

/-- A state property that follows from an invariant holds in all states of a run whose steps keep
it. -/
theorem allStates_of_invariant (Inv : σ → Prop) {A : σ → ε → Prop} {Q : σ → Prop}
    (hstep : ∀ s e t r, Inv s → A s e → step s e = some (t, r) → Inv t)
    (hQ : ∀ s, Inv s → Q s) {s : σ} {es : List ε} (hs : Inv s)
    (hA : AllSteps step A s es) : AllStates step Q s es := by
  induction es generalizing s with
  | nil => exact hQ s hs
  | cons e es ih =>
    exact ⟨hQ s hs, fun t r he => ih (hstep s e t r hs hA.1 he) (hA.2 t r he)⟩

/-- Two step properties that agree wherever an invariant and the premise `A` hold agree
along every run that keeps `A`. -/
theorem allSteps_iff_of_invariant (Inv : σ → Prop) {A P Q : σ → ε → Prop}
    (hstep : ∀ s e t r, Inv s → A s e → step s e = some (t, r) → Inv t)
    (hiff : ∀ s e, Inv s → A s e → (P s e ↔ Q s e))
    {s : σ} {es : List ε} (hs : Inv s) (hA : AllSteps step A s es) :
    AllSteps step P s es ↔ AllSteps step Q s es := by
  induction es generalizing s with
  | nil => exact Iff.rfl
  | cons e es ih =>
    refine and_congr (hiff s e hs hA.1) (forall_congr' fun t => forall_congr' fun r => ?_)
    exact forall_congr' fun he => ih (hstep s e t r hs hA.1 he) (hA.2 t r he)

/-- A property of every state holds in the first one. -/
theorem AllStates.head {Q : σ → Prop} {s : σ} {es : List ε} (h : AllStates step Q s es) :
    Q s := by
  cases es with
  | nil => exact h
  | cons e es => exact h.1

/-- A property of every state of a run holds in the one it ends in. -/
theorem AllStates.last {Q : σ → Prop} {s t : σ} {es : List ε} (h : AllStates step Q s es)
    (ht : run step s es = some t) : Q t := by
  induction es generalizing s with
  | nil => cases ht; exact h
  | cons e es ih =>
    obtain ⟨u, r, he, ht⟩ := run_cons_eq_some.mp ht
    exact ih (h.2 u r he) ht

/-- A step that leads to states with `Q` meets `C`, so a run through such states does. -/
theorem allSteps_of_allStates {Q : σ → Prop} {C : σ → ε → Prop}
    (hstep : ∀ s e, (∀ t r, step s e = some (t, r) → Q t) → C s e) {s : σ} {es : List ε}
    (hQ : AllStates step Q s es) : AllSteps step C s es := by
  induction es generalizing s with
  | nil => trivial
  | cons e es ih =>
    exact ⟨hstep s e fun t r he => (hQ.2 t r he).head, fun t r he => ih (hQ.2 t r he)⟩

/-- What follows from a property of every step is a property of every step. -/
theorem AllSteps.mono {A B : σ → ε → Prop} (hAB : ∀ s e, A s e → B s e) {s : σ} {es : List ε}
    (hA : AllSteps step A s es) : AllSteps step B s es := by
  induction es generalizing s with
  | nil => trivial
  | cons e es ih => exact ⟨hAB s e hA.1, fun t r he => ih (hA.2 t r he)⟩

/-- Two step properties that hold along a run hold together. -/
theorem AllSteps.and {A B : σ → ε → Prop} {s : σ} {es : List ε} (hA : AllSteps step A s es)
    (hB : AllSteps step B s es) : AllSteps step (fun s e => A s e ∧ B s e) s es := by
  induction es generalizing s with
  | nil => trivial
  | cons e es ih => exact ⟨⟨hA.1, hB.1⟩, fun t r he => ih (hA.2 t r he) (hB.2 t r he)⟩

/-- A state property that holds at first, together with a step property `K`, holds all along
exactly the runs whose steps meet `C`, when one step does. -/
theorem allStates_and_allSteps_iff (Inv : σ → Prop) {Q : σ → Prop} {K C : σ → ε → Prop}
    (hstep : ∀ s e t r, Inv s → step s e = some (t, r) → Inv t)
    (hiff : ∀ s e, Inv s → Q s → ((K s e ∧ ∀ t r, step s e = some (t, r) → Q t) ↔ C s e))
    {s : σ} {es : List ε} (hs : Inv s) (hQ : Q s) :
    AllStates step Q s es ∧ AllSteps step K s es ↔ AllSteps step C s es := by
  induction es generalizing s with
  | nil => exact iff_of_true ⟨hQ, trivial⟩ trivial
  | cons e es ih =>
    constructor
    · rintro ⟨⟨-, hstates⟩, hK, hsteps⟩
      have hnext : ∀ t r, step s e = some (t, r) → Q t := fun t r he => (hstates t r he).head
      refine ⟨(hiff s e hs hQ).mp ⟨hK, hnext⟩, fun t r he => ?_⟩
      exact (ih (hstep s e t r hs he) (hnext t r he)).mp ⟨hstates t r he, hsteps t r he⟩
    · rintro ⟨hC, hsteps⟩
      obtain ⟨hK, hnext⟩ := (hiff s e hs hQ).mpr hC
      have hrest (t : σ) (r : ρ) (he : step s e = some (t, r)) :=
        (ih (hstep s e t r hs he) (hnext t r he)).mpr (hsteps t r he)
      exact ⟨⟨hQ, fun t r he => (hrest t r he).1⟩, hK, fun t r he => (hrest t r he).2⟩

/-- A state property that holds at first holds all along exactly the runs whose steps meet `C`,
when one step keeps it exactly if `C` does. -/
theorem allStates_iff_allSteps (Inv : σ → Prop) {Q : σ → Prop} {C : σ → ε → Prop}
    (hstep : ∀ s e t r, Inv s → step s e = some (t, r) → Inv t)
    (hiff : ∀ s e, Inv s → Q s → ((∀ t r, step s e = some (t, r) → Q t) ↔ C s e))
    {s : σ} {es : List ε} (hs : Inv s) (hQ : Q s) :
    AllStates step Q s es ↔ AllSteps step C s es := by
  induction es generalizing s with
  | nil => exact iff_of_true hQ trivial
  | cons e es ih =>
    constructor
    · rintro ⟨-, hstates⟩
      have hnext : ∀ t r, step s e = some (t, r) → Q t := fun t r he => (hstates t r he).head
      refine ⟨(hiff s e hs hQ).mp hnext, fun t r he => ?_⟩
      exact (ih (hstep s e t r hs he) (hnext t r he)).mp (hstates t r he)
    · rintro ⟨hC, hsteps⟩
      have hnext := (hiff s e hs hQ).mpr hC
      exact ⟨hQ, fun t r he => (ih (hstep s e t r hs he) (hnext t r he)).mpr (hsteps t r he)⟩

/-- A property of every step of `xs ++ ys` holds at every step of `xs`. -/
theorem AllSteps.left {P : σ → ε → Prop} {s : σ} {xs ys : List ε}
    (h : AllSteps step P s (xs ++ ys)) : AllSteps step P s xs := by
  induction xs generalizing s with
  | nil => trivial
  | cons x xs ih => exact ⟨h.1, fun t r hx => ih (h.2 t r hx)⟩

/-- A property of every step of `xs ++ ys` holds at every step of `ys`. -/
theorem AllSteps.right {P : σ → ε → Prop} {s t : σ} {xs ys : List ε}
    (h : AllSteps step P s (xs ++ ys)) (ht : run step s xs = some t) : AllSteps step P t ys := by
  induction xs generalizing s with
  | nil =>
    cases ht
    exact h
  | cons x xs ih =>
    obtain ⟨u, r, hx, ht⟩ := run_cons_eq_some.mp ht
    exact ih (h.2 u r hx) ht

/-- A property of every step of `xs ++ e :: ys` holds at the step `e`. -/
theorem AllSteps.at_split {P : σ → ε → Prop} {s t : σ} {xs ys : List ε} {e : ε}
    (h : AllSteps step P s (xs ++ e :: ys)) (ht : run step s xs = some t) : P t e := by
  induction xs generalizing s with
  | nil => cases ht; exact h.1
  | cons x xs ih =>
    obtain ⟨a, r, hx, ht⟩ := run_cons_eq_some.mp ht
    exact ih (h.2 a r hx) ht

/-- The forward simulation rule: when each step is matched by a step of another machine on the
event that `view` makes of it, a run is matched by a run. -/
theorem run_forward {α ε' : Type} {other : α → ε' → Option α} (view : ε → Option ε')
    (R : σ → α → Prop)
    (hstep : ∀ s a e x t r, R s a → view e = some x → step s e = some (t, r) →
      ∃ b, other a x = some b ∧ R t b)
    {s t : σ} {a : α} {es : List ε} (hR : R s a) (hview : ∀ e ∈ es, (view e).isSome = true)
    (h : run step s es = some t) : ∃ b, (es.filterMap view).foldlM other a = some b ∧ R t b := by
  induction es generalizing s a with
  | nil => cases h; exact ⟨a, rfl, hR⟩
  | cons e es ih =>
    rw [List.forall_mem_cons] at hview
    obtain ⟨x, hx⟩ := Option.isSome_iff_exists.mp hview.1
    obtain ⟨u, r, he, h⟩ := run_cons_eq_some.mp h
    obtain ⟨b, hb, hR⟩ := hstep s a e x u r hR hx he
    obtain ⟨c, hc, hR⟩ := ih hR hview.2 h
    refine ⟨c, ?_, hR⟩
    rw [List.filterMap_cons_some hx, List.foldlM_cons, hb]
    exact hc

/-- The backward simulation rule: when each step of another machine on the event that `view` makes
of an event is matched by a step on that event, a run is matched by a run. -/
theorem run_backward {α ε' : Type} {other : α → ε' → Option α} (view : ε → Option ε')
    (R : σ → α → Prop)
    (hstep : ∀ s a e x b, R s a → view e = some x → other a x = some b →
      ∃ t r, step s e = some (t, r) ∧ R t b)
    {s : σ} {a b : α} {es : List ε} (hR : R s a) (hview : ∀ e ∈ es, (view e).isSome = true)
    (h : (es.filterMap view).foldlM other a = some b) : ∃ t, run step s es = some t ∧ R t b := by
  induction es generalizing s a with
  | nil => cases h; exact ⟨s, rfl, hR⟩
  | cons e es ih =>
    rw [List.forall_mem_cons] at hview
    obtain ⟨x, hx⟩ := Option.isSome_iff_exists.mp hview.1
    rw [List.filterMap_cons_some hx, List.foldlM_cons, Option.bind_eq_bind,
      Option.bind_eq_some_iff] at h
    obtain ⟨c, hc, h⟩ := h
    obtain ⟨u, r, he, hR⟩ := hstep s a e x c hR hx hc
    obtain ⟨t, ht, hR⟩ := ih hR hview.2 h
    exact ⟨t, by rwa [run_cons_some es he], hR⟩

/-- What holds at the first step occurs. -/
theorem occurs_head {P : σ → ε → Prop} {s : σ} {e : ε} {es : List ε} (h : P s e) :
    Occurs step P s (e :: es) :=
  ⟨[], e, es, s, rfl, rfl, h⟩

/-- A run puts out what its first step does and then what the rest does. -/
theorem outputs_cons {α : Type} {out : σ → ε → Option α} {s t : σ} {e : ε} {r : ρ}
    (es : List ε) (h : step s e = some (t, r)) :
    outputs step out s (e :: es) = (out s e).toList ++ outputs step out t es := by
  simp [outputs, h]

/-- Two runs, one after the other, put out what the first does and then what the second does. -/
theorem outputs_append {α : Type} {out : σ → ε → Option α} {s t : σ} {xs : List ε} (ys : List ε)
    (h : run step s xs = some t) :
    outputs step out s (xs ++ ys) = outputs step out s xs ++ outputs step out t ys := by
  induction xs generalizing s with
  | nil =>
    cases h
    rfl
  | cons x xs ih =>
    obtain ⟨u, r, hx, h⟩ := run_cons_eq_some.mp h
    rw [List.cons_append, outputs_cons _ hx, outputs_cons _ hx, ih h, List.append_assoc]

/-- When a step puts out only what is not done before it and done after it, and what is done stays
done, a run puts nothing out twice, and what it puts out is done at its end. -/
theorem outputs_nodup {α : Type} (out : σ → ε → Option α) (Done : σ → α → Prop)
    (hout : ∀ s e t r a, step s e = some (t, r) → out s e = some a → ¬ Done s a ∧ Done t a)
    (hkeep : ∀ s e t r a, step s e = some (t, r) → Done s a → Done t a)
    {s u : σ} {es : List ε} (h : run step s es = some u) :
    (outputs step out s es).Nodup ∧
      ∀ a ∈ outputs step out s es, ¬ Done s a ∧ Done u a := by
  induction es generalizing s with
  | nil => exact ⟨List.nodup_nil, nofun⟩
  | cons e es ih =>
    obtain ⟨t, r, he, h⟩ := run_cons_eq_some.mp h
    obtain ⟨hnodup, hall⟩ := ih h
    rw [outputs_cons es he]
    have hfresh (a : α) (ha : a ∈ outputs step out t es) : ¬ Done s a ∧ Done u a :=
      ⟨fun hdone => (hall a ha).1 (hkeep s e t r a he hdone), (hall a ha).2⟩
    cases ha : out s e with
    | none => exact ⟨hnodup, hfresh⟩
    | some a =>
      obtain ⟨hnot, hdone⟩ := hout s e t r a he ha
      have hend : Done u a :=
        run_invariant (fun s e t r hs he => hkeep s e t r a he hs) hdone h
      constructor
      · exact List.nodup_cons.mpr ⟨fun hmem => (hall a hmem).1 hdone, hnodup⟩
      · exact List.forall_mem_cons.mpr ⟨⟨hnot, hend⟩, hfresh⟩

/-- What holds of everything that the events of a run can put out holds of what it puts out. -/
theorem forall_outputs {α : Type} {out : σ → ε → Option α} {P : α → Prop} {s : σ} {es : List ε}
    (h : ∀ e ∈ es, ∀ s a, out s e = some a → P a) : ∀ a ∈ outputs step out s es, P a := by
  induction es generalizing s with
  | nil => exact nofun
  | cons e es ih =>
    rw [List.forall_mem_cons] at h
    intro a ha
    unfold outputs at ha
    split at ha
    · cases ha
    · rcases List.mem_append.mp ha with ha | ha
      · exact h.1 s a (Option.mem_toList.mp ha)
      · exact ih h.2 a ha

/-- A quantity that every step changes by what it puts out is changed by a run by all of it. -/
theorem outputs_foldl {α β : Type} (out : σ → ε → Option α) (quantity : σ → β)
    (f : β → α → β) (Inv : σ → Prop) (hkeep : ∀ s e t r, Inv s → step s e = some (t, r) → Inv t)
    (hout : ∀ s e t r, Inv s → step s e = some (t, r) →
      quantity t = (out s e).toList.foldl f (quantity s))
    {s u : σ} {es : List ε} (hs : Inv s) (h : run step s es = some u) :
    quantity u = (outputs step out s es).foldl f (quantity s) := by
  induction es generalizing s with
  | nil =>
    cases h
    rfl
  | cons e es ih =>
    obtain ⟨t, r, he, h⟩ := run_cons_eq_some.mp h
    rw [ih (hkeep s e t r hs he) h, hout s e t r hs he, outputs_cons es he, List.foldl_append]

/-- What occurs after the first step occurs. -/
theorem Occurs.cons {P : σ → ε → Prop} {s t : σ} {e : ε} {r : ρ} {es : List ε}
    (h : Occurs step P t es) (he : step s e = some (t, r)) : Occurs step P s (e :: es) := by
  obtain ⟨xs, x, ys, u, rfl, hu, hP⟩ := h
  exact ⟨e :: xs, x, ys, u, rfl, by rwa [run_cons_some xs he], hP⟩

/-- Nothing occurs in an empty run. -/
theorem not_occurs_nil {P : σ → ε → Prop} (s : σ) : ¬ Occurs step P s [] := by
  rintro ⟨xs, e, ys, t, hnil, -⟩
  simp at hnil

/-- What occurs in a run occurs at its first step or after it. -/
theorem occurs_cons_iff {P : σ → ε → Prop} {s t : σ} {e : ε} {r : ρ} {es : List ε}
    (he : step s e = some (t, r)) :
    Occurs step P s (e :: es) ↔ P s e ∨ Occurs step P t es := by
  constructor
  · rintro ⟨xs, x, ys, u, heq, hu, hP⟩
    cases xs with
    | nil =>
      obtain ⟨rfl, rfl⟩ := List.cons.inj heq
      cases hu
      exact Or.inl hP
    | cons y xs =>
      obtain ⟨rfl, rfl⟩ := List.cons.inj heq
      rw [run_cons_some xs he] at hu
      exact Or.inr ⟨xs, x, ys, u, rfl, hu, hP⟩
  · rintro (h | h)
    · exact occurs_head h
    · exact h.cons he

/-- The invariant rule for an invariant that mentions what has happened: when a step keeps it with
what the step does added to the history, it holds at the end of a run with all that occurs in it. -/
theorem run_history {ι : Type} {P : ι → σ → ε → Prop} (Inv : (ι → Prop) → σ → Prop)
    (hstep : ∀ H s e t r, Inv H s → step s e = some (t, r) → Inv (fun i => H i ∨ P i s e) t)
    {H : ι → Prop} {s u : σ} {es : List ε} (hs : Inv H s) (h : run step s es = some u) :
    Inv (fun i => H i ∨ Occurs step (P i) s es) u := by
  induction es generalizing s H with
  | nil =>
    cases h
    have hempty : (fun i => H i ∨ Occurs step (P i) u []) = H := by
      funext i
      exact propext (or_iff_left (not_occurs_nil u))
    rwa [hempty]
  | cons e es ih =>
    obtain ⟨t, r, he, h⟩ := run_cons_eq_some.mp h
    have hrest := ih (hstep H s e t r hs he) h
    have hcons : (fun i => (H i ∨ P i s e) ∨ Occurs step (P i) t es) =
        fun i => H i ∨ Occurs step (P i) s (e :: es) := by
      funext i
      rw [occurs_cons_iff he, or_assoc]
    rwa [hcons] at hrest

/-- What occurs in the second part of a run occurs. -/
theorem Occurs.append {P : σ → ε → Prop} {s t : σ} {xs ys : List ε}
    (h : Occurs step P t ys) (ht : run step s xs = some t) : Occurs step P s (xs ++ ys) := by
  induction xs generalizing s with
  | nil => cases ht; exact h
  | cons x xs ih =>
    obtain ⟨a, r, hx, ht⟩ := run_cons_eq_some.mp ht
    exact (ih ht).cons hx

/-- What holds at the first step and is followed by `Q` occurs so. -/
theorem occursThen_head {P Q : σ → ε → Prop} {s : σ} {e : ε} {es : List ε} (h : P s e)
    (hQ : Occurs step Q s (e :: es)) : OccursThen step P Q s (e :: es) :=
  ⟨[], e, es, s, rfl, rfl, h, hQ⟩

/-- What occurs so after the first step occurs so. -/
theorem OccursThen.cons {P Q : σ → ε → Prop} {s t : σ} {e : ε} {r : ρ} {es : List ε}
    (h : OccursThen step P Q t es) (he : step s e = some (t, r)) :
    OccursThen step P Q s (e :: es) := by
  obtain ⟨xs, x, ys, u, rfl, hu, hP, hQ⟩ := h
  exact ⟨e :: xs, x, ys, u, rfl, by rwa [run_cons_some xs he], hP, hQ⟩

end Fissure.Library
