import Mathlib.Data.List.Basic

/-!
# Paths read step by step

A path is a list of steps, each of which goes up to the parent or down to a name. Lexical
normalisation walks the steps from a location: going up drops the innermost name, and where there
is none it stays, for a path from the root, or counts a level above the start. `depthAfter` is how
deep below its start a walk ends, if it never goes above it. A walk that ends deeper than it began
without going above its start ends below it, wherever it starts (`below_walk`), and only such a
walk ends below a start with a name of its own (`below_walk_iff`).
-/

set_option autoImplicit false

namespace Fissure.Library

variable {ν : Type}

/-- One step of a path. -/
inductive PathStep (ν : Type)
  | up
  | down (name : ν)
  deriving DecidableEq, Repr

/-- Where a walk has got to: the levels above its start, and the names from there, innermost
first. -/
structure Location (ν : Type) where
  levelsUp : ℕ
  names : List ν
  deriving DecidableEq, Repr

namespace Location

/-- One step from a location. The root is its own parent. -/
def move (rooted : Bool) : Location ν → PathStep ν → Location ν
  | l, .down name => { l with names := name :: l.names }
  | ⟨levelsUp, _ :: names⟩, .up => ⟨levelsUp, names⟩
  | ⟨levelsUp, []⟩, .up => ⟨if rooted then levelsUp else levelsUp + 1, []⟩

/-- The location after a list of steps. -/
def walk (rooted : Bool) (l : Location ν) (steps : List (PathStep ν)) : Location ν :=
  steps.foldl (move rooted) l

/-- The location `l` lies strictly below `base`. -/
def Below (l base : Location ν) : Prop :=
  l.levelsUp = base.levelsUp ∧ ∃ inner, inner ≠ [] ∧ l.names = inner ++ base.names

@[simp] theorem walk_nil (rooted : Bool) (l : Location ν) : walk rooted l [] = l := rfl

@[simp] theorem walk_cons (rooted : Bool) (l : Location ν) (step : PathStep ν)
    (steps : List (PathStep ν)) :
    walk rooted l (step :: steps) = walk rooted (move rooted l step) steps := rfl

/-- A walk along two paths is a walk along the second from where the first one ends. -/
theorem walk_append (rooted : Bool) (l : Location ν) (steps steps' : List (PathStep ν)) :
    walk rooted l (steps ++ steps') = walk rooted (walk rooted l steps) steps' :=
  List.foldl_append

end Location

/-- How deep below its start a walk ends that is at depth `d`, `none` when it goes above the
start. -/
def depthAfter : ℕ → List (PathStep ν) → Option ℕ
  | d, [] => some d
  | d, .down _ :: steps => depthAfter (d + 1) steps
  | 0, .up :: _ => none
  | d + 1, .up :: steps => depthAfter d steps

namespace Location

/-- A walk that never goes above its start keeps the names from there. The induction is on the
steps; `inner` are the names below the start. -/
theorem walk_of_depthAfter {steps : List (PathStep ν)} {inner : List ν} {d : ℕ}
    (h : depthAfter inner.length steps = some d) (rooted : Bool) (base : Location ν) :
    ∃ inner' : List ν, inner'.length = d ∧
      walk rooted ⟨base.levelsUp, inner ++ base.names⟩ steps =
        ⟨base.levelsUp, inner' ++ base.names⟩ := by
  induction steps generalizing inner with
  | nil => exact ⟨inner, Option.some.inj h, rfl⟩
  | cons step steps ih =>
    cases step with
    | down name => exact @ih (name :: inner) h
    | up =>
      cases inner with
      | nil => cases h
      | cons name inner => exact @ih inner h

/-- A name that is not there and that no step goes down to does not turn up. -/
theorem notMem_names_walk {steps : List (PathStep ν)} {name : ν} (rooted : Bool)
    {l : Location ν} (hl : name ∉ l.names) (hsteps : PathStep.down name ∉ steps) :
    name ∉ (walk rooted l steps).names := by
  induction steps generalizing l with
  | nil => exact hl
  | cons step steps ih =>
    rw [List.mem_cons, not_or] at hsteps
    refine ih ?_ hsteps.2
    cases step with
    | down other =>
      have hne : name ≠ other := fun h => hsteps.1 (h ▸ rfl)
      simpa [move] using And.intro hne hl
    | up =>
      obtain ⟨levelsUp, names⟩ := l
      cases names with
      | nil => exact hl
      | cons other names => exact fun hmem => hl (List.mem_cons_of_mem _ hmem)

/-- A walk that goes above its start loses the name of the start, when no step goes down to it. -/
theorem notMem_names_of_depthAfter {steps : List (PathStep ν)} {inner : List ν} {name : ν}
    (h : depthAfter inner.length steps = none) (rooted : Bool) {levelsUp : ℕ}
    (hinner : name ∉ inner) (hsteps : PathStep.down name ∉ steps) :
    name ∉ (walk rooted ⟨levelsUp, inner ++ [name]⟩ steps).names := by
  induction steps generalizing inner with
  | nil => cases h
  | cons step steps ih =>
    rw [List.mem_cons, not_or] at hsteps
    cases step with
    | down other =>
      have hne : name ≠ other := fun h => hsteps.1 (h ▸ rfl)
      exact @ih (other :: inner) h (by simpa using And.intro hne hinner) hsteps.2
    | up =>
      cases inner with
      | nil =>
        rw [List.nil_append, walk_cons]
        exact notMem_names_walk rooted List.not_mem_nil hsteps.2
      | cons other inner =>
        exact @ih inner h (fun hmem => hinner (List.mem_cons_of_mem _ hmem)) hsteps.2

/-- Wherever it starts, a walk that never goes above its start and ends deeper ends below it. -/
theorem below_walk {steps : List (PathStep ν)} {d : ℕ} (h : depthAfter 0 steps = some d)
    (hd : 0 < d) (rooted : Bool) (base : Location ν) : (walk rooted base steps).Below base := by
  obtain ⟨inner, hlen, hwalk⟩ := @walk_of_depthAfter ν steps [] d h rooted base
  rw [List.nil_append] at hwalk
  rw [hwalk]
  exact ⟨rfl, inner, List.length_pos_iff.mp (hlen ▸ hd), rfl⟩

/-- From a start with a name of its own, only a walk that never goes above it and ends deeper ends
below it. -/
theorem below_walk_iff {steps : List (PathStep ν)} {name : ν} (rooted : Bool) (levelsUp : ℕ)
    (hsteps : PathStep.down name ∉ steps) :
    (walk rooted ⟨levelsUp, [name]⟩ steps).Below ⟨levelsUp, [name]⟩ ↔
      ∃ d, 0 < d ∧ depthAfter 0 steps = some d := by
  constructor
  · rintro ⟨-, inner, hinner, hnames⟩
    cases hdepth : depthAfter 0 steps with
    | none =>
      have hnot := @notMem_names_of_depthAfter ν steps [] name hdepth rooted levelsUp
        List.not_mem_nil hsteps
      rw [List.nil_append, hnames] at hnot
      exact absurd (List.mem_append_right inner (List.mem_singleton_self name)) hnot
    | some d =>
      refine ⟨d, ?_, rfl⟩
      obtain ⟨inner', hlen, hwalk⟩ :=
        @walk_of_depthAfter ν steps [] d hdepth rooted ⟨levelsUp, [name]⟩
      rw [List.nil_append] at hwalk
      rw [hwalk] at hnames
      rw [← hlen, List.append_cancel_right hnames]
      exact List.length_pos_iff.mpr hinner
  · rintro ⟨d, hd, hdepth⟩
    exact below_walk hdepth hd rooted _

end Location

end Fissure.Library
