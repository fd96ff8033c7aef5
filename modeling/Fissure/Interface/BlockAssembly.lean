import Mathlib.Data.Finset.Insert
import Mathlib.Data.Finset.Dedup
import Mathlib.Data.Fintype.Basic
import Fissure.Library.Transition

/-!
# The assembly of a piece as a set of received blocks

What a piece actor is for, without its buffer, flags and timers: it collects blocks, and it
answers a block with `true` exactly when every block of the piece has arrived by then. The
state is the set of the blocks received so far.
-/

set_option autoImplicit false

namespace Fissure.Interface

open Fissure.Library

/-- All `n` blocks of the piece are in the set. -/
def Complete (n : ℕ) (received : Finset ℕ) : Prop := ∀ i < n, i ∈ received

instance (n : ℕ) (received : Finset ℕ) : Decidable (Complete n received) :=
  inferInstanceAs (Decidable (∀ i < n, i ∈ received))

/-- Block `i` arrives. -/
def assemblyStep (n : ℕ) (received : Finset ℕ) (i : ℕ) : Option (Finset ℕ × Bool) :=
  some (insert i received, decide (Complete n (insert i received)))

/-- INTERNAL: an answer of the assembly is whether the piece is complete. -/
theorem assemblyStep_eq_some_iff {n i : ℕ} {received received' : Finset ℕ} {answer : Bool} :
    assemblyStep n received i = some (received', answer) ↔
      received' = insert i received ∧ (answer = true ↔ Complete n received') := by
  simp only [assemblyStep, Option.some.injEq, Prod.mk.injEq]
  constructor
  · rintro ⟨rfl, rfl⟩
    exact ⟨rfl, decide_eq_true_iff⟩
  · rintro ⟨rfl, h⟩
    refine ⟨rfl, ?_⟩
    rw [Bool.eq_iff_iff, decide_eq_true_iff, h]

/-- INTERNAL: after the blocks of a list have arrived, the set holds them. -/
theorem run_assemblyStep (n : ℕ) (received : Finset ℕ) (blocks : List ℕ) :
    run (assemblyStep n) received blocks = some (blocks.toFinset ∪ received) := by
  induction blocks generalizing received with
  | nil => simp
  | cons i blocks ih =>
    rw [run_cons_some blocks rfl, ih]
    congr 1
    ext j
    simp only [Finset.mem_union, List.mem_toFinset, Finset.mem_insert, List.mem_cons]
    tauto

end Fissure.Interface
