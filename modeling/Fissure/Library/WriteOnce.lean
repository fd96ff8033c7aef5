import Mathlib.Logic.Function.Basic
import Fissure.Library.Transition

/-!
# A store that is written once

Each key takes one value, which has to be acceptable for it, and keeps it. What a run has stored
stays as it is (`writeOnce_run_keeps`) and everything in the store is acceptable
(`acceptable_writeOnce_run`).
-/

set_option autoImplicit false

namespace Fissure.Library

variable {κ ν : Type} [DecidableEq κ]

/-- Key `e.1` takes the value `e.2`. -/
def writeOnce (Acceptable : κ → ν → Prop) [∀ k v, Decidable (Acceptable k v)]
    (store : κ → Option ν) (e : κ × ν) : Option ((κ → Option ν) × Unit) :=
  if (store e.1).isNone ∧ Acceptable e.1 e.2 then
    some (Function.update store e.1 (some e.2), ())
  else none

/-- Everything in the store is acceptable. -/
def AllAcceptable (Acceptable : κ → ν → Prop) (store : κ → Option ν) : Prop :=
  ∀ k v, store k = some v → Acceptable k v

variable {Acceptable : κ → ν → Prop} [∀ k v, Decidable (Acceptable k v)]
  {store store' : κ → Option ν} {e : κ × ν} {es : List (κ × ν)} {r : Unit}

theorem writeOnce_eq_some_iff :
    writeOnce Acceptable store e = some (store', r) ↔
      store e.1 = none ∧ Acceptable e.1 e.2 ∧ store' = Function.update store e.1 (some e.2) := by
  unfold writeOnce
  split_ifs with h
  · rw [Option.isNone_iff_eq_none] at h
    simp [h, eq_comm]
  · rw [Option.isNone_iff_eq_none] at h
    simp only [false_iff]
    exact fun hall => h ⟨hall.1, hall.2.1⟩

theorem writeOnce_keeps {k : κ} {v : ν} (h : writeOnce Acceptable store e = some (store', r))
    (hk : store k = some v) : store' k = some v := by
  obtain ⟨hfree, -, rfl⟩ := writeOnce_eq_some_iff.mp h
  have hne : k ≠ e.1 := by
    rintro rfl
    simp [hfree] at hk
  rw [Function.update_of_ne hne, hk]

/-- What is stored stays. -/
theorem writeOnce_run_keeps {k : κ} {v : ν}
    (h : run (writeOnce Acceptable) store es = some store') (hk : store k = some v) :
    store' k = some v := by
  have hstep (s : κ → Option ν) (e : κ × ν) (t : κ → Option ν) (r : Unit) (hk : s k = some v)
      (h : writeOnce Acceptable s e = some (t, r)) : t k = some v := writeOnce_keeps h hk
  exact run_invariant hstep hk h

/-- A step keeps the store acceptable. -/
theorem allAcceptable_writeOnce (hall : AllAcceptable Acceptable store)
    (h : writeOnce Acceptable store e = some (store', r)) : AllAcceptable Acceptable store' := by
  obtain ⟨-, hacceptable, rfl⟩ := writeOnce_eq_some_iff.mp h
  intro k v hk
  by_cases hke : k = e.1
  · subst hke
    simp only [Function.update_self, Option.some.injEq] at hk
    rwa [← hk]
  · rw [Function.update_of_ne hke] at hk
    exact hall k v hk

/-- Everything in the store is acceptable after a run, if it was before. -/
theorem acceptable_writeOnce_run (hall : AllAcceptable Acceptable store)
    (h : run (writeOnce Acceptable) store es = some store') : AllAcceptable Acceptable store' :=
  run_invariant (fun _ _ _ _ hall h => allAcceptable_writeOnce hall h) hall h

end Fissure.Library
