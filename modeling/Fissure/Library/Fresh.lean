import Mathlib.Data.List.Basic

/-!
# The new items of a batch

Items come in batches, and a `key` tells which of them belong together. `fresh key seen batch` is
what a batch brings that is new: the items whose key none of the items seen before has. It does
not look at the rest of the batch, so two items of one batch with the same key are both new.
-/

set_option autoImplicit false

namespace Fissure.Library

variable {α κ : Type} [DecidableEq κ]

/-- The items of `batch` with a key that no item of `seen` has. -/
def fresh (key : α → κ) (seen batch : List α) : List α :=
  batch.filter fun a => !(seen.any fun b => key b == key a)

variable {key : α → κ} {seen seen' batch : List α}

/-- An item is new when it is in the batch and its key has not been seen. -/
theorem mem_fresh {a : α} :
    a ∈ fresh key seen batch ↔ a ∈ batch ∧ key a ∉ seen.map key := by
  simp [fresh]

/-- What is new depends on the seen keys among those of the batch only. -/
theorem fresh_congr (h : ∀ a ∈ batch, (key a ∈ seen.map key ↔ key a ∈ seen'.map key)) :
    fresh key seen batch = fresh key seen' batch := by
  refine List.filter_congr fun a ha => ?_
  have hany : seen.any (fun b => key b == key a) = seen'.any fun b => key b == key a := by
    rw [Bool.eq_iff_iff]
    simpa using h a ha
  rw [hany]

/-- The new keys are those of the batch that have not been seen. -/
theorem mem_keys_fresh {k : κ} :
    k ∈ (fresh key seen batch).map key ↔ k ∈ batch.map key ∧ k ∉ seen.map key := by
  constructor
  · intro hk
    obtain ⟨a, ha, rfl⟩ := List.mem_map.mp hk
    rw [mem_fresh] at ha
    exact ⟨List.mem_map_of_mem ha.1, ha.2⟩
  · rintro ⟨hk, hnew⟩
    obtain ⟨a, ha, rfl⟩ := List.mem_map.mp hk
    exact List.mem_map_of_mem (mem_fresh.mpr ⟨ha, hnew⟩)

/-- Once what is new is recorded, every key of the batch has been seen. -/
theorem mem_keys_append_fresh {k : κ} :
    k ∈ (seen ++ fresh key seen batch).map key ↔ k ∈ seen.map key ∨ k ∈ batch.map key := by
  rw [List.map_append, List.mem_append, mem_keys_fresh]
  tauto

end Fissure.Library
