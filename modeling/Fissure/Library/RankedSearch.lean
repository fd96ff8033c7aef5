import Mathlib.Data.List.FinRange

/-!
# Searching buckets in the order of their ranks

A search that walks through buckets `0, 1, 2, …` one after the other, and through each bucket in
any order, finds an element of least rank among those it is looking for, when every element
stands in the bucket of its rank.
-/

set_option autoImplicit false

namespace Fissure.Library

variable {α : Type} {n : ℕ}

/-- The elements of the buckets, bucket after bucket. -/
def inBucketOrder (bucket : Fin n → List α) : List α := (List.finRange n).flatMap bucket

theorem mem_inBucketOrder {bucket : Fin n → List α} {a : α} :
    a ∈ inBucketOrder bucket ↔ ∃ f, a ∈ bucket f := by
  simp [inBucketOrder]

theorem pairwise_inBucketOrder {bucket : Fin n → List α} {rank : α → ℕ}
    (h : ∀ f, ∀ a ∈ bucket f, rank a = f.val) :
    (inBucketOrder bucket).Pairwise fun a b => rank a ≤ rank b := by
  unfold inBucketOrder
  rw [List.pairwise_flatMap]
  constructor
  · intro f _
    apply List.pairwise_of_forall_mem_list
    intro a ha b hb
    rw [h f a ha, h f b hb]
  · apply (List.pairwise_lt_finRange n).imp
    intro f g hfg a ha b hb
    rw [h f a ha, h g b hb]
    exact hfg.le

/-- What a search finds in a list sorted by rank has the least rank of all it could find. -/
theorem rank_le_of_find? {rank : α → ℕ} {found : α → Bool} {l : List α} {a : α}
    (hl : l.Pairwise fun a b => rank a ≤ rank b) (h : l.find? found = some a) {b : α}
    (hb : b ∈ l) (hfound : found b = true) : rank a ≤ rank b := by
  obtain ⟨-, before, after, rfl, hbefore⟩ := List.find?_eq_some_iff_append.mp h
  rw [List.pairwise_append, List.pairwise_cons] at hl
  rcases List.mem_append.mp hb with hb | hb
  · -- what precedes the find is not what was looked for
    have hnot := hbefore b hb
    simp [hfound] at hnot
  · rcases List.mem_cons.mp hb with rfl | hb
    · exact le_rfl
    · exact hl.2.1.1 b hb

end Fissure.Library
