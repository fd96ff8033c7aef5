import Mathlib.Data.List.Basic
import Mathlib.Algebra.BigOperators.Group.List.Basic
import Mathlib.Algebra.GroupWithZero.Nat

/-!
# Intervals that follow one another

A list of intervals `(start, length)` tiles the range from `a` to `b` when the first one begins at
`a`, each begins where the one before it ended, the last one ends at `b`, and none is empty. Then
every point of the range lies in exactly one of them (`Tiles.existsUnique`). Ranges that are tiled
one after the other are tiled together (`tiles_flatMap_range`), so a cut of a range into parts and
of each part into smaller ones is a tiling (`tiles_cut` is the cut into equal parts).
-/

set_option autoImplicit false

namespace Fissure.Library

/-- The intervals `(start, length)` follow one another from `a` to `b`, and none is empty. -/
def Tiles : ℕ → ℕ → List (ℕ × ℕ) → Prop
  | a, b, [] => a = b
  | a, b, (start, len) :: l => start = a ∧ 0 < len ∧ Tiles (a + len) b l

/-- Tilings of ranges that follow one another make a tiling. -/
theorem Tiles.append {a b c : ℕ} {l l' : List (ℕ × ℕ)} (h : Tiles a b l) (h' : Tiles b c l') :
    Tiles a c (l ++ l') := by
  induction l generalizing a with
  | nil =>
    simp only [Tiles] at h
    rwa [h]
  | cons p l ih => exact ⟨h.1, h.2.1, ih h.2.2⟩

/-- The lengths of the intervals make up the range. -/
theorem Tiles.sum_lengths {a b : ℕ} {l : List (ℕ × ℕ)} (h : Tiles a b l) :
    a + (l.map Prod.snd).sum = b := by
  induction l generalizing a with
  | nil => simpa [Tiles] using h
  | cons p l ih =>
    have hrest := ih h.2.2
    rw [List.map_cons, List.sum_cons]
    omega

/-- Every interval lies in the range and is not empty. -/
theorem Tiles.bounds {a b : ℕ} {l : List (ℕ × ℕ)} (h : Tiles a b l) {start len : ℕ}
    (hmem : (start, len) ∈ l) : a ≤ start ∧ 0 < len ∧ start + len ≤ b := by
  induction l generalizing a with
  | nil => simp at hmem
  | cons p l ih =>
    obtain ⟨hstart, hpos, hrest⟩ := h
    rcases List.mem_cons.mp hmem with rfl | hmem
    · have hsum := hrest.sum_lengths
      dsimp only at hstart hpos hsum
      omega
    · have hbounds := ih hrest hmem
      omega

/-- A tiling that is moved by `c` is a tiling of the range moved by `c`. -/
theorem Tiles.shift {a b : ℕ} {l : List (ℕ × ℕ)} (c : ℕ) (h : Tiles a b l) :
    Tiles (c + a) (c + b) (l.map fun p => (c + p.1, p.2)) := by
  induction l generalizing a with
  | nil => simpa [Tiles] using h
  | cons p l ih =>
    refine ⟨by rw [h.1], h.2.1, ?_⟩
    rw [Nat.add_assoc]
    exact ih h.2.2

/-- Every point of a tiled range lies in exactly one of the intervals. -/
theorem Tiles.existsUnique {a b x : ℕ} {l : List (ℕ × ℕ)} (h : Tiles a b l) (ha : a ≤ x)
    (hb : x < b) :
    ∃! k : ℕ, ∃ start len, l[k]? = some (start, len) ∧ start ≤ x ∧ x < start + len := by
  induction l generalizing a with
  | nil =>
    simp only [Tiles] at h
    omega
  | cons p l ih =>
    obtain ⟨start, len⟩ := p
    obtain ⟨rfl, hpos, hrest⟩ := h
    by_cases hx : x < start + len
    · -- the later intervals begin where this one ends
      refine ⟨0, ⟨start, len, rfl, ha, hx⟩, ?_⟩
      rintro (_ | k) ⟨start', len', hk, hle, -⟩
      · rfl
      · have hbounds := hrest.bounds (List.mem_of_getElem? hk)
        omega
    · obtain ⟨k, ⟨start', len', hk, hin⟩, huniq⟩ := ih hrest (by omega)
      refine ⟨k + 1, ⟨start', len', hk, hin⟩, ?_⟩
      rintro (_ | j) ⟨start'', len'', hj, hin'⟩
      · simp only [List.getElem?_cons_zero, Option.some.injEq, Prod.mk.injEq] at hj
        omega
      · rw [huniq j ⟨start'', len'', hj, hin'⟩]

/-- Consecutive ranges, each of them tiled, are tiled by all the intervals in order. -/
theorem tiles_flatMap_range (bound : ℕ → ℕ) (parts : ℕ → List (ℕ × ℕ)) {n : ℕ}
    (h : ∀ i < n, Tiles (bound i) (bound (i + 1)) (parts i)) :
    Tiles (bound 0) (bound n) ((List.range n).flatMap parts) := by
  induction n with
  | zero => rfl
  | succ n ih =>
    rw [List.range_succ, List.flatMap_append, List.flatMap_singleton]
    exact (ih fun i hi => h i (by omega)).append (h n (by omega))

/-- A range cut into parts of length `B`, the last one possibly shorter, is tiled by them. -/
theorem tiles_cut {B len n : ℕ} (hn : ∀ i, i < n ↔ i * B < len) :
    Tiles 0 len ((List.range n).map fun i => (i * B, min B (len - i * B))) := by
  have hpart : ∀ i < n, Tiles (min (i * B) len) (min ((i + 1) * B) len)
      [(i * B, min B (len - i * B))] := by
    intro i hi
    have hlt := (hn i).mp hi
    have hpos : 0 < B := by
      rcases Nat.eq_zero_or_pos B with rfl | hB
      · have := (hn n).mpr (by omega)
        omega
      · exact hB
    rw [Nat.succ_mul]
    refine ⟨by omega, by omega, ?_⟩
    simp only [Tiles]
    omega
  have htiles := tiles_flatMap_range (fun i => min (i * B) len) _ hpart
  have hend : min (n * B) len = len := by
    have := (hn n).not.mp (Nat.lt_irrefl n)
    omega
  rw [hend, Nat.zero_mul, Nat.zero_min] at htiles
  simpa [List.flatMap_singleton', List.map_eq_flatMap] using htiles

end Fissure.Library
