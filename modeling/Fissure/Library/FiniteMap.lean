import Mathlib.Data.Finmap

/-!
# Finite maps with a pass over all values

A hash map is a finite map up to the order of its entries, which is Mathlib's `Finmap`.
What is added here is the pass that visits every entry and changes or drops its value
(`filterMapVals`), with its lookup law, and the lookup laws of the usual updates in the
form the simplifier uses.
-/

set_option autoImplicit false

namespace Fissure.Library

/-- A hash map from `κ` to `ν`, seen up to the order of its entries. -/
abbrev HashMap (κ ν : Type) := Finmap (fun _ : κ => ν)

namespace HashMap

variable {κ μ ν : Type}

/-- What becomes of one entry in a pass over all values. -/
def mapEntry (f : κ → μ → Option ν) (e : (_ : κ) × μ) : Option ((_ : κ) × ν) :=
  (f e.1 e.2).map fun v => ⟨e.1, v⟩

/-- A pass over all values makes up no key. -/
theorem fst_of_mapEntry {f : κ → μ → Option ν} {e : (_ : κ) × μ} {e' : (_ : κ) × ν}
    (h : mapEntry f e = some e') : e'.1 = e.1 := by
  obtain ⟨v, -, rfl⟩ := Option.map_eq_some_iff.mp h
  rfl

/-- A pass over all values keeps the keys distinct. -/
theorem nodupKeys_filterMap (f : κ → μ → Option ν) {l : List ((_ : κ) × μ)}
    (h : l.NodupKeys) : (l.filterMap (mapEntry f)).NodupKeys := by
  rw [List.nodupKeys_iff_pairwise] at h ⊢
  refine h.filterMap _ ?_
  intro a a' hne b hb b' hb'
  rw [fst_of_mapEntry hb, fst_of_mapEntry hb']
  exact hne

/-- The entries of `m` whose value `f` keeps, with the value `f` gives them. -/
def filterMapVals (f : κ → μ → Option ν) (m : HashMap κ μ) : HashMap κ ν where
  entries := m.entries.filterMap (mapEntry f)
  nodupKeys := by
    obtain ⟨entries, hnodup⟩ := m
    induction entries using Quot.inductionOn with
    | h l => exact nodupKeys_filterMap f hnodup

variable [DecidableEq κ]

/-- A lookup after a pass over all values of an association list. -/
theorem dlookup_filterMap (f : κ → μ → Option ν) (k : κ) {l : List ((_ : κ) × μ)}
    (h : l.NodupKeys) :
    (l.filterMap (mapEntry f)).dlookup k = (l.dlookup k).bind (f k) := by
  induction l with
  | nil => rfl
  | cons e l ih =>
    obtain ⟨a, b⟩ := e
    rw [List.nodupKeys_cons] at h
    have ih := ih h.2
    by_cases hk : k = a
    · subst hk
      -- the key occurs once: past the head nothing is left to find
      have hnone : l.dlookup k = none := List.dlookup_eq_none.mpr h.1
      cases hf : f k b with
      | none => simpa [mapEntry, hf, hnone] using ih
      | some v => simp [mapEntry, hf]
    · cases hf : f a b with
      | none => simpa [mapEntry, hf, List.dlookup_cons_ne, hk] using ih
      | some v => simpa [mapEntry, hf, List.dlookup_cons_ne, hk] using ih

/-- A lookup after a pass over all values. -/
@[simp] theorem lookup_filterMapVals (f : κ → μ → Option ν) (m : HashMap κ μ) (k : κ) :
    (filterMapVals f m).lookup k = (m.lookup k).bind (f k) := by
  obtain ⟨entries, hnodup⟩ := m
  induction entries using Quot.inductionOn with
  | h l => exact dlookup_filterMap f k hnodup

/-- A lookup after an insertion, at any key. -/
theorem lookup_insert_eq (m : HashMap κ ν) (a k : κ) (b : ν) :
    (m.insert a b).lookup k = if k = a then some b else m.lookup k := by
  split_ifs with h
  · rw [h, Finmap.lookup_insert]
  · exact Finmap.lookup_insert_of_ne m h

/-- A lookup after a removal, at any key. -/
theorem lookup_erase_eq (m : HashMap κ ν) (a k : κ) :
    (m.erase a).lookup k = if k = a then none else m.lookup k := by
  split_ifs with h
  · rw [h, Finmap.lookup_erase]
  · exact Finmap.lookup_erase_ne h

/-- An insertion adds its key. -/
theorem keys_insert (m : HashMap κ ν) (a : κ) (b : ν) :
    (m.insert a b).keys = Insert.insert a m.keys := by
  ext k
  rw [Finset.mem_insert, Finmap.mem_keys, Finmap.mem_keys, Finmap.mem_insert]

/-- The values found when the keys are gone through in any order are all values. -/
theorem mem_filterMap_lookup {m : HashMap κ ν} {order : List κ} {k : κ} {v : ν}
    (horder : (order : Multiset κ) = m.keys.val) (h : m.lookup k = some v) :
    v ∈ order.filterMap m.lookup := by
  refine List.mem_filterMap.mpr ⟨k, ?_, h⟩
  rw [← Multiset.mem_coe, horder]
  exact Finmap.mem_keys.mpr (Finmap.mem_of_lookup_eq_some h)

/-- Inserting what a map already holds changes nothing. -/
theorem insert_lookup_self {m : HashMap κ ν} {a : κ} {b : ν} (h : m.lookup a = some b) :
    m.insert a b = m := by
  apply Finmap.ext_lookup
  intro k
  rw [lookup_insert_eq]
  split_ifs with hk
  · rw [hk, h]
  · rfl

end HashMap

end Fissure.Library
