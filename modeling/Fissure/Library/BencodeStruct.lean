import Fissure.Library.Bencode

/-!
# Reading and writing records as dictionaries

A record is read from a dictionary by looking its named fields up, and written as the
dictionary of its fields in the order of their keys; an absent optional field is left out.
Whoever writes what was read restores the value under some condition on it (`RestoresIff`):
for a record, that the dictionary has no other keys and that its fields are restored.
-/

set_option autoImplicit false

namespace Fissure.Library.Bencode

variable {α β : Type}

/-- Writing what was read from a canonical value gives that value back exactly under `P`. -/
def RestoresIff (P : Bencode → Prop) (read : Bencode → Option α) (write : α → Bencode) : Prop :=
  ∀ ⦃v : Bencode⦄ ⦃a : α⦄, Canonical v → read v = some a → (write a = v ↔ P v)

/-- A field that has to be there. -/
def requiredField (d : List (ByteString × Bencode)) (key : ByteString)
    (read : Bencode → Option α) : Option α :=
  (d.lookup key).bind read

/-- A field that may be missing. -/
def optionalField (d : List (ByteString × Bencode)) (key : ByteString)
    (read : Bencode → Option α) : Option (Option α) :=
  match d.lookup key with
  | none => some none
  | some v => (read v).map some

/-- The entries of the fields that are there. -/
def entries (fields : List (ByteString × Option Bencode)) : List (ByteString × Bencode) :=
  fields.filterMap fun f => f.2.map (f.1, ·)

/-- A list whose elements are read one by one. -/
def readList (read : Bencode → Option α) : Bencode → Option (List α)
  | .list l => l.mapM read
  | _ => none

/-- A list whose elements are written one by one. -/
def writeList (write : α → Bencode) (l : List α) : Bencode := .list (l.map write)

/-- The elements of a list satisfy `P`. -/
def Elements (P : Bencode → Prop) (v : Bencode) : Prop := ∀ l, v = .list l → ∀ x ∈ l, P x

/-- A dictionary has none but the given keys. -/
def OnlyKeys (keys : List ByteString) (v : Bencode) : Prop :=
  ∀ d, v = .dict d → ∀ p ∈ d, p.1 ∈ keys

/-! ## Sorted dictionaries -/

theorem mem_entries {fields : List (ByteString × Option Bencode)} {k : ByteString} {v : Bencode} :
    (k, v) ∈ entries fields ↔ (k, some v) ∈ fields := by
  unfold entries
  rw [List.mem_filterMap]
  constructor
  · rintro ⟨⟨k', o⟩, hmem, hsome⟩
    obtain ⟨w, rfl, hpair⟩ := Option.map_eq_some_iff.mp hsome
    cases hpair
    exact hmem
  · exact fun h => ⟨(k, some v), h, rfl⟩

theorem SortedKeys.of_keys {d : List (ByteString × β)} {keys : List ByteString}
    (hsorted : keys.Pairwise (· < ·)) (hkeys : d.map Prod.fst = keys) : SortedKeys d := by
  subst hkeys
  exact List.pairwise_map.mp hsorted

theorem SortedKeys.nodup_keys {d : List (ByteString × β)} (h : SortedKeys d) :
    (d.map Prod.fst).Nodup := by
  apply List.pairwise_map.mpr
  apply h.imp
  intro p q hlt heq
  rw [heq] at hlt
  exact List.lt_irrefl _ hlt

theorem SortedKeys.eq_of_mem {d : List (ByteString × β)} (h : SortedKeys d) {k : ByteString}
    {b c : β} (hb : (k, b) ∈ d) (hc : (k, c) ∈ d) : b = c :=
  (Prod.mk.inj (List.inj_on_of_nodup_map h.nodup_keys hb hc rfl)).2

/-- In a sorted dictionary a lookup finds every entry. -/
theorem SortedKeys.lookup_eq_some_iff {d : List (ByteString × β)} (h : SortedKeys d)
    {k : ByteString} {b : β} : d.lookup k = some b ↔ (k, b) ∈ d := by
  have hfound : ∀ {c : β}, d.lookup k = some c → (k, c) ∈ d := by
    intro c hc
    obtain ⟨l, l', rfl, -⟩ := List.lookup_eq_some_iff.mp hc
    exact List.mem_append_right l List.mem_cons_self
  refine ⟨hfound, fun hmem => ?_⟩
  cases hlook : d.lookup k with
  | none =>
    have := List.lookup_eq_none_iff.mp hlook (k, b) hmem
    simp at this
  | some c => rw [h.eq_of_mem (hfound hlook) hmem]

theorem SortedKeys.entries {fields : List (ByteString × Option Bencode)} (h : SortedKeys fields) :
    SortedKeys (entries fields) := by
  refine List.Pairwise.filterMap _ (fun f g hlt p hp q hq => ?_) h
  obtain ⟨v, -, rfl⟩ := Option.map_eq_some_iff.mp hp
  obtain ⟨w, -, rfl⟩ := Option.map_eq_some_iff.mp hq
  exact hlt

/-- Sorted dictionaries with the same entries are equal. -/
theorem SortedKeys.ext {d d' : List (ByteString × Bencode)} (h : SortedKeys d)
    (h' : SortedKeys d') (hmem : ∀ k v, (k, v) ∈ d ↔ (k, v) ∈ d') : d = d' := by
  have hperm : d.Perm d' :=
    (List.perm_ext_iff_of_nodup (List.Nodup.of_map _ h.nodup_keys)
      (List.Nodup.of_map _ h'.nodup_keys)).mpr fun p => hmem p.1 p.2
  exact hperm.eq_of_pairwise (fun _ _ _ _ hlt hgt => absurd hgt (List.lt_asymm hlt)) h h'

/-- The fields are written as the dictionary exactly when each of them is what the dictionary
has under its key and the dictionary has no other keys. -/
theorem entries_eq_iff {fields : List (ByteString × Option Bencode)} {keys : List ByteString}
    {d : List (ByteString × Bencode)} (hsorted : keys.Pairwise (· < ·)) (hd : SortedKeys d)
    (hkeys : fields.map Prod.fst = keys) :
    entries fields = d ↔ (∀ f ∈ fields, f.2 = d.lookup f.1) ∧ ∀ p ∈ d, p.1 ∈ keys := by
  have hfields := SortedKeys.of_keys hsorted hkeys
  subst hkeys
  constructor
  · rintro rfl
    constructor
    · rintro ⟨k, o⟩ hf
      ext v
      rw [hd.lookup_eq_some_iff, mem_entries]
      constructor
      · rintro rfl
        exact hf
      · exact fun hv => hfields.eq_of_mem hf hv
    · rintro ⟨k, v⟩ hp
      exact List.mem_map_of_mem (mem_entries.mp hp)
  · rintro ⟨hvalues, hothers⟩
    refine hfields.entries.ext hd fun k v => ?_
    rw [mem_entries, ← hd.lookup_eq_some_iff]
    constructor
    · exact fun hf => (hvalues _ hf).symm
    · intro hlook
      obtain ⟨⟨k', o⟩, hf, rfl⟩ := List.mem_map.mp (hothers _ (hd.lookup_eq_some_iff.mp hlook))
      rw [← hlook, ← hvalues _ hf]
      exact hf

/-! ## Restoring the parts -/

variable {P : Bencode → Prop} {read : Bencode → Option α} {write : α → Bencode}
  {d : List (ByteString × Bencode)} {key : ByteString}

theorem Canonical.sortedKeys (hd : Canonical (.dict d)) : SortedKeys d := by
  cases hd with
  | dict sorted values => exact sorted

theorem Canonical.of_lookup (hd : Canonical (.dict d)) {v : Bencode}
    (h : d.lookup key = some v) : Canonical v := by
  cases hd with
  | dict sorted values => exact values _ (sorted.lookup_eq_some_iff.mp h)

theorem RestoresIff.requiredField (h : RestoresIff P read write) (hd : Canonical (.dict d)) {a : α}
    (hread : requiredField d key read = some a) :
    some (write a) = d.lookup key ↔ ∀ v, d.lookup key = some v → P v := by
  obtain ⟨v, hv, ha⟩ := Option.bind_eq_some_iff.mp hread
  rw [hv, Option.some.injEq, h (hd.of_lookup hv) ha]
  exact ⟨fun hP w hw => Option.some.inj hw ▸ hP, fun hall => hall v rfl⟩

theorem RestoresIff.optionalField (h : RestoresIff P read write) (hd : Canonical (.dict d))
    {o : Option α} (hread : optionalField d key read = some o) :
    o.map write = d.lookup key ↔ ∀ v, d.lookup key = some v → P v := by
  unfold Bencode.optionalField at hread
  cases hv : d.lookup key with
  | none =>
    rw [hv] at hread
    obtain rfl := Option.some.inj hread
    exact iff_of_true rfl nofun
  | some v =>
    rw [hv] at hread
    obtain ⟨a, ha, rfl⟩ := Option.map_eq_some_iff.mp hread
    rw [Option.map_some, Option.some.injEq, h (hd.of_lookup hv) ha]
    exact ⟨fun hP w hw => Option.some.inj hw ▸ hP, fun hall => hall v rfl⟩

/-- Elements that are read one by one are restored one by one. -/
theorem RestoresIff.mapM (h : RestoresIff P read write) {l : List Bencode} {as : List α}
    (hl : ∀ v ∈ l, Canonical v) (hread : l.mapM read = some as) :
    as.map write = l ↔ ∀ v ∈ l, P v := by
  induction l generalizing as with
  | nil =>
    obtain rfl : [] = as := by simpa using hread
    exact iff_of_true rfl nofun
  | cons v l ih =>
    rw [List.forall_mem_cons] at hl
    rw [List.mapM_cons] at hread
    obtain ⟨a, ha, hread⟩ := Option.bind_eq_some_iff.mp hread
    obtain ⟨as', has, hread⟩ := Option.bind_eq_some_iff.mp hread
    obtain rfl := Option.some.inj hread
    rw [List.map_cons, List.cons.injEq, List.forall_mem_cons, h hl.1 ha, ih hl.2 has]

theorem RestoresIff.list (h : RestoresIff P read write) :
    RestoresIff (Elements P) (readList read) (writeList write) := by
  intro v as hv hread
  cases hv with
  | list elements =>
    unfold writeList Elements
    rw [Bencode.list.injEq, h.mapM elements hread]
    exact ⟨fun hall l hl => Bencode.list.inj hl ▸ hall, fun hall => hall _ rfl⟩
  | int i | bytes b | dict sorted values => cases hread

/-- A list is always restored if its elements are. -/
theorem RestoresIff.list_always (h : RestoresIff (fun _ => True) read write) :
    RestoresIff (fun _ => True) (readList read) (writeList write) := by
  intro v as hv hread
  exact iff_of_true ((h.list hv hread).mpr fun _ _ _ _ => trivial) trivial

end Fissure.Library.Bencode
