import Mathlib.Data.List.Basic
import Mathlib.Algebra.BigOperators.Group.List.Basic
import Mathlib.Algebra.GroupWithZero.Nat
import Mathlib.Logic.Function.Basic

/-!
# Files as byte arrays, and one address space over a list of files

A file is the list of its elements. `writeAt` is a write at an offset: what lies between
the end of the file and the offset is filled with `zero`, and a write of nothing does not
extend the file. `readExact` reads a range and fails when the file ends inside it.

A list of segments, each with a capacity and a file, forms one address space: address `x` lies in
the segment whose capacity range contains it. `elementAt` reads that space and `writeAcross` writes
to it. Where no two segments with room share a file (`Separate`), a write that stays inside its
segment overlays the space (`overlays_write`). Writes that follow one another compose
(`Overlays.append`).
-/

set_option autoImplicit false

namespace Fissure.Library

variable {α : Type}

/-! ## One file -/

/-- The file after a write of `data` at `off`. -/
def writeAt (zero : α) (content : List α) (off : ℕ) (data : List α) : List α :=
  if data = [] then content
  else (content ++ List.replicate (off - content.length) zero).take off ++ data ++
    content.drop (off + data.length)

/-- The `len` elements at `off`, `none` when the file is shorter. Reading nothing succeeds
anywhere. -/
def readExact (content : List α) (off len : ℕ) : Option (List α) :=
  if len = 0 then some []
  else if off + len ≤ content.length then some ((content.drop off).take len)
  else none

/-- A write of nothing leaves the file alone. -/
@[simp] theorem writeAt_nil (zero : α) (content : List α) (off : ℕ) :
    writeAt zero content off [] = content := by
  simp [writeAt]

/-- A write of something ends the file at the later of the two ends. -/
theorem length_writeAt (zero : α) (content : List α) (off : ℕ) {data : List α}
    (h : data ≠ []) :
    (writeAt zero content off data).length = max content.length (off + data.length) := by
  simp only [writeAt, h, if_false, List.length_append, List.length_take, List.length_replicate,
    List.length_drop]
  omega

/-- A write that stays below `cap` keeps a file of at most `cap` elements so. -/
theorem length_writeAt_le (zero : α) {content : List α} {off cap : ℕ} {data : List α}
    (hc : content.length ≤ cap) (hd : off + data.length ≤ cap) :
    (writeAt zero content off data).length ≤ cap := by
  by_cases h : data = []
  · simpa [h] using hc
  · rw [length_writeAt zero content off h]
    omega

/-- What was written is what is found there. -/
theorem getElem?_writeAt_inside (zero : α) (content : List α) {off i : ℕ} {data : List α}
    (h : off ≤ i) (h' : i < off + data.length) :
    (writeAt zero content off data)[i]? = data[i - off]? := by
  have hne : data ≠ [] := by rintro rfl; simp at h'; omega
  have hlen : ((content ++ List.replicate (off - content.length) zero).take off).length = off := by
    simp; omega
  rw [writeAt, if_neg hne, List.append_assoc, List.getElem?_append_right (by omega), hlen,
    List.getElem?_append_left (by omega)]

/-- Outside the range that is written an element stays as it is, and where there was none there
may now be a `zero`. -/
theorem getElem?_writeAt_fill (zero : α) (content : List α) {off i : ℕ} {data : List α}
    (h : i < off ∨ off + data.length ≤ i) :
    (writeAt zero content off data)[i]? = content[i]? ∨
      content[i]? = none ∧ (writeAt zero content off data)[i]? = some zero := by
  by_cases hne : data = []
  · exact Or.inl (by rw [hne, writeAt_nil])
  have hlen : ((content ++ List.replicate (off - content.length) zero).take off).length = off := by
    simp; omega
  rw [writeAt, if_neg hne, List.append_assoc]
  rcases h with h | h
  · rw [List.getElem?_append_left (by omega), List.getElem?_take_of_lt h]
    by_cases hi : i < content.length
    · exact Or.inl (List.getElem?_append_left hi)
    · rw [List.getElem?_append_right (by omega), List.getElem?_replicate, if_pos (by omega)]
      exact Or.inr ⟨List.getElem?_eq_none (by omega), rfl⟩
  · left
    rw [List.getElem?_append_right (by omega), hlen, List.getElem?_append_right (by omega),
      List.getElem?_drop, show off + data.length + (i - off - data.length) = i by omega]

/-- An element that is there stays as it is outside the range that is written. -/
theorem getElem?_writeAt_outside (zero : α) {content : List α} {off i : ℕ} {data : List α}
    {b : α} (hb : content[i]? = some b) (h : i < off ∨ off + data.length ≤ i) :
    (writeAt zero content off data)[i]? = some b := by
  rcases getElem?_writeAt_fill zero content h with hkept | ⟨hnone, -⟩
  · rw [hkept, hb]
  · rw [hnone] at hb
    cases hb

/-- A write inside the file keeps every element outside its range. -/
theorem getElem?_writeAt_of_le (zero : α) {content : List α} {off i : ℕ} {data : List α}
    (hd : off + data.length ≤ content.length) (h : i < off ∨ off + data.length ≤ i) :
    (writeAt zero content off data)[i]? = content[i]? := by
  rcases getElem?_writeAt_fill zero content h with hkept | ⟨hnone, hzero⟩
  · exact hkept
  · have hle := length_writeAt_le zero (Nat.le_refl content.length) hd
    rw [List.getElem?_eq_none_iff] at hnone
    rw [List.getElem?_eq_none (Nat.le_trans hle hnone)] at hzero
    cases hzero

/-- A write inside the file changes nothing exactly when it writes what is there. -/
theorem writeAt_eq_self_iff (zero : α) {content : List α} {off : ℕ} {data : List α}
    (hd : off + data.length ≤ content.length) :
    writeAt zero content off data = content ↔ data = (content.drop off).take data.length := by
  have hslice (i : ℕ) (hi : i < data.length) :
      ((content.drop off).take data.length)[i]? = content[off + i]? := by
    rw [List.getElem?_take_of_lt hi, List.getElem?_drop]
  constructor
  · intro h
    apply List.ext_getElem?
    intro i
    by_cases hi : i < data.length
    · rw [hslice i hi]
      have hin : (writeAt zero content off data)[off + i]? = data[off + i - off]? :=
        getElem?_writeAt_inside zero content (Nat.le_add_right off i) (by omega)
      rw [h, Nat.add_sub_cancel_left] at hin
      exact hin.symm
    · rw [List.getElem?_eq_none (by omega), List.getElem?_eq_none (by simp; omega)]
  · intro h
    apply List.ext_getElem?
    intro i
    by_cases hi : off ≤ i ∧ i < off + data.length
    · have hin := hslice (i - off) (by omega)
      rw [← h, show off + (i - off) = i by omega] at hin
      rw [getElem?_writeAt_inside zero content hi.1 hi.2, hin]
    · exact getElem?_writeAt_of_le zero hd (by omega)

/-- A read succeeds exactly when every element of the range is there. -/
theorem readExact_eq_some_iff {content : List α} {off len : ℕ} {ds : List α} :
    readExact content off len = some ds ↔
      ds.length = len ∧ ∀ k < len, content[off + k]? = ds[k]? := by
  unfold readExact
  split_ifs with h0 h1
  · subst h0
    simp only [Option.some.injEq, Nat.not_lt_zero, false_imp_iff, implies_true, and_true]
    exact ⟨fun h => h ▸ rfl, fun h => (List.length_eq_zero_iff.mp h).symm⟩
  · simp only [Option.some.injEq]
    constructor
    · rintro rfl
      refine ⟨by simp; omega, fun k hk => ?_⟩
      rw [List.getElem?_take_of_lt hk, List.getElem?_drop]
    · rintro ⟨hlen, hk⟩
      apply List.ext_getElem?
      intro k
      by_cases hlt : k < len
      · rw [List.getElem?_take_of_lt hlt, List.getElem?_drop, hk k hlt]
      · rw [List.getElem?_eq_none (by simp; omega), List.getElem?_eq_none (by omega)]
  · refine iff_of_false (by simp) ?_
    rintro ⟨hlen, hk⟩
    -- the last element of the range is missing
    have hlast := hk (len - 1) (by omega)
    rw [List.getElem?_eq_none (by omega), List.getElem?_eq_getElem (by omega)] at hlast
    cases hlast

/-! ## One address space over a list of files -/

section Space

variable {φ : Type}

/-- The element at address `x` of the space that the segments `(capacity, file)` form. -/
def elementAt (contents : φ → List α) : List (ℕ × φ) → ℕ → Option α
  | [], _ => none
  | (cap, file) :: segs, x =>
    if x < cap then (contents file)[x]? else elementAt contents segs (x - cap)

/-- The address at which segment `j` begins. -/
def startOf (segs : List (ℕ × φ)) (j : ℕ) : ℕ := ((segs.take j).map Prod.fst).sum

/-- No file is that of two segments with room for something. -/
def Separate (segs : List (ℕ × φ)) : Prop :=
  segs.Pairwise fun seg seg' => seg.2 = seg'.2 → seg.1 = 0 ∨ seg'.1 = 0

/-- No file is that of two segments, unless both have no room. -/
def Distinct (segs : List (ℕ × φ)) : Prop :=
  segs.Pairwise fun seg seg' => seg.2 = seg'.2 → seg.1 = 0 ∧ seg'.1 = 0

instance [DecidableEq φ] (segs : List (ℕ × φ)) : Decidable (Separate segs) :=
  inferInstanceAs (Decidable (segs.Pairwise _))

instance [DecidableEq φ] (segs : List (ℕ × φ)) : Decidable (Distinct segs) :=
  inferInstanceAs (Decidable (segs.Pairwise _))

/-- The first segment begins at address zero. -/
@[simp] theorem startOf_zero (segs : List (ℕ × φ)) : startOf segs 0 = 0 := rfl

/-- Every later segment begins one capacity further. -/
@[simp] theorem startOf_succ (cap : ℕ) (file : φ) (segs : List (ℕ × φ)) (j : ℕ) :
    startOf ((cap, file) :: segs) (j + 1) = cap + startOf segs j := by
  simp [startOf]

/-- Reading inside segment `j` reads its file. -/
theorem elementAt_segment {segs : List (ℕ × φ)} {j cap k : ℕ} {file : φ}
    (contents : φ → List α) (hj : segs[j]? = some (cap, file)) (hk : k < cap) :
    elementAt contents segs (startOf segs j + k) = (contents file)[k]? := by
  induction segs generalizing j with
  | nil => simp at hj
  | cons seg segs ih =>
    obtain ⟨c, f⟩ := seg
    cases j with
    | zero =>
      simp only [List.getElem?_cons_zero, Option.some.injEq, Prod.mk.injEq] at hj
      obtain ⟨rfl, rfl⟩ := hj
      simp [elementAt, hk]
    | succ j =>
      rw [startOf_succ, elementAt, if_neg (by omega),
        show c + startOf segs j + k - c = startOf segs j + k by omega]
      exact ih (by simpa using hj)

/-- An address lies in a segment, or behind all of them. -/
theorem segment_or_beyond (α : Type) (segs : List (ℕ × φ)) (x : ℕ) :
    (∃ j cap file k, segs[j]? = some (cap, file) ∧ k < cap ∧ x = startOf segs j + k) ∨
      ∀ contents : φ → List α, elementAt contents segs x = none := by
  induction segs generalizing x with
  | nil => exact Or.inr fun _ => rfl
  | cons seg segs ih =>
    obtain ⟨cap, file⟩ := seg
    by_cases hx : x < cap
    · exact Or.inl ⟨0, cap, file, x, rfl, hx, by simp⟩
    rcases ih (x - cap) with ⟨j, cap', file', k, hj, hk, hsum⟩ | hnone
    · refine Or.inl ⟨j + 1, cap', file', k, by simpa using hj, hk, ?_⟩
      rw [startOf_succ]
      omega
    · right
      intro contents
      rw [elementAt, if_neg hx]
      exact hnone contents

/-- Segments with room that share a file are one. -/
theorem Separate.eq {segs : List (ℕ × φ)} (h : Separate segs) {i j cap cap' : ℕ} {file : φ}
    (hi : segs[i]? = some (cap, file)) (hj : segs[j]? = some (cap', file)) (hcap : 0 < cap)
    (hcap' : 0 < cap') : i = j := by
  obtain ⟨hilt, hi⟩ := List.getElem?_eq_some_iff.mp hi
  obtain ⟨hjlt, hj⟩ := List.getElem?_eq_some_iff.mp hj
  have hpair := List.pairwise_iff_getElem.mp h
  rcases Nat.lt_trichotomy i j with hij | hij | hij
  · have hzero := hpair i j hilt hjlt hij (by rw [hi, hj])
    rw [hi, hj] at hzero
    dsimp only at hzero
    omega
  · exact hij
  · have hzero := hpair j i hjlt hilt hij (by rw [hi, hj])
    rw [hi, hj] at hzero
    dsimp only at hzero
    omega

theorem Distinct.separate {segs : List (ℕ × φ)} (h : Distinct segs) : Separate segs :=
  List.Pairwise.imp (fun hpair hfile => Or.inl (hpair hfile).1) h

/-- Two segments that share a file are one, or have no room. -/
theorem Distinct.eq_or {segs : List (ℕ × φ)} (h : Distinct segs) {i j cap cap' : ℕ} {file : φ}
    (hi : segs[i]? = some (cap, file)) (hj : segs[j]? = some (cap', file)) :
    i = j ∨ cap = 0 ∧ cap' = 0 := by
  obtain ⟨hilt, hi⟩ := List.getElem?_eq_some_iff.mp hi
  obtain ⟨hjlt, hj⟩ := List.getElem?_eq_some_iff.mp hj
  have hpair := List.pairwise_iff_getElem.mp h
  rcases Nat.lt_trichotomy i j with hij | hij | hij
  · have hzero := hpair i j hilt hjlt hij (by rw [hi, hj])
    rw [hi, hj] at hzero
    exact Or.inr hzero
  · exact Or.inl hij
  · have hzero := hpair j i hjlt hilt hij (by rw [hi, hj])
    rw [hi, hj] at hzero
    exact Or.inr hzero.symm

/-- What the files are called makes no difference. -/
theorem separate_map_iff {ψ : Type} {f : φ → ψ} (hf : Function.Injective f) (segs : List (ℕ × φ)) :
    Separate (segs.map (Prod.map id f)) ↔ Separate segs := by
  unfold Separate
  rw [List.pairwise_map]
  simp only [Prod.map_fst, Prod.map_snd, hf.eq_iff, id]

theorem distinct_map_iff {ψ : Type} {f : φ → ψ} (hf : Function.Injective f) (segs : List (ℕ × φ)) :
    Distinct (segs.map (Prod.map id f)) ↔ Distinct segs := by
  unfold Distinct
  rw [List.pairwise_map]
  simp only [Prod.map_fst, Prod.map_snd, hf.eq_iff, id]

variable [DecidableEq φ]

/-- The files after a write of `data` at `off` of one of them. -/
def writeTo (zero : α) (contents : φ → List α) (file : φ) (off : ℕ) (data : List α) : φ → List α :=
  Function.update contents file (writeAt zero (contents file) off data)

@[simp] theorem writeTo_nil (zero : α) (contents : φ → List α) (file : φ) (off : ℕ) :
    writeTo zero contents file off [] = contents := by
  simp [writeTo]

/-- A write to another file leaves the file alone. -/
theorem writeTo_of_ne (zero : α) (contents : φ → List α) {file other : φ} (h : other ≠ file)
    (off : ℕ) (data : List α) : writeTo zero contents file off data other = contents other :=
  Function.update_of_ne h _ _

@[simp] theorem writeTo_self (zero : α) (contents : φ → List α) (file : φ) (off : ℕ)
    (data : List α) :
    writeTo zero contents file off data file = writeAt zero (contents file) off data :=
  Function.update_self _ _ _

/-- The files after a write of `data` at address `x` of the space, segment after segment. -/
def writeAcross (zero : α) : (φ → List α) → List (ℕ × φ) → ℕ → List α → φ → List α
  | contents, [], _, _ => contents
  | contents, (cap, file) :: segs, x, data =>
    if x < cap then
      writeAcross zero (writeTo zero contents file x (data.take (cap - x))) segs 0
        (data.drop (cap - x))
    else writeAcross zero contents segs (x - cap) data

@[simp] theorem writeAcross_nil (zero : α) (contents : φ → List α) (segs : List (ℕ × φ)) (x : ℕ) :
    writeAcross zero contents segs x [] = contents := by
  induction segs generalizing contents x with
  | nil => rfl
  | cons seg segs ih =>
    rw [writeAcross]
    split_ifs
    · rw [List.take_nil, List.drop_nil, writeTo_nil, ih]
    · exact ih contents _

/-- A write of data that begins in a segment: its part that the segment has room for, and the rest
at the start of what follows. -/
theorem writeAcross_cons (zero : α) (contents : φ → List α) {cap x : ℕ} (file : φ)
    (segs : List (ℕ × φ)) {data rest : List α} (hfits : x + data.length ≤ cap)
    (hrest : rest = [] ∨ x + data.length = cap) :
    writeAcross zero contents ((cap, file) :: segs) x (data ++ rest) =
      writeAcross zero (writeTo zero contents file x data) segs (x + data.length - cap) rest := by
  rw [writeAcross]
  split_ifs with hx
  · rcases hrest with rfl | hend
    · rw [List.append_nil, List.take_of_length_le (by omega), List.drop_of_length_le (by omega),
        writeAcross_nil, writeAcross_nil]
    · rw [List.take_left' (by omega), List.drop_left' (by omega),
        show x + data.length - cap = 0 by omega]
  · obtain rfl : data = [] := List.eq_nil_of_length_eq_zero (by omega)
    rw [List.nil_append, writeTo_nil, List.length_nil, Nat.add_zero]

/-- No file is longer than a segment of it has room for. -/
def Fits (contents : φ → List α) (segs : List (ℕ × φ)) : Prop :=
  ∀ seg ∈ segs, (contents seg.2).length ≤ seg.1

theorem Fits.write (zero : α) {contents : φ → List α} {segs : List (ℕ × φ)} {j cap off : ℕ}
    {file : φ} {data : List α} (h : Fits contents segs) (hdistinct : Distinct segs)
    (hj : segs[j]? = some (cap, file)) (hd : off + data.length ≤ cap) :
    Fits (writeTo zero contents file off data) segs := by
  by_cases hnil : data = []
  · rwa [hnil, writeTo_nil]
  rintro ⟨cap', file'⟩ hseg
  by_cases hfile : file' = file
  · subst hfile
    obtain ⟨i, hi⟩ := List.mem_iff_getElem?.mp hseg
    have hpos := List.length_pos_iff.mpr hnil
    rcases hdistinct.eq_or hi hj with rfl | ⟨-, hzero⟩
    · rw [hi, Option.some.injEq, Prod.mk.injEq] at hj
      obtain ⟨rfl, -⟩ := hj
      rw [writeTo_self]
      exact length_writeAt_le zero (h _ hseg) hd
    · omega
  · rw [writeTo_of_ne zero contents hfile]
    exact h _ hseg

end Space

/-! ## Overlays -/

/-- Outside the addresses from `start` to `stop` the partial content `u` is `w`, and a `zero` where
nothing was and a gap had to be filled. -/
def KeepsOutside (zero : α) (u w : ℕ → Option α) (start stop : ℕ) : Prop :=
  ∀ x, x < start ∨ stop ≤ x → u x = w x ∨ w x = none ∧ u x = some zero

theorem KeepsOutside.refl (zero : α) (w : ℕ → Option α) (start stop : ℕ) :
    KeepsOutside zero w w start stop :=
  fun _ _ => Or.inl rfl

/-- What was there stays there outside the range. -/
theorem KeepsOutside.eq_some {zero b : α} {u w : ℕ → Option α} {start stop x : ℕ}
    (h : KeepsOutside zero u w start stop) (hb : w x = some b) (hx : x < start ∨ stop ≤ x) :
    u x = some b := by
  rcases h x hx with hkept | ⟨hnone, -⟩
  · rw [hkept, hb]
  · rw [hnone] at hb
    cases hb

theorem KeepsOutside.mono {zero : α} {u w : ℕ → Option α} {start stop start' stop' : ℕ}
    (h : KeepsOutside zero u w start stop) (hstart : start' ≤ start) (hstop : stop ≤ stop') :
    KeepsOutside zero u w start' stop' :=
  fun x hx => h x (by omega)

theorem KeepsOutside.trans {zero : α} {u v w : ℕ → Option α} {start stop : ℕ}
    (h : KeepsOutside zero v w start stop) (h' : KeepsOutside zero u v start stop) :
    KeepsOutside zero u w start stop := by
  intro x hx
  rcases h' x hx with hu | ⟨hnone, hzero⟩
  · rcases h x hx with hv | ⟨hw, hv⟩
    · exact Or.inl (hu.trans hv)
    · exact Or.inr ⟨hw, hu.trans hv⟩
  · rcases h x hx with hv | ⟨-, hv⟩
    · exact Or.inr ⟨hv ▸ hnone, hzero⟩
    · rw [hnone] at hv
      cases hv

/-- The partial content `u` is `w` with `data` written at `start`. -/
structure Overlays (zero : α) (u w : ℕ → Option α) (start : ℕ) (data : List α) : Prop where
  inside : ∀ x, start ≤ x → x < start + data.length → u x = data[x - start]?
  outside : KeepsOutside zero u w start (start + data.length)

theorem Overlays.refl (zero : α) (w : ℕ → Option α) (start : ℕ) : Overlays zero w w start [] where
  inside x h h' := by simp only [List.length_nil] at h'; omega
  outside := .refl zero w _ _

/-- Data written where other data ended is one write of both. -/
theorem Overlays.append {zero : α} {u v w : ℕ → Option α} {start : ℕ} {data data' : List α}
    (h : Overlays zero v w start data) (h' : Overlays zero u v (start + data.length) data') :
    Overlays zero u w start (data ++ data') where
  inside := by
    intro x hx hx'
    rw [List.length_append] at hx'
    by_cases hfirst : x < start + data.length
    · have hv := h.inside x hx hfirst
      rw [List.getElem?_append_left (by omega)]
      rw [List.getElem?_eq_getElem (by omega : x - start < data.length)] at hv ⊢
      exact h'.outside.eq_some hv (Or.inl hfirst)
    · rw [List.getElem?_append_right (by omega), h'.inside x (by omega) (by omega)]
      congr 1
      omega
  outside := by
    rw [List.length_append, ← Nat.add_assoc]
    exact (h.outside.mono (Nat.le_refl _) (by omega)).trans
      (h'.outside.mono (by omega) (Nat.le_refl _))

/-- Where no two segments with room share a file, a write that stays inside a segment is a write to
the address space. -/
theorem overlays_write {φ : Type} [DecidableEq φ] (zero : α) {segs : List (ℕ × φ)}
    (hseparate : Separate segs) (contents : φ → List α) {j cap off : ℕ} {file : φ}
    {data : List α} (hj : segs[j]? = some (cap, file)) (hd : off + data.length ≤ cap) :
    Overlays zero (elementAt (writeTo zero contents file off data) segs) (elementAt contents segs)
      (startOf segs j + off) data where
  inside x h h' := by
    obtain ⟨k, rfl⟩ := Nat.exists_eq_add_of_le (Nat.le_of_add_right_le h)
    rw [elementAt_segment _ hj (by omega), writeTo_self,
      getElem?_writeAt_inside zero _ (by omega) (by omega)]
    congr 1
    omega
  outside x h := by
    rcases segment_or_beyond α segs x with ⟨i, cap', file', k, hi, hk, rfl⟩ | hnone
    · rw [elementAt_segment _ hi hk, elementAt_segment _ hi hk]
      by_cases hfile : file' = file
      · subst hfile
        by_cases hnil : data = []
        · exact Or.inl (by rw [hnil, writeTo_nil])
        have hpos := List.length_pos_iff.mpr hnil
        obtain rfl := hseparate.eq hi hj (by omega) (by omega)
        rw [writeTo_self]
        exact getElem?_writeAt_fill zero _ (by omega)
      · exact Or.inl (by rw [writeTo_of_ne zero contents hfile])
    · exact Or.inl (by rw [hnone, hnone])

end Fissure.Library
