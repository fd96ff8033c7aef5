import Mathlib.Data.List.Basic
import Mathlib.Data.Nat.Bitwise

/-!
# Bit vectors, bytes and clocks

What the client uses of `bitvec`, of byte slices and of `std::time`. A `BitVec` is the list
of its bits: bit `i` of a peer's bitfield says whether the peer has piece `i`. `get` is
`b[i]?`, and `*b.get(i).as_deref().unwrap_or(&false)` is `b.getD i false`; `set` panics
beyond the end, which is `none` here.
-/

set_option autoImplicit false

namespace Fissure.Model

/-- A byte string, `Vec<u8>`. -/
abbrev Bytes := List UInt8

/-- A point in time of the monotonic clock, in nanoseconds since some epoch. -/
abbrev Instant := ℕ

/-- `Duration::from_secs`, in nanoseconds. -/
def fromSecs (secs : ℕ) : ℕ := secs * 1000000000

/-- `Instant::duration_since`, which is zero when the other instant is later. -/
def Instant.durationSince (now earlier : Instant) : ℕ := now - earlier

/-- `bitvec::BitVec`. -/
abbrev Bitfield := List Bool

namespace Bitfield

/-- `bitvec![u8, _; 0; n]`. -/
def zeros (n : ℕ) : Bitfield := List.replicate n false

/-- `BitSlice::set`, which panics beyond the end. -/
def set? (b : Bitfield) (i : ℕ) (v : Bool) : Option Bitfield :=
  if i < b.length then some (b.set i v) else none

/-- `BitSlice::iter_ones`: the positions of the set bits, in increasing order. -/
def iterOnes (b : Bitfield) : List ℕ := (List.range b.length).filter fun i => b.getD i false

/-- `BitSlice::count_ones`. -/
def countOnes (b : Bitfield) : ℕ := b.countP id

/-- `!b`. -/
def not (b : Bitfield) : Bitfield := b.map (!·)

/-- `a & b`: as long as `a`, bits missing in `b` read as zero. -/
def and (a b : Bitfield) : Bitfield := a.mapIdx fun i x => x && b.getD i false

/-- The bits of one byte, most significant first. -/
def ofByte (byte : UInt8) : Bitfield := (List.range 8).map fun k => byte.toNat.testBit (7 - k)

/-- `BitVec::<u8, Msb0>::from_vec`. -/
def fromVec (bytes : Bytes) : Bitfield := bytes.flatMap ofByte

/-- The byte with the first eight bits, most significant first; bits that are missing are zero. -/
def toByte (b : Bitfield) : UInt8 :=
  .ofNat ((List.range 8).foldl (fun n k => 2 * n + (b.getD k false).toNat) 0)

/-- `BitVec::<u8, Msb0>::into_vec`, with zero storage beyond the length. -/
def intoVec (b : Bitfield) : Bytes :=
  (List.range ((b.length + 7) / 8)).map fun i => toByte (b.drop (8 * i))

/-- The set positions of a bit vector. -/
theorem mem_iterOnes {b : Bitfield} {i : ℕ} : i ∈ b.iterOnes ↔ b.getD i false = true := by
  simp only [iterOnes, List.mem_filter, List.mem_range, and_iff_right_iff_imp]
  intro h
  by_contra hlt
  rw [List.getD_eq_getElem?_getD, List.getElem?_eq_none (by omega)] at h
  cases h

/-- Each set position is visited once. -/
theorem nodup_iterOnes (b : Bitfield) : b.iterOnes.Nodup := List.nodup_range.filter _

/-- A set bit lies inside the vector. -/
theorem lt_length_of_getD {b : Bitfield} {i : ℕ} (h : b.getD i false = true) : i < b.length := by
  by_contra hlt
  rw [List.getD_eq_getElem?_getD, List.getElem?_eq_none (by omega)] at h
  cases h

/-- Reading after a write, at any position. -/
theorem getD_set {b : Bitfield} {i : ℕ} (hi : i < b.length) (v : Bool) (j : ℕ) :
    (b.set i v).getD j false = if i = j then v else b.getD j false := by
  simp only [List.getD_eq_getElem?_getD, List.getElem?_set, hi, if_true]
  split_ifs <;> rfl

/-- Bit vectors of one length that read the same are equal. -/
theorem ext_getD {a b : Bitfield} {n : ℕ} (ha : a.length = n) (hb : b.length = n)
    (h : ∀ i < n, a.getD i false = b.getD i false) : a = b := by
  apply List.ext_getElem (ha.trans hb.symm)
  intro i hi hi'
  have := h i (ha ▸ hi)
  rwa [List.getD_eq_getElem _ _ hi, List.getD_eq_getElem _ _ hi'] at this

/-- A fresh bit vector has no set bit. -/
theorem getD_zeros (n i : ℕ) : (zeros n).getD i false = false := by
  simp only [zeros, List.getD_eq_getElem?_getD, List.getElem?_replicate]
  split_ifs <;> rfl

/-- A fresh bit vector has the length asked for. -/
@[simp] theorem length_zeros (n : ℕ) : (zeros n).length = n := by simp [zeros]

/-- A mask has a set bit exactly where both vectors say so. -/
theorem countOnes_pos_iff {b : Bitfield} : 0 < b.countOnes ↔ ∃ i, b.getD i false = true := by
  simp only [countOnes, List.countP_pos_iff, id]
  constructor
  · rintro ⟨x, hx, rfl⟩
    obtain ⟨i, hi, hget⟩ := List.mem_iff_getElem.mp hx
    exact ⟨i, by rw [List.getD_eq_getElem _ _ hi, hget]⟩
  · rintro ⟨i, hi⟩
    have hlt := lt_length_of_getD hi
    exact ⟨true, List.mem_iff_getElem.mpr ⟨i, hlt, by rwa [List.getD_eq_getElem _ _ hlt] at hi⟩, rfl⟩

/-- The bits of `!a & b`: inside `a`, clear in `a` and set in `b`. -/
theorem getD_and_not (a b : Bitfield) (i : ℕ) :
    (and (not a) b).getD i false = true ↔
      i < a.length ∧ a.getD i false = false ∧ b.getD i false = true := by
  simp only [and, not, List.getD_eq_getElem?_getD, List.getElem?_mapIdx, List.getElem?_map]
  by_cases h : i < a.length
  · simp [h]
  · simp [h]

end Bitfield

end Fissure.Model
