import Fissure.Library.SparseFile

/-!
# The content of a torrent as one stream of bytes

What the disk actor is for, without its files, handles and loops: the content is one stream that
is known at some addresses and unknown at others. A flush overlays the stream with the bytes of a
piece, a read takes a range of it. `Carries` says that the stream has given bytes at an address.
-/

set_option autoImplicit false

namespace Fissure.Interface

open Fissure.Library

/-- A partially known stream of bytes. -/
abbrev Stream := ℕ → Option UInt8

/-- The stream has the bytes `data` from address `start` on. -/
def Carries (w : Stream) (start : ℕ) (data : List UInt8) : Prop :=
  ∀ k < data.length, w (start + k) = data[k]?

/-- The `length` bytes of the stream from address `start` on, if all of them are known. -/
def bytesAt (w : Stream) (start : ℕ) : ℕ → Option (List UInt8)
  | 0 => some []
  | length + 1 => do
    let b ← w start
    let rest ← bytesAt w (start + 1) length
    some (b :: rest)

theorem bytesAt_of_carries {w : Stream} {start : ℕ} {data : List UInt8}
    (h : Carries w start data) : bytesAt w start data.length = some data := by
  induction data generalizing start with
  | nil => rfl
  | cons b data ih =>
    have hhead := h 0 (Nat.succ_pos _)
    have htail : Carries w (start + 1) data := by
      intro k hk
      rw [show start + 1 + k = start + (k + 1) by omega, h (k + 1) (Nat.succ_lt_succ hk)]
      rfl
    rw [Nat.add_zero, List.getElem?_cons_zero] at hhead
    rw [List.length_cons, bytesAt, hhead, ih htail]
    rfl

theorem Carries.append {w : Stream} {start : ℕ} {data data' : List UInt8}
    (h : Carries w start data) (h' : Carries w (start + data.length) data') :
    Carries w start (data ++ data') := by
  intro k hk
  rw [List.length_append] at hk
  by_cases hfirst : k < data.length
  · rw [h k hfirst, List.getElem?_append_left hfirst]
  · rw [List.getElem?_append_right (by omega), ← h' (k - data.length) (by omega)]
    congr 1
    omega

/-- INTERNAL: what was overlaid is carried. -/
theorem carries_of_overlays {u w : Stream} {start : ℕ} {data : List UInt8}
    (h : Overlays 0 u w start data) : Carries u start data := by
  intro k hk
  rw [h.inside (start + k) (by omega) (by omega)]
  congr 1
  omega

/-- INTERNAL: bytes outside the range that changes are carried on. -/
theorem Carries.keepsOutside {u w : Stream} {start start' stop' : ℕ} {data : List UInt8}
    (hw : Carries w start data) (h : KeepsOutside 0 u w start' stop')
    (hdisjoint : start + data.length ≤ start' ∨ stop' ≤ start) : Carries u start data := by
  intro k hk
  have hb := hw k hk
  rw [List.getElem?_eq_getElem hk] at hb ⊢
  exact h.eq_some hb (by omega)

/-- INTERNAL: a stream that carries some bytes carries every range of them. -/
theorem Carries.slice {w : Stream} {start : ℕ} {data : List UInt8} (h : Carries w start data)
    (offset length : ℕ) (hle : offset + length ≤ data.length) :
    Carries w (start + offset) ((data.drop offset).take length) := by
  intro k hk
  simp only [List.length_take, List.length_drop] at hk
  rw [Nat.add_assoc, h (offset + k) (by omega), List.getElem?_take_of_lt (by omega),
    List.getElem?_drop]

end Fissure.Interface
