import Fissure.Library.SparseFile

/-!
# Content cut into blocks

A content is cut into blocks of `B` elements, the last one possibly shorter. A buffer of
the same length agrees with the content on a block when the elements of the block are those
of the content. Writing a block of the content into the buffer makes it agree there and
costs no agreement elsewhere; a buffer that agrees on every block is the content.
-/

set_option autoImplicit false

namespace Fissure.Library

variable {α : Type}

/-- Block `i` of a content that is cut into blocks of `B` elements. -/
def blockAt (B : ℕ) (content : List α) (i : ℕ) : List α := (content.drop (i * B)).take B

/-- The buffer holds the elements of block `i` of the content. -/
def AgreesOn (B : ℕ) (content buffer : List α) (i : ℕ) : Prop :=
  ∀ x, x / B = i → x < content.length → buffer[x]? = content[x]?

/-- A block is as long as the content allows. -/
theorem length_blockAt (B : ℕ) (content : List α) (i : ℕ) :
    (blockAt B content i).length = min B (content.length - i * B) := by
  simp [blockAt]

/-- A block ends inside the content. -/
theorem blockAt_end_le {B i : ℕ} {content : List α} (h : i * B ≤ content.length) :
    i * B + (blockAt B content i).length ≤ content.length := by
  rw [length_blockAt]
  omega

/-- The elements of a block are those of the content. -/
theorem getElem?_blockAt {B i k : ℕ} {content : List α} (hk : k < B) :
    (blockAt B content i)[k]? = content[i * B + k]? := by
  rw [blockAt, List.getElem?_take_of_lt hk, List.getElem?_drop]

/-- After block `i` is written the buffer agrees on it. -/
theorem agreesOn_writeAt_self {B i : ℕ} (hB : 0 < B) (zero : α) (content buffer : List α) :
    AgreesOn B content (writeAt zero buffer (i * B) (blockAt B content i)) i := by
  rintro x rfl hx
  have hdiv : x / B * B ≤ x := Nat.div_mul_le_self x B
  have hmod : x < x / B * B + B := by
    have := Nat.lt_div_mul_add (a := x) hB
    omega
  rw [getElem?_writeAt_inside zero buffer hdiv (by rw [length_blockAt]; omega),
    getElem?_blockAt (by omega)]
  congr 1
  omega

/-- Writing a block costs no agreement on any block. -/
theorem AgreesOn.writeAt {B i j : ℕ} (hB : 0 < B) (zero : α) {content buffer : List α}
    (h : AgreesOn B content buffer j) :
    AgreesOn B content (writeAt zero buffer (i * B) (blockAt B content i)) j := by
  by_cases hij : j = i
  · subst hij
    exact agreesOn_writeAt_self hB zero content buffer
  rintro x rfl hx
  rw [List.getElem?_eq_getElem hx]
  apply getElem?_writeAt_outside
  · rw [h x rfl hx, List.getElem?_eq_getElem hx]
  · by_contra hin
    push Not at hin
    apply hij
    rw [Nat.div_eq_iff hB]
    have hlen := length_blockAt B content i
    constructor <;> omega

/-- A buffer of the right length that agrees on every block is the content. -/
theorem eq_of_agreesOn {B : ℕ} {content buffer : List α}
    (hlen : buffer.length = content.length)
    (h : ∀ i, i * B < content.length → AgreesOn B content buffer i) :
    buffer = content := by
  apply List.ext_getElem?
  intro x
  by_cases hx : x < content.length
  · exact h (x / B) (Nat.lt_of_le_of_lt (Nat.div_mul_le_self x B) hx) x rfl hx
  · rw [List.getElem?_eq_none (by omega), List.getElem?_eq_none (by omega)]

/-- The content agrees with itself. -/
theorem agreesOn_refl (B : ℕ) (content : List α) (i : ℕ) : AgreesOn B content content i :=
  fun _ _ _ => rfl

/-- Writing a block of the content into the content changes nothing. -/
theorem writeAt_blockAt_self {B i : ℕ} (hB : 0 < B) (zero : α) {content : List α}
    (hi : i * B ≤ content.length) :
    writeAt zero content (i * B) (blockAt B content i) = content := by
  apply @eq_of_agreesOn α B
  · by_cases hne : blockAt B content i = []
    · simp [hne]
    · rw [length_writeAt zero content _ hne]
      have := blockAt_end_le hi
      omega
  · exact fun j _ => (agreesOn_refl B content j).writeAt hB zero

end Fissure.Library
