import Mathlib.Data.List.Sort
import Mathlib.Data.Nat.Digits.Lemmas

/-!
# Bencode

The values of the format, the byte string a value is written as, and the canonical values,
whose dictionaries list their keys in strictly increasing order. A written value can be read
back from the front of any byte string (`encode_append_inj`): two values with one encoding
are equal, and a value's bytes inside a larger one are determined by its place there.
-/

set_option autoImplicit false

namespace Fissure.Library

/-- A byte string. -/
abbrev ByteString := List UInt8

/-- A bencoded value. A dictionary is the list of its entries, in the order they are written. -/
inductive Bencode where
  | int (i : ℤ)
  | bytes (b : ByteString)
  | list (l : List Bencode)
  | dict (d : List (ByteString × Bencode))

namespace Bencode

/-- The decimal digits of a number, the least significant one first. -/
def digitsOf (n : ℕ) : List ℕ := if n = 0 then [0] else Nat.digits 10 n

/-- A number in decimal, in ASCII and without leading zeros. -/
def decimal (n : ℕ) : ByteString := (digitsOf n).reverse.map fun d => UInt8.ofNat (48 + d)

/-- An integer in decimal. -/
def signed : ℤ → ByteString
  | .ofNat n => decimal n
  | .negSucc n => 45 :: decimal (n + 1)

/-- A byte string after its length and a colon. -/
def netstring (b : ByteString) : ByteString := decimal b.length ++ 58 :: b

mutual

/-- The bytes a value is written as: `i…e`, a length and the bytes, `l…e` or `d…e`. -/
def encode : Bencode → ByteString
  | int i => 105 :: (signed i ++ [101])
  | bytes b => netstring b
  | list l => 108 :: (encodeList l ++ [101])
  | dict d => 100 :: (encodeDict d ++ [101])

/-- The elements of a list, one after the other. -/
def encodeList : List Bencode → ByteString
  | [] => []
  | v :: l => encode v ++ encodeList l

/-- The entries of a dictionary, one after the other. -/
def encodeDict : List (ByteString × Bencode) → ByteString
  | [] => []
  | (k, v) :: d => netstring k ++ (encode v ++ encodeDict d)

end

/-- The entries of a dictionary are in strictly increasing order of their keys. -/
def SortedKeys {β : Type} (d : List (ByteString × β)) : Prop := d.Pairwise fun p q => p.1 < q.1

instance {β : Type} (d : List (ByteString × β)) : Decidable (SortedKeys d) :=
  inferInstanceAs (Decidable (d.Pairwise fun p q => p.1 < q.1))

/-- Every dictionary of the value, at any depth, has its keys in strictly increasing order. -/
inductive Canonical : Bencode → Prop
  | int (i : ℤ) : Canonical (.int i)
  | bytes (b : ByteString) : Canonical (.bytes b)
  | list {l : List Bencode} (elements : ∀ v ∈ l, Canonical v) : Canonical (.list l)
  | dict {d : List (ByteString × Bencode)} (sorted : SortedKeys d)
      (values : ∀ p ∈ d, Canonical p.2) : Canonical (.dict d)

/-! ## Numbers -/

/-- The bytes of the decimal digits. -/
def IsDigit (c : UInt8) : Prop := 48 ≤ c ∧ c ≤ 57

instance (c : UInt8) : Decidable (IsDigit c) := inferInstanceAs (Decidable (48 ≤ c ∧ c ≤ 57))

theorem lt_ten_of_mem_digitsOf {n d : ℕ} (h : d ∈ digitsOf n) : d < 10 := by
  unfold digitsOf at h
  split at h
  · rw [List.mem_singleton.mp h]
    omega
  · exact Nat.digits_lt_base (by omega) h

theorem ofDigits_digitsOf (n : ℕ) : Nat.ofDigits 10 (digitsOf n) = n := by
  unfold digitsOf
  split
  · next h => rw [h, Nat.ofDigits_singleton]
  · exact Nat.ofDigits_digits 10 n

theorem toNat_digit {d : ℕ} (h : d < 10) : (UInt8.ofNat (48 + d)).toNat = 48 + d := by
  rw [UInt8.toNat_ofNat']
  omega

theorem isDigit_of_mem_decimal {n : ℕ} {c : UInt8} (h : c ∈ decimal n) : IsDigit c := by
  obtain ⟨d, hd, rfl⟩ := List.mem_map.mp h
  have hlt := lt_ten_of_mem_digitsOf (List.mem_reverse.mp hd)
  have hval := toNat_digit hlt
  constructor <;> rw [UInt8.le_iff_toNat_le, hval]
  · exact Nat.le_add_right 48 d
  · exact Nat.add_le_add_left (Nat.le_of_lt_succ hlt) 48

theorem decimal_ne_nil (n : ℕ) : decimal n ≠ [] := by
  intro h
  have hnil : digitsOf n = [] := List.reverse_eq_nil_iff.mp (List.map_eq_nil_iff.mp h)
  unfold digitsOf at hnil
  split at hnil
  · exact List.cons_ne_nil _ _ hnil
  · next hn => exact hn (Nat.digits_eq_nil_iff_eq_zero.mp hnil)

/-- The number that ASCII digits stand for. -/
def ofDecimal (l : ByteString) : ℕ := Nat.ofDigits 10 (l.reverse.map fun c => c.toNat - 48)

/-- A number is read back from its digits. -/
theorem ofDecimal_decimal (n : ℕ) : ofDecimal (decimal n) = n := by
  unfold ofDecimal decimal
  rw [← List.map_reverse, List.reverse_reverse, List.map_map]
  have hid : (digitsOf n).map ((fun c : UInt8 => c.toNat - 48) ∘ fun d => UInt8.ofNat (48 + d)) =
      digitsOf n := by
    refine (List.map_congr_left fun d hd => ?_).trans (List.map_id _)
    rw [Function.comp_apply, toNat_digit (lt_ten_of_mem_digitsOf hd), Nat.add_sub_cancel_left, id]
  rw [hid, ofDigits_digitsOf]

theorem decimal_injective : Function.Injective decimal :=
  Function.LeftInverse.injective ofDecimal_decimal

/-! ## Reading a value back -/

/-- What stands before the first `c` and what stands after it are determined. -/
theorem append_cons_inj {α : Type} {c : α} {l l' r s : List α} (hl : c ∉ l) (hl' : c ∉ l')
    (h : l ++ c :: r = l' ++ c :: s) : l = l' ∧ r = s := by
  induction l generalizing l' with
  | nil =>
    cases l' with
    | nil => exact ⟨rfl, (List.cons.inj h).2⟩
    | cons x l' => exact absurd (List.mem_cons.mpr (Or.inl (List.cons.inj h).1)) hl'
  | cons x l ih =>
    cases l' with
    | nil => exact absurd (List.mem_cons.mpr (Or.inl (List.cons.inj h).1.symm)) hl
    | cons y l' =>
      obtain ⟨rfl, htail⟩ := List.cons.inj h
      obtain ⟨rfl, hrest⟩ := ih (List.not_mem_of_not_mem_cons hl)
        (List.not_mem_of_not_mem_cons hl') htail
      exact ⟨rfl, hrest⟩

theorem decimal_append_inj {c : UInt8} (hc : ¬ IsDigit c) {m n : ℕ} {r s : ByteString}
    (h : decimal m ++ c :: r = decimal n ++ c :: s) : m = n ∧ r = s := by
  have hdec := append_cons_inj (fun hm => hc (isDigit_of_mem_decimal hm))
    (fun hn => hc (isDigit_of_mem_decimal hn)) h
  exact ⟨decimal_injective hdec.1, hdec.2⟩

/-- A number does not begin with a byte that is no digit. -/
theorem decimal_append_ne_cons {c : UInt8} (hc : ¬ IsDigit c) (n : ℕ) (r s : ByteString) :
    decimal n ++ r ≠ c :: s := by
  intro h
  have hhead : (decimal n).head? = some c := by
    have := congrArg List.head? h
    rwa [List.head?_append_of_ne_nil _ (decimal_ne_nil n)] at this
  exact hc (isDigit_of_mem_decimal (List.mem_of_mem_head? hhead))

theorem signed_append_inj {i j : ℤ} {r s : ByteString}
    (h : signed i ++ 101 :: r = signed j ++ 101 :: s) : i = j ∧ r = s := by
  cases i with
  | ofNat m =>
    cases j with
    | ofNat n =>
      obtain ⟨rfl, hrest⟩ := decimal_append_inj (by decide) h
      exact ⟨rfl, hrest⟩
    | negSucc n => exact absurd h (decimal_append_ne_cons (by decide) m _ _)
  | negSucc m =>
    cases j with
    | ofNat n => exact absurd h.symm (decimal_append_ne_cons (by decide) n _ _)
    | negSucc n =>
      obtain ⟨hmn, hrest⟩ := decimal_append_inj (by decide) (List.cons.inj h).2
      exact ⟨congrArg Int.negSucc (Nat.succ.inj hmn), hrest⟩

theorem netstring_append_inj {b c r s : ByteString} (h : netstring b ++ r = netstring c ++ s) :
    b = c ∧ r = s := by
  unfold netstring at h
  rw [List.append_assoc, List.append_assoc, List.cons_append, List.cons_append] at h
  obtain ⟨hlen, hrest⟩ := decimal_append_inj (by decide) h
  exact List.append_inj hrest hlen

theorem netstring_append_ne_cons {c : UInt8} (hc : ¬ IsDigit c) (b r s : ByteString) :
    netstring b ++ r ≠ c :: s := by
  unfold netstring
  rw [List.append_assoc]
  exact decimal_append_ne_cons hc _ _ _

/-- No value begins with the byte that ends a list. -/
theorem encode_append_ne_end (v : Bencode) (r s : ByteString) : encode v ++ r ≠ 101 :: s := by
  cases v with
  | bytes b => exact netstring_append_ne_cons (by decide) b r s
  | int i | list l | dict d => simp [encode]

mutual

/-- A value is read back from the front of a byte string. -/
theorem encode_append_inj : ∀ (v w : Bencode) {r s : ByteString},
    encode v ++ r = encode w ++ s → v = w ∧ r = s
  | .int i, .int j, r, s, h => by
    simp only [encode, List.cons_append, List.append_assoc, List.nil_append] at h
    obtain ⟨rfl, hrest⟩ := signed_append_inj (List.cons.inj h).2
    exact ⟨rfl, hrest⟩
  | .bytes b, .bytes c, r, s, h => by
    obtain ⟨rfl, hrest⟩ := netstring_append_inj h
    exact ⟨rfl, hrest⟩
  | .list l, .list l', r, s, h => by
    simp only [encode, List.cons_append, List.append_assoc, List.nil_append] at h
    obtain ⟨rfl, hrest⟩ := encodeList_end_inj l l' (List.cons.inj h).2
    exact ⟨rfl, hrest⟩
  | .dict d, .dict d', r, s, h => by
    simp only [encode, List.cons_append, List.append_assoc, List.nil_append] at h
    obtain ⟨rfl, hrest⟩ := encodeDict_end_inj d d' (List.cons.inj h).2
    exact ⟨rfl, hrest⟩
  | .bytes b, .int _, r, s, h | .bytes b, .list _, r, s, h | .bytes b, .dict _, r, s, h =>
    absurd h (netstring_append_ne_cons (by decide) b _ _)
  | .int _, .bytes c, r, s, h | .list _, .bytes c, r, s, h | .dict _, .bytes c, r, s, h =>
    absurd h.symm (netstring_append_ne_cons (by decide) c _ _)
  | .int _, .list _, r, s, h | .int _, .dict _, r, s, h | .list _, .int _, r, s, h
  | .list _, .dict _, r, s, h | .dict _, .int _, r, s, h | .dict _, .list _, r, s, h => by
    simp [encode] at h

/-- The elements of a list are read back up to its end. -/
theorem encodeList_end_inj : ∀ (l l' : List Bencode) {r s : ByteString},
    encodeList l ++ 101 :: r = encodeList l' ++ 101 :: s → l = l' ∧ r = s
  | [], [], r, s, h => ⟨rfl, (List.cons.inj h).2⟩
  | [], w :: l', r, s, h => by
    simp only [encodeList, List.append_assoc] at h
    exact absurd h.symm (encode_append_ne_end w _ _)
  | v :: l, [], r, s, h => by
    simp only [encodeList, List.append_assoc] at h
    exact absurd h (encode_append_ne_end v _ _)
  | v :: l, w :: l', r, s, h => by
    simp only [encodeList, List.append_assoc] at h
    obtain ⟨rfl, htail⟩ := encode_append_inj v w h
    obtain ⟨rfl, hrest⟩ := encodeList_end_inj l l' htail
    exact ⟨rfl, hrest⟩

/-- The entries of a dictionary are read back up to its end. -/
theorem encodeDict_end_inj : ∀ (d d' : List (ByteString × Bencode)) {r s : ByteString},
    encodeDict d ++ 101 :: r = encodeDict d' ++ 101 :: s → d = d' ∧ r = s
  | [], [], r, s, h => ⟨rfl, (List.cons.inj h).2⟩
  | [], (k, w) :: d', r, s, h => by
    simp only [encodeDict, List.append_assoc] at h
    exact absurd h.symm (netstring_append_ne_cons (by decide) k _ _)
  | (k, v) :: d, [], r, s, h => by
    simp only [encodeDict, List.append_assoc] at h
    exact absurd h (netstring_append_ne_cons (by decide) k _ _)
  | (k, v) :: d, (k', w) :: d', r, s, h => by
    simp only [encodeDict, List.append_assoc] at h
    obtain ⟨rfl, hvalue⟩ := netstring_append_inj h
    obtain ⟨rfl, htail⟩ := encode_append_inj v w hvalue
    obtain ⟨rfl, hrest⟩ := encodeDict_end_inj d d' htail
    exact ⟨rfl, hrest⟩

end

theorem encode_injective : Function.Injective encode := by
  intro v w h
  exact (encode_append_inj v w (congrArg (· ++ []) h)).1

/-- The bytes of an entry's value stand in the dictionary, after those of its key. -/
theorem encode_entry_within {d : List (ByteString × Bencode)} {k : ByteString} {v : Bencode}
    (h : (k, v) ∈ d) : netstring k ++ encode v <:+: encode (.dict d) := by
  have hinner : netstring k ++ encode v <:+: encodeDict d := by
    induction d with
    | nil => exact absurd h List.not_mem_nil
    | cons p d ih =>
      obtain ⟨k', v'⟩ := p
      rcases List.mem_cons.mp h with heq | hmem
      · obtain ⟨rfl, rfl⟩ := Prod.mk.inj heq
        exact ⟨[], encodeDict d, by simp [encodeDict]⟩
      · refine (ih hmem).trans ⟨netstring k' ++ encode v', [], ?_⟩
        simp [encodeDict]
  refine hinner.trans ⟨[100], [101], ?_⟩
  simp [encode]

end Bencode

end Fissure.Library
