import Mathlib.Data.List.TakeWhile
import Mathlib.Data.Nat.Notation

/-!
# Query strings

Percent-encoding writes a byte either as the ASCII character that it is or as `%` and two
hexadecimal digits; which bytes are kept is up to the encoder. A query is made of pairs `key=value`
with `&` between them. Whatever is encoded is read back (`percentDecode_percentEncode`), by decoders
that read `+` as a space and by those that do not, and a query that is appended to another one adds
its pairs to those of the other (`queryPairs_append`, `queryPairs_intercalate`).
-/

set_option autoImplicit false

namespace Fissure.Library

/-! ## Percent-encoding -/

/-- An upper-case hexadecimal digit. -/
def hexDigit (n : ℕ) : Char := if n < 10 then Char.ofNat (48 + n) else Char.ofNat (55 + n)

/-- The value of a hexadecimal digit, in upper or lower case. -/
def hexValue (c : Char) : Option ℕ :=
  let n := c.toNat
  if 48 ≤ n ∧ n ≤ 57 then some (n - 48)
  else if 65 ≤ n ∧ n ≤ 70 then some (n - 55)
  else if 97 ≤ n ∧ n ≤ 102 then some (n - 87)
  else none

/-- A byte as `%` and two digits. -/
def percentByte (b : UInt8) : List Char := ['%', hexDigit (b.toNat / 16), hexDigit (b.toNat % 16)]

/-- The bytes, encoded unless they are kept. -/
def percentEncode (keep : UInt8 → Bool) (bytes : List UInt8) : List Char :=
  bytes.flatMap fun b => if keep b then [Char.ofNat b.toNat] else percentByte b

/-- The bytes of a character that stands for itself. -/
def literalBytes (plusIsSpace : Bool) (c : Char) : List UInt8 :=
  if plusIsSpace && c == '+' then [0x20] else String.utf8EncodeChar c

/-- The bytes that are encoded; a `%` without two digits after it stands for itself. -/
def percentDecode (plusIsSpace : Bool) : List Char → List UInt8
  | [] => []
  | '%' :: high :: low :: rest =>
    match hexValue high, hexValue low with
    | some h, some l => .ofNat (h * 16 + l) :: percentDecode plusIsSpace rest
    | _, _ => 0x25 :: percentDecode plusIsSpace (high :: low :: rest)
  | c :: rest => literalBytes plusIsSpace c ++ percentDecode plusIsSpace rest

/-- An encoder keeps only ASCII characters that a decoder leaves as they are. -/
def KeepsLiterals (keep : UInt8 → Bool) : Prop :=
  ∀ b, keep b = true → b.toNat < 128 ∧ b ≠ 0x25 ∧ b ≠ 0x2B

theorem hexValue_hexDigit {n : ℕ} (h : n < 16) : hexValue (hexDigit n) = some n := by
  revert n
  decide

theorem percentDecode_percentByte (plusIsSpace : Bool) (b : UInt8) (rest : List Char) :
    percentDecode plusIsSpace (percentByte b ++ rest) = b :: percentDecode plusIsSpace rest := by
  have hb := b.toNat_lt
  have hhigh := hexValue_hexDigit (n := b.toNat / 16) (by omega)
  have hlow := hexValue_hexDigit (n := b.toNat % 16) (by omega)
  change percentDecode plusIsSpace ('%' :: _ :: _ :: rest) = _
  rw [percentDecode, hhigh, hlow]
  dsimp only
  rw [Nat.div_add_mod', UInt8.ofNat_toNat]

theorem percentDecode_literal {c : Char} (hc : c ≠ '%') (plusIsSpace : Bool) (rest : List Char) :
    percentDecode plusIsSpace (c :: rest) =
      literalBytes plusIsSpace c ++ percentDecode plusIsSpace rest := by
  rw [percentDecode]
  intro high low rest' h
  exact absurd h hc

theorem utf8EncodeChar_ofNat {b : UInt8} (h : b.toNat < 128) :
    String.utf8EncodeChar (Char.ofNat b.toNat) = [b] := by
  have hascii : ∀ n < 128, String.utf8EncodeChar (Char.ofNat n) = [UInt8.ofNat n] := by
    decide +kernel
  rw [hascii _ h, UInt8.ofNat_toNat]

theorem toNat_ofNat_char {n : ℕ} (h : n < 128) : (Char.ofNat n).toNat = n := by
  revert n
  decide +kernel

/-- **What is encoded is read back.** -/
theorem percentDecode_percentEncode {keep : UInt8 → Bool} (hkeep : KeepsLiterals keep)
    (plusIsSpace : Bool) (bytes : List UInt8) :
    percentDecode plusIsSpace (percentEncode keep bytes) = bytes := by
  induction bytes with
  | nil => rfl
  | cons b bytes ih =>
    change percentDecode plusIsSpace ((if keep b then _ else _) ++ percentEncode keep bytes) = _
    cases hb : keep b with
    | false => rw [if_neg (by simp), percentDecode_percentByte, ih]
    | true =>
      obtain ⟨hascii, hpercent, hplus⟩ := hkeep b hb
      have hne {c : Char} {n : UInt8} (hc : c.toNat = n.toNat) (hn : b ≠ n) :
          Char.ofNat b.toNat ≠ c := by
        intro h
        rw [← h, toNat_ofNat_char hascii] at hc
        exact hn (UInt8.toNat_inj.mp hc)
      have hspace : Char.ofNat b.toNat ≠ '+' := hne (n := 0x2B) (by decide) hplus
      rw [if_pos rfl, List.singleton_append,
        percentDecode_literal (hne (n := 0x25) (by decide) hpercent), ih, literalBytes]
      simp [hspace, utf8EncodeChar_ofNat hascii]

/-- What an encoder writes: what it keeps, percent signs and digits. -/
theorem mem_percentEncode {keep : UInt8 → Bool} {bytes : List UInt8} {c : Char}
    (h : c ∈ percentEncode keep bytes) :
    (∃ b, keep b = true ∧ c = Char.ofNat b.toNat) ∨ c = '%' ∨ ∃ n < 16, c = hexDigit n := by
  obtain ⟨b, -, hc⟩ := List.mem_flatMap.mp h
  have hlt := b.toNat_lt
  split_ifs at hc with hb
  · exact Or.inl ⟨b, hb, List.mem_singleton.mp hc⟩
  · simp only [percentByte, List.mem_cons, List.not_mem_nil, or_false] at hc
    rcases hc with rfl | rfl | rfl
    · exact Or.inr (Or.inl rfl)
    · exact Or.inr (Or.inr ⟨_, by omega, rfl⟩)
    · exact Or.inr (Or.inr ⟨_, by omega, rfl⟩)

/-! ## Pairs -/

theorem forall_ne_of_notMem {c : Char} {chars : List Char} (h : c ∉ chars) :
    ∀ d ∈ chars, decide (d ≠ c) = true := by
  intro d hd
  have hne : d ≠ c := fun heq => h (heq ▸ hd)
  simpa using hne

/-- The part of a URL after the first `?`, up to a fragment. -/
def queryOf (url : List Char) : List Char :=
  ((url.takeWhile (· ≠ '#')).dropWhile (· ≠ '?')).drop 1

/-- The part of a URL before the first `?`, up to a fragment. -/
def resourceOf (url : List Char) : List Char :=
  (url.takeWhile (· ≠ '#')).takeWhile (· ≠ '?')

/-- The key and the value of `key=value`. -/
def queryPair (plusIsSpace : Bool) (pair : List Char) : List UInt8 × List UInt8 :=
  (percentDecode plusIsSpace (pair.takeWhile (· ≠ '=')),
    percentDecode plusIsSpace ((pair.dropWhile (· ≠ '=')).drop 1))

/-- The pairs of a query; what is empty between two `&` is no pair. -/
def queryPairs (plusIsSpace : Bool) (query : List Char) : List (List UInt8 × List UInt8) :=
  ((query.splitOn '&').filter (· ≠ [])).map (queryPair plusIsSpace)

theorem queryPair_append {key : List Char} (hkey : '=' ∉ key) (plusIsSpace : Bool)
    (value : List Char) :
    queryPair plusIsSpace (key ++ '=' :: value) =
      (percentDecode plusIsSpace key, percentDecode plusIsSpace value) := by
  unfold queryPair
  rw [List.takeWhile_append_of_pos (forall_ne_of_notMem hkey),
    List.dropWhile_append_of_pos (forall_ne_of_notMem hkey)]
  simp

@[simp] theorem queryPairs_nil (plusIsSpace : Bool) : queryPairs plusIsSpace [] = [] := by
  simp [queryPairs]

/-- The pairs of two queries with `&` between them are those of the one and then of the other. -/
theorem queryPairs_append (plusIsSpace : Bool) (query more : List Char) :
    queryPairs plusIsSpace (query ++ '&' :: more) =
      queryPairs plusIsSpace query ++ queryPairs plusIsSpace more := by
  simp [queryPairs, List.splitOn_append_cons_self]

/-- Pairs with `&` between them are read one by one. -/
theorem queryPairs_intercalate (plusIsSpace : Bool) {pairs : List (List Char)}
    (hpairs : ∀ pair ∈ pairs, pair ≠ [] ∧ '&' ∉ pair) :
    queryPairs plusIsSpace (['&'].intercalate pairs) = pairs.map (queryPair plusIsSpace) := by
  cases hempty : pairs with
  | nil => exact queryPairs_nil plusIsSpace
  | cons pair rest =>
    rw [← hempty]
    unfold queryPairs
    rw [List.splitOn_intercalate '&' (fun pair h => (hpairs pair h).2) (by simp [hempty]),
      List.filter_eq_self.mpr fun pair h => by simpa using (hpairs pair h).1]

/-! ## URLs -/

section

variable {url path query more : List Char}

/-- A URL without a fragment is read at its first `?`. -/
theorem queryOf_eq (hfragment : '#' ∉ path ++ '?' :: query) (hpath : '?' ∉ path) :
    queryOf (path ++ '?' :: query) = query ∧ resourceOf (path ++ '?' :: query) = path := by
  unfold queryOf resourceOf
  rw [List.takeWhile_eq_self_iff.mpr (forall_ne_of_notMem hfragment),
    List.dropWhile_append_of_pos (forall_ne_of_notMem hpath),
    List.takeWhile_append_of_pos (forall_ne_of_notMem hpath)]
  simp

/-- A URL without a fragment and a `?` has an empty query. -/
theorem queryOf_eq_nil (hfragment : '#' ∉ url) (hquery : '?' ∉ url) :
    queryOf url = [] ∧ resourceOf url = url := by
  have hdrop := List.dropWhile_eq_nil_iff.mpr (forall_ne_of_notMem hquery)
  unfold queryOf resourceOf
  rw [List.takeWhile_eq_self_iff.mpr (forall_ne_of_notMem hfragment),
    List.takeWhile_eq_self_iff.mpr (forall_ne_of_notMem hquery), hdrop]
  simp

/-- What is appended to a URL with a query is appended to its query. -/
theorem queryOf_append (hfragment : '#' ∉ url ++ more) (hquery : '?' ∈ url) :
    queryOf (url ++ more) = queryOf url ++ more ∧ resourceOf (url ++ more) = resourceOf url := by
  obtain ⟨path, query, rfl, hpath⟩ := List.eq_append_cons_of_mem hquery
  have hbefore := queryOf_eq (fun h => hfragment (List.mem_append_left _ h)) hpath
  rw [List.append_assoc, List.cons_append] at hfragment ⊢
  have hafter := queryOf_eq hfragment hpath
  rw [hafter.1, hafter.2, hbefore.1, hbefore.2]
  exact ⟨rfl, rfl⟩

end

end Fissure.Library
