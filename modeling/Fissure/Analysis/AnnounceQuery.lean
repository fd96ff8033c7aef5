import Fissure.Analysis.ConnectionStream
import Fissure.Model.TrackerQuery

/-!
# What a tracker reads in an announce over HTTP

The parameters of an announce are appended to the URL of the tracker, which may have parameters of
its own. Whatever bytes the info hash and the peer id are made of, the tracker reads its own
parameters and then those of the announce, each as it was meant (`announce_query_read`). The crate
that encodes the peer id is taken at its word (`UrlEncodes`).
-/

set_option autoImplicit false

namespace Fissure.Analysis

open Fissure.Library Fissure.Model

/-- The bytes that need no encoding: letters, digits and `-._~`. -/
def unreserved (b : UInt8) : Bool :=
  let n := b.toNat
  (48 ≤ n && n ≤ 57) || (65 ≤ n && n ≤ 90) || (97 ≤ n && n ≤ 122) ||
    n == 45 || n == 46 || n == 95 || n == 126

/-- What the crate `urlencoding` says of `encode`: the bytes of the UTF-8 text are percent-encoded,
all but the unreserved ones. -/
structure UrlEncodes (urlEncode : String → String) : Prop where
  toList_eq : ∀ text, (urlEncode text).toList = percentEncode unreserved (utf8 text)

/-- A character that a URL can have in its query as it is. -/
def isQueryChar (c : Char) : Bool :=
  (decide (c.toNat < 128) && unreserved (.ofNat c.toNat)) || c == '%' || c == '=' || c == '&'

/-- The text is made of digits. -/
def PlainDigits (text : String) : Prop := ∀ c ∈ text.toList, c.isDigit = true

theorem keepsLiterals_unreserved : KeepsLiterals unreserved := by
  have hall : ∀ n < 256, unreserved (.ofNat n) = true →
      n < 128 ∧ (.ofNat n : UInt8) ≠ 0x25 ∧ (.ofNat n : UInt8) ≠ 0x2B := by decide +kernel
  intro b hb
  have h := hall b.toNat b.toNat_lt
  rw [UInt8.ofNat_toNat] at h
  exact h hb

theorem isQueryChar_percentEncode {keep : UInt8 → Bool}
    (hkeep : ∀ b, keep b = true → unreserved b = true) (bytes : Bytes) :
    ∀ c ∈ percentEncode keep bytes, isQueryChar c = true ∧ c ≠ '&' := by
  have hdigits : ∀ n < 16, isQueryChar (hexDigit n) = true ∧ hexDigit n ≠ '&' := by
    decide +kernel
  have hkept : ∀ n < 256, unreserved (.ofNat n) = true →
      isQueryChar (Char.ofNat n) = true ∧ Char.ofNat n ≠ '&' := by decide +kernel
  intro c hc
  rcases mem_percentEncode hc with ⟨b, hb, rfl⟩ | rfl | ⟨n, hn, rfl⟩
  · apply hkept b.toNat b.toNat_lt
    rw [UInt8.ofNat_toNat]
    exact hkeep b hb
  · decide
  · exact hdigits n hn

theorem percentDecode_plainDigits {text : String} (h : PlainDigits text) (plusIsSpace : Bool) :
    percentDecode plusIsSpace text.toList = utf8 text := by
  rw [utf8_eq_flatMap]
  unfold PlainDigits at h
  generalize text.toList = chars at h
  induction chars with
  | nil => rfl
  | cons c chars ih =>
    rw [List.forall_mem_cons] at h
    have hne {d : Char} (hd : d.isDigit = false) : c ≠ d := by
      rintro rfl
      rw [h.1] at hd
      cases hd
    have hplus : c ≠ '+' := hne (by decide)
    rw [percentDecode_literal (hne (by decide)), ih h.2, List.flatMap_cons, literalBytes]
    simp [hplus]

theorem plainDigits_repr (n : ℕ) : PlainDigits (Nat.repr n) := by
  intro c hc
  rw [Nat.repr, String.toList_ofList] at hc
  exact Nat.isDigit_of_mem_toDigits (by decide) (by decide) hc

/-! ## The query -/

/-- The pairs of the query string, as they are written. -/
def writtenPairs (r : TrackerRequest) : List (List Char) :=
  ["info_hash".toList ++ '=' :: percentEncode (fun _ => false) r.infoHash,
    "peer_id".toList ++ '=' :: percentEncode unreserved (utf8 r.peerId),
    "port".toList ++ '=' :: r.port.toList,
    "uploaded".toList ++ '=' :: r.uploaded.toList,
    "downloaded".toList ++ '=' :: r.downloaded.toList,
    "left".toList ++ '=' :: r.left.toList,
    "compact".toList ++ '=' :: "1".toList,
    "event".toList ++ '=' :: "started".toList]

/-- INTERNAL: the query string is made of these pairs.
SOURCE: tracker.rs:304-323 -/
theorem toList_generateQueryString {urlEncode : String → String} (hencodes : UrlEncodes urlEncode)
    (r : TrackerRequest) :
    (r.generateQueryString urlEncode).toList = ['&'].intercalate (writtenPairs r) := by
  have hfirst : "info_hash=".toList = "info_hash".toList ++ ['='] := by decide +kernel
  have hpeerId : "&peer_id=".toList = '&' :: ("peer_id".toList ++ ['=']) := by decide +kernel
  have hport : "&port=".toList = '&' :: ("port".toList ++ ['=']) := by decide +kernel
  have huploaded : "&uploaded=".toList = '&' :: ("uploaded".toList ++ ['=']) := by decide +kernel
  have hdownloaded : "&downloaded=".toList = '&' :: ("downloaded".toList ++ ['=']) := by
    decide +kernel
  have hleft : "&left=".toList = '&' :: ("left".toList ++ ['=']) := by decide +kernel
  have hlast : "&compact=1&event=started".toList =
      '&' :: ("compact".toList ++ '=' :: "1".toList) ++
        '&' :: ("event".toList ++ '=' :: "started".toList) := by decide +kernel
  unfold TrackerRequest.generateQueryString writtenPairs
  simp only [String.toList_append, String.toList_ofList, hencodes.toList_eq, hfirst, hpeerId,
    hport, huploaded, hdownloaded, hleft, hlast, List.intercalate_cons_cons,
    List.intercalate_singleton, List.append_assoc, List.cons_append, List.nil_append]
  rfl

/-- A character within a pair. -/
def InPair (c : Char) : Prop := isQueryChar c = true ∧ c ≠ '&'

instance (c : Char) : Decidable (InPair c) := inferInstanceAs (Decidable (_ ∧ _))

theorem inPair_of_plainDigits {text : String} (h : PlainDigits text) :
    ∀ c ∈ text.toList, InPair c := by
  have hdigits : ∀ n < 58, 48 ≤ n → InPair (Char.ofNat n) := by decide +kernel
  intro c hc
  obtain ⟨hlow, hhigh⟩ := Char.isDigit_iff_toNat.mp (h c hc)
  have hdigit := hdigits c.toNat (Nat.lt_succ_of_le hhigh) hlow
  rwa [Char.ofNat_toNat] at hdigit

theorem inPair_of_all {chars : List Char} (h : chars.all (fun c => decide (InPair c)) = true) :
    ∀ c ∈ chars, InPair c := fun c hc => of_decide_eq_true (List.all_eq_true.mp h c hc)

theorem inPair_append {key value : List Char} (hkey : ∀ c ∈ key, InPair c)
    (hvalue : ∀ c ∈ value, InPair c) : ∀ c ∈ key ++ '=' :: value, InPair c := by
  intro c hc
  rcases List.mem_append.mp hc with hc | hc
  · exact hkey c hc
  · rcases List.mem_cons.mp hc with rfl | hc
    · decide
    · exact hvalue c hc

/-- The request has numbers where it is written as it is. -/
structure PlainNumbers (r : TrackerRequest) : Prop where
  port : PlainDigits r.port
  uploaded : PlainDigits r.uploaded
  downloaded : PlainDigits r.downloaded
  left : PlainDigits r.left

variable {urlEncode : String → String} {r : TrackerRequest}

theorem inPair_writtenPairs (h : PlainNumbers r) :
    ∀ pair ∈ writtenPairs r, ∀ c ∈ pair, InPair c := by
  simp only [writtenPairs, List.forall_mem_cons]
  refine ⟨?_, ?_, ?_, ?_, ?_, ?_, inPair_of_all (by decide +kernel),
    inPair_of_all (by decide +kernel), by simp⟩
  · exact inPair_append (inPair_of_all (by decide +kernel)) (isQueryChar_percentEncode (by simp) _)
  · exact inPair_append (inPair_of_all (by decide +kernel))
      (isQueryChar_percentEncode (fun _ => id) _)
  · exact inPair_append (inPair_of_all (by decide +kernel)) (inPair_of_plainDigits h.port)
  · exact inPair_append (inPair_of_all (by decide +kernel)) (inPair_of_plainDigits h.uploaded)
  · exact inPair_append (inPair_of_all (by decide +kernel)) (inPair_of_plainDigits h.downloaded)
  · exact inPair_append (inPair_of_all (by decide +kernel)) (inPair_of_plainDigits h.left)

theorem forall_mem_intercalate {P : Char → Prop} {sep : Char} {pairs : List (List Char)}
    (hsep : P sep) (h : ∀ pair ∈ pairs, ∀ c ∈ pair, P c) :
    ∀ c ∈ [sep].intercalate pairs, P c := by
  induction pairs with
  | nil => simp [List.intercalate_nil]
  | cons pair pairs ih =>
    rw [List.forall_mem_cons] at h
    cases pairs with
    | nil => simpa [List.intercalate_singleton] using h.1
    | cons next pairs =>
      rw [List.intercalate_cons_cons]
      simp only [List.forall_mem_append, List.forall_mem_cons]
      exact ⟨⟨h.1, hsep, by simp⟩, ih h.2⟩

/-- INTERNAL: the query string needs no further encoding.
SOURCE: tracker.rs:304-323 -/
theorem isQueryChar_generateQueryString (hencodes : UrlEncodes urlEncode) (h : PlainNumbers r) :
    ∀ c ∈ (r.generateQueryString urlEncode).toList, isQueryChar c = true := by
  rw [toList_generateQueryString hencodes]
  refine forall_mem_intercalate (P := fun c => isQueryChar c = true) (by decide) ?_
  intro pair hpair c hc
  exact (inPair_writtenPairs h pair hpair c hc).1

/-- The parameters that an announce stands for. -/
def announcedPairs (r : TrackerRequest) : List (Bytes × Bytes) :=
  [(utf8 "info_hash", r.infoHash), (utf8 "peer_id", utf8 r.peerId), (utf8 "port", utf8 r.port),
    (utf8 "uploaded", utf8 r.uploaded), (utf8 "downloaded", utf8 r.downloaded),
    (utf8 "left", utf8 r.left), (utf8 "compact", utf8 "1"), (utf8 "event", utf8 "started")]

/-- INTERNAL: the query string is read as the parameters that it stands for. -/
theorem queryPairs_generateQueryString (hencodes : UrlEncodes urlEncode) (h : PlainNumbers r)
    (plusIsSpace : Bool) :
    queryPairs plusIsSpace (r.generateQueryString urlEncode).toList = announcedPairs r := by
  have hnone : KeepsLiterals fun _ => false := by
    intro b hb
    cases hb
  have hkey {key : String} (hplain : percentDecode plusIsSpace key.toList = utf8 key)
      (heq : '=' ∉ key.toList) (value : List Char) :
      queryPair plusIsSpace (key.toList ++ '=' :: value) =
        (utf8 key, percentDecode plusIsSpace value) := by
    rw [queryPair_append heq, hplain]
  have hliteral : ∀ text ∈ ["info_hash", "peer_id", "port", "uploaded", "downloaded", "left",
      "compact", "event", "1", "started"],
      percentDecode plusIsSpace text.toList = utf8 text := by
    cases plusIsSpace <;> decide +kernel
  have hpairs : ∀ pair ∈ writtenPairs r, pair ≠ [] ∧ '&' ∉ pair := by
    intro pair hpair
    refine ⟨?_, fun hmem => (inPair_writtenPairs h pair hpair _ hmem).2 rfl⟩
    revert pair
    simp [writtenPairs]
  rw [toList_generateQueryString hencodes, queryPairs_intercalate plusIsSpace hpairs]
  simp only [List.forall_mem_cons] at hliteral
  obtain ⟨hinfoHash, hpeerId, hport, huploaded, hdownloaded, hleft, hcompact, hevent, hone,
    hstarted, -⟩ := hliteral
  simp only [writtenPairs, announcedPairs, List.map_cons, List.map_nil,
    hkey hinfoHash (by decide +kernel), hkey hpeerId (by decide +kernel),
    hkey hport (by decide +kernel), hkey huploaded (by decide +kernel),
    hkey hdownloaded (by decide +kernel), hkey hleft (by decide +kernel),
    hkey hcompact (by decide +kernel), hkey hevent (by decide +kernel), hone, hstarted,
    percentDecode_percentEncode hnone, percentDecode_percentEncode keepsLiterals_unreserved,
    percentDecode_plainDigits h.port, percentDecode_plainDigits h.uploaded,
    percentDecode_plainDigits h.downloaded, percentDecode_plainDigits h.left]

/-- **What a tracker reads in an announce over HTTP.** For every URL without a fragment and every
request whose port and numbers are digits, whatever its info hash and peer id: the announce goes to
the resource that the URL names, with the parameters of the URL before its own, and the tracker reads
its own exactly as they were meant, whether it takes `+` for a space or not. Nothing that is appended
needs further encoding.
SOURCE: tracker.rs:26-39, tracker.rs:304-323 -/
theorem announce_query_read (hencodes : UrlEncodes urlEncode) {url : String}
    (hurl : '#' ∉ url.toList) (hplain : PlainNumbers r) (plusIsSpace : Bool) :
    resourceOf (urlWithParameters urlEncode url r).toList = resourceOf url.toList ∧
      queryPairs plusIsSpace (queryOf (urlWithParameters urlEncode url r).toList) =
        queryPairs plusIsSpace (queryOf url.toList) ++ announcedPairs r ∧
      ∀ c ∈ (r.generateQueryString urlEncode).toList, isQueryChar c = true := by
  have hchars := isQueryChar_generateQueryString hencodes hplain
  have hread := queryPairs_generateQueryString hencodes hplain plusIsSpace
  have hfragment : '#' ∉ (r.generateQueryString urlEncode).toList :=
    fun h => absurd (hchars _ h) (by decide)
  unfold urlWithParameters
  simp only [String.toList_append]
  have hall (c : Char) (hc : '#' ≠ c) :
      '#' ∉ url.toList ++ c :: (r.generateQueryString urlEncode).toList := by
    simp [hurl, hfragment, hc]
  have hamp : "&".toList = ['&'] := by decide
  have hmark : "?".toList = ['?'] := by decide
  by_cases hquery : '?' ∈ url.toList
  · obtain ⟨hq, hresource⟩ := queryOf_append (hall '&' (by decide)) hquery
    rw [if_pos hquery, hamp, List.append_assoc, List.singleton_append, hq, hresource,
      queryPairs_append, hread]
    exact ⟨rfl, rfl, hchars⟩
  · obtain ⟨hq, hresource⟩ := queryOf_eq (hall '?' (by decide)) hquery
    obtain ⟨hnothing, hself⟩ := queryOf_eq_nil hurl hquery
    rw [if_neg hquery, hmark, List.append_assoc, List.singleton_append, hq, hresource, hnothing,
      hself, hread]
    exact ⟨rfl, by simp, hchars⟩

/-- An encoder as the crate describes its own. -/
def percentEncoder (text : String) : String :=
  String.ofList (percentEncode unreserved (utf8 text))

/-- A request of a torrent with all kinds of bytes. -/
def mixedRequest : TrackerRequest where
  infoHash := (List.range 20).map fun i => .ofNat (13 * i)
  peerId := "FS0001+&=%é"
  port := "6001"
  uploaded := "0"
  downloaded := "248"
  left := "16384"

/-- An announce to a tracker with a parameter of its own. -/
theorem announce_query_read_passkey :
    resourceOf (urlWithParameters percentEncoder "http://t/announce?passkey=1" mixedRequest).toList =
        resourceOf "http://t/announce?passkey=1".toList ∧
      queryPairs true (queryOf
          (urlWithParameters percentEncoder "http://t/announce?passkey=1" mixedRequest).toList) =
        queryPairs true (queryOf "http://t/announce?passkey=1".toList) ++
          announcedPairs mixedRequest ∧
      ∀ c ∈ (mixedRequest.generateQueryString percentEncoder).toList, isQueryChar c = true :=
  announce_query_read ⟨fun _ => String.toList_ofList⟩ (by decide +kernel)
    ⟨plainDigits_repr 6001, plainDigits_repr 0, plainDigits_repr 248, plainDigits_repr 16384⟩ true

end Fissure.Analysis
