import Fissure.Library.Transition
import Fissure.Model.TorrentManager

/-!
# The rarity index of the manager

The manager keeps the frequency of each piece and, for each frequency, the set of the pieces
that have it. `RarityIndex` is their joint invariant: a piece stands in the bucket of its
frequency and in no other, an owned piece stands in none, and a piece that some recorded
bitfield holds is owned or stands in a bucket. The arms that count, record and finish pieces
keep it; the other arms do not touch these fields (`RarityIndex.congr`).
-/

set_option autoImplicit false

namespace Fissure.Analysis

open Fissure.Library Fissure.Model
open Fissure.Model.TorrentManagerActor

/-- The manager has piece `p`. -/
def Owned (s : TorrentManagerActor) (p : ℕ) : Prop := s.localBitfield.getD p false = true

/-- The frequency of piece `p`, zero for an index without a piece. -/
def frequency (s : TorrentManagerActor) (p : ℕ) : ℕ := s.piecesFrequency.getD p 0

/-- Peer `q` holds piece `p` according to its recorded bitfield. -/
def Holds (s : TorrentManagerActor) (q : String) (p : ℕ) : Prop :=
  ∃ b, s.peerBitfields.lookup q = some b ∧ b.getD p false = true

/-- The invariant of frequencies, buckets and bitfields. -/
structure RarityIndex (s : TorrentManagerActor) : Prop where
  length_local : s.localBitfield.length = s.piecesFrequency.length
  frequency_le : ∀ p, frequency s p ≤ 255
  frequency_owned : ∀ p, Owned s p → frequency s p = 0
  mem_bucket : ∀ p f, p ∈ s.rarityBucket f ↔ f.val = frequency s p ∧ 1 ≤ frequency s p
  held_lt : ∀ q p, Holds s q p → p < s.piecesFrequency.length
  held_pos : ∀ q p, Holds s q p → ¬ Owned s p → 1 ≤ frequency s p

/-- INTERNAL: an index in a bucket is a piece. -/
theorem RarityIndex.lt_of_mem_bucket {s : TorrentManagerActor} (hs : RarityIndex s) {p : ℕ}
    {f : Fin 256} (h : p ∈ s.rarityBucket f) : p < s.piecesFrequency.length := by
  have hpos := ((hs.mem_bucket p f).mp h).2
  by_contra hlt
  rw [frequency, List.getD_eq_default _ _ (Nat.not_lt.mp hlt)] at hpos
  omega

/-- The states differ in frequencies and buckets only. -/
def SameButRarity (s t : TorrentManagerActor) : Prop :=
  t = { s with rarityBucket := t.rarityBucket, piecesFrequency := t.piecesFrequency }

theorem SameButRarity.trans {s t u : TorrentManagerActor} (h : SameButRarity s t)
    (h' : SameButRarity t u) : SameButRarity s u := by
  unfold SameButRarity at *
  rw [h', h]

theorem SameButRarity.localBitfield {s t : TorrentManagerActor} (h : SameButRarity s t) :
    t.localBitfield = s.localBitfield := by
  unfold SameButRarity at h
  rw [h]

theorem SameButRarity.peerBitfields {s t : TorrentManagerActor} (h : SameButRarity s t) :
    t.peerBitfields = s.peerBitfields := by
  unfold SameButRarity at h
  rw [h]

/-- INTERNAL: raising a frequency succeeds exactly for the index of a piece; the piece moves to
the bucket of its new frequency and nothing else changes.
SOURCE: torrent_manager.rs:85-90 -/
theorem raiseFrequency_eq_some {s t : TorrentManagerActor} {idx : ℕ}
    (h : s.raiseFrequency idx = some t) :
    idx < s.piecesFrequency.length ∧ SameButRarity s t ∧
      t.piecesFrequency.length = s.piecesFrequency.length ∧
      (∀ p, frequency t p = if p = idx then min (frequency s idx + 1) 255 else frequency s p) ∧
      ∀ p f, p ∈ t.rarityBucket f ↔
        if p = idx then f = bucketOf (min (frequency s idx + 1) 255) ∨
          (f ≠ bucketOf (frequency s idx) ∧ idx ∈ s.rarityBucket f)
        else p ∈ s.rarityBucket f := by
  unfold raiseFrequency at h
  cases hold : s.piecesFrequency[idx]? with
  | none =>
    rw [hold] at h
    cases h
  | some oldFreq =>
    have hlt : idx < s.piecesFrequency.length := (List.getElem?_eq_some_iff.mp hold).1
    have hfreq : frequency s idx = oldFreq := by
      simp [frequency, hold]
    rw [hold] at h
    simp only [Option.bind_eq_bind, Option.bind_some, Option.some.injEq] at h
    subst h
    refine ⟨hlt, rfl, by simp, ?_, ?_⟩
    · intro p
      simp only [frequency, List.getD_eq_getElem?_getD, List.getElem?_set, hlt, if_true]
      by_cases hp : p = idx
      · simp [hp, hold]
      · simp [hp, Ne.symm hp]
    · intro p f
      rw [hfreq]
      simp only [Function.update_apply]
      by_cases hp : p = idx
      · subst hp
        by_cases hnew : f = bucketOf (min (oldFreq + 1) 255)
        · simp [hnew]
        · by_cases hf : f = bucketOf oldFreq
          · simp [hnew, ← hf]
          · simp [hnew, hf]
      · -- removing and inserting `idx` says nothing about `p` in any bucket
        simp only [if_neg hp]
        split_ifs with hnew hf hf
        · simp only [Finset.mem_insert, Finset.mem_erase, hp, ne_eq, not_false_eq_true, true_and,
            false_or, hnew, hf]
        · simp only [Finset.mem_insert, hp, false_or, hnew]
        · simp only [Finset.mem_erase, hp, ne_eq, not_false_eq_true, true_and, hf]
        · exact Iff.rfl

/-- INTERNAL: raising the frequency of a piece that is not owned keeps the invariant, and the
piece then stands in a bucket.
SOURCE: torrent_manager.rs:85-90 -/
theorem rarityIndex_raiseFrequency {s t : TorrentManagerActor} {idx : ℕ} (hs : RarityIndex s)
    (hidx : ¬ Owned s idx) (h : s.raiseFrequency idx = some t) :
    RarityIndex t ∧ SameButRarity s t ∧
      t.piecesFrequency.length = s.piecesFrequency.length ∧ idx < s.piecesFrequency.length ∧
      ∀ p, (p = idx ∨ 1 ≤ frequency s p) → 1 ≤ frequency t p := by
  obtain ⟨hlt, hrest, hlen, hfreq, hmem⟩ := raiseFrequency_eq_some h
  have hlocal := hrest.localBitfield
  have hpeers := hrest.peerBitfields
  have howned (p : ℕ) : Owned t p ↔ Owned s p := by unfold Owned; rw [hlocal]
  have hholds (q : String) (p : ℕ) : Holds t q p ↔ Holds s q p := by unfold Holds; rw [hpeers]
  have hmono : ∀ p, (p = idx ∨ 1 ≤ frequency s p) → 1 ≤ frequency t p := by
    intro p hp
    rw [hfreq]
    split_ifs with hpi
    · omega
    · exact hp.resolve_left hpi
  refine ⟨⟨by rw [hlocal, hlen, hs.length_local], ?_, ?_, ?_, ?_, ?_⟩, hrest, hlen, hlt, hmono⟩
  · intro p
    have := hs.frequency_le p
    rw [hfreq]
    split_ifs <;> omega
  · intro p hp
    rw [howned] at hp
    have hne : p ≠ idx := fun e : p = idx => hidx (e ▸ hp)
    rw [hfreq, if_neg hne]
    exact hs.frequency_owned p hp
  · intro p f
    rw [hmem, hfreq]
    split_ifs with hp
    · -- the old bucket is the only one that held the piece
      have hle := hs.frequency_le idx
      rw [hs.mem_bucket]
      simp only [bucketOf, Fin.ext_iff, ne_eq]
      omega
    · exact hs.mem_bucket p f
  · intro q p hq
    rw [hlen]
    exact hs.held_lt q p ((hholds q p).mp hq)
  · intro q p hq hp
    exact hmono p (Or.inr (hs.held_pos q p ((hholds q p).mp hq) fun h => hp ((howned p).mpr h)))

/-- INTERNAL: one round of the loop over a bitfield. The piece it visits is then owned or
stands in a bucket; `existing` is the bitfield the manager has recorded for the peer.
SOURCE: torrent_manager.rs:71-91 -/
theorem rarityIndex_countPiece {s t : TorrentManagerActor} {q : String} {idx : ℕ}
    (hs : RarityIndex s) (h : countPiece (s.peerBitfields.lookup q) s idx = some t) :
    RarityIndex t ∧ SameButRarity s t ∧
      t.piecesFrequency.length = s.piecesFrequency.length ∧ idx < s.piecesFrequency.length ∧
      (∀ p, 1 ≤ frequency s p → 1 ≤ frequency t p) ∧ (¬ Owned s idx → 1 ≤ frequency t idx) := by
  unfold countPiece at h
  by_cases hown : s.localBitfield.getD idx false = true
  · rw [if_pos hown] at h
    cases h
    refine ⟨hs, rfl, rfl, ?_, fun p hp => hp, fun hnot => absurd hown hnot⟩
    rw [← hs.length_local]
    exact Bitfield.lt_length_of_getD hown
  · rw [if_neg hown] at h
    -- a piece the peer had already is held, so it was counted before
    have hraise (hnew : s.raiseFrequency idx = some t) :
        RarityIndex t ∧ SameButRarity s t ∧
          t.piecesFrequency.length = s.piecesFrequency.length ∧ idx < s.piecesFrequency.length ∧
          (∀ p, 1 ≤ frequency s p → 1 ≤ frequency t p) ∧ (¬ Owned s idx → 1 ≤ frequency t idx) := by
      obtain ⟨ht, hrest, hlen, hlt, hmono⟩ := rarityIndex_raiseFrequency hs hown hnew
      exact ⟨ht, hrest, hlen, hlt, fun p hp => hmono p (Or.inr hp), fun _ => hmono idx (Or.inl rfl)⟩
    cases hq : s.peerBitfields.lookup q with
    | none =>
      rw [hq] at h
      exact hraise h
    | some oldB =>
      rw [hq] at h
      by_cases hold : oldB.getD idx false = true
      · have hheld : Holds s q idx := ⟨oldB, hq, hold⟩
        simp only [hold, Bool.not_true, Bool.false_eq_true, if_false, Option.some.injEq] at h
        subst h
        exact ⟨hs, rfl, rfl, hs.held_lt q idx hheld, fun p hp => hp,
          fun hnot => hs.held_pos q idx hheld hnot⟩
      · simp only [hold, Bool.not_false, if_true] at h
        exact hraise h

/-- INTERNAL: the whole loop over the ones of a bitfield. Afterwards every piece of the bitfield
is owned or stands in a bucket. The induction is on the ones still to visit.
SOURCE: torrent_manager.rs:67-93 -/
theorem rarityIndex_foldlM_countPiece {s t : TorrentManagerActor} {q : String} {l : List ℕ}
    (hs : RarityIndex s) (h : l.foldlM (countPiece (s.peerBitfields.lookup q)) s = some t) :
    RarityIndex t ∧ SameButRarity s t ∧
      t.piecesFrequency.length = s.piecesFrequency.length ∧
      (∀ p, 1 ≤ frequency s p → 1 ≤ frequency t p) ∧
      ∀ p ∈ l, p < s.piecesFrequency.length ∧ (¬ Owned s p → 1 ≤ frequency t p) := by
  induction l generalizing s with
  | nil =>
    cases h
    exact ⟨hs, rfl, rfl, fun p hp => hp, by simp⟩
  | cons idx l ih =>
    rw [List.foldlM_cons, Option.bind_eq_bind, Option.bind_eq_some_iff] at h
    obtain ⟨u, hu, h⟩ := h
    obtain ⟨hiu, hsu, hlenu, hltu, hmonou, hposu⟩ := rarityIndex_countPiece hs hu
    rw [← hsu.peerBitfields] at h
    obtain ⟨hit, hut, hlent, hmonot, hall⟩ := ih hiu h
    refine ⟨hit, hsu.trans hut, hlent.trans hlenu, fun p hp => hmonot p (hmonou p hp), ?_⟩
    intro p hp
    rcases List.mem_cons.mp hp with rfl | hp
    · exact ⟨hltu, fun hnot => hmonot p (hposu hnot)⟩
    · have hp := hall p hp
      rw [hlenu] at hp
      refine ⟨hp.1, fun hnot => hp.2 ?_⟩
      unfold Owned at hnot ⊢
      rwa [hsu.localBitfield]

/-- INTERNAL: counting and then recording a bitfield keeps the invariant.
SOURCE: torrent_manager.rs:116-118, torrent_manager.rs:229-232 -/
theorem rarityIndex_record {s t : TorrentManagerActor} {q : String} {bitfield : Bitfield}
    (hs : RarityIndex s) (h : s.updateFreqBitfield bitfield q = some t) :
    SameButRarity s t ∧ t.piecesFrequency.length = s.piecesFrequency.length ∧
      RarityIndex { t with peerBitfields := t.peerBitfields.insert q bitfield } := by
  obtain ⟨ht, hrest, hlen, hmono, hall⟩ := rarityIndex_foldlM_countPiece hs h
  -- what a peer holds afterwards, it holds through the new bitfield or held before
  have hholds : ∀ q' p, Holds { t with peerBitfields := t.peerBitfields.insert q bitfield } q' p →
      p ∈ bitfield.iterOnes ∨ Holds t q' p := by
    rintro q' p ⟨b, hb, hp⟩
    change (t.peerBitfields.insert q bitfield).lookup q' = some b at hb
    rw [HashMap.lookup_insert_eq] at hb
    split_ifs at hb with hq
    · cases hb
      exact Or.inl (Bitfield.mem_iterOnes.mpr hp)
    · exact Or.inr ⟨b, hb, hp⟩
  refine ⟨hrest, hlen, ⟨ht.length_local, ht.frequency_le, ht.frequency_owned, ht.mem_bucket, ?_, ?_⟩⟩
  · intro q' p hp
    rcases hholds q' p hp with hp | hp
    · exact hlen ▸ (hall p hp).1
    · exact ht.held_lt q' p hp
  · intro q' p hp hown
    rcases hholds q' p hp with hp | hp
    · apply (hall p hp).2
      unfold Owned at hown ⊢
      rwa [← hrest.localBitfield]
    · exact ht.held_pos q' p hp hown

/-- INTERNAL: the invariant does not look at work lists, counts, managers and the log. -/
theorem RarityIndex.congr {s t : TorrentManagerActor} (hs : RarityIndex s)
    (hfreq : t.piecesFrequency = s.piecesFrequency) (hbucket : t.rarityBucket = s.rarityBucket)
    (hlocal : t.localBitfield = s.localBitfield) (hpeers : t.peerBitfields = s.peerBitfields) :
    RarityIndex t := by
  obtain ⟨h1, h2, h3, h4, h5, h6⟩ := hs
  constructor
  all_goals
    unfold frequency at *
    unfold Owned Holds at *
    rw [hfreq]
    try rw [hlocal]
    try rw [hbucket]
    try rw [hpeers]
    assumption

theorem raiseFrequency_withPeerBitfields (s : TorrentManagerActor)
    (bitfields : HashMap String Bitfield) (idx : ℕ) :
    { s with peerBitfields := bitfields }.raiseFrequency idx =
      (s.raiseFrequency idx).map fun t => { t with peerBitfields := bitfields } := by
  unfold raiseFrequency
  cases s.piecesFrequency[idx]? with
  | none => rfl
  | some oldFreq => rfl

theorem updateFreqHave_eq {s : TorrentManagerActor} {q : String} {b : Bitfield}
    (hb : s.peerBitfields.lookup q = some b) (i : ℕ) :
    s.updateFreqHave q i =
      if s.localBitfield.getD i false = true ∨ b.getD i false = true then some s
      else if i < b.length then
        (s.raiseFrequency i).map fun t =>
          { t with peerBitfields := s.peerBitfields.insert q (b.set i true) }
      else none := by
  unfold updateFreqHave
  by_cases hown : s.localBitfield.getD i false = true
  · rw [if_pos hown, if_pos (Or.inl hown)]
  · by_cases hold : b.getD i false = true
    · simp only [hb, hown, hold, if_true, or_true, Bool.false_eq_true, if_false]
    · simp only [hb, hown, hold, Bool.false_eq_true, or_self, if_false, Option.bind_eq_bind,
        Bitfield.set?]
      split_ifs with hi
      · rw [Option.bind_some, raiseFrequency_withPeerBitfields]
      · rfl

/-- INTERNAL: a `Have` sets one bit in the sender's bitfield, which must be long enough. The
frequency goes up when the bit is new and the piece is not owned.
SOURCE: torrent_manager.rs:95-112, torrent_manager.rs:233-236 -/
theorem updateBitField_eq {s : TorrentManagerActor} {q : String} {b : Bitfield}
    (hb : s.peerBitfields.lookup q = some b) (i : ℕ) :
    s.updateBitField q i =
      if i < b.length then
        (if s.localBitfield.getD i false = true ∨ b.getD i false = true then some s
          else s.raiseFrequency i).map fun u =>
            { u with peerBitfields := s.peerBitfields.insert q (b.set i true) }
      else none := by
  unfold updateBitField
  rw [updateFreqHave_eq hb]
  by_cases hcount : s.localBitfield.getD i false = true ∨ b.getD i false = true
  · -- nothing is counted: only the last line acts
    simp only [if_pos hcount, Option.bind_eq_bind, Option.bind_some, hb, Bitfield.set?]
    split_ifs with hi
    · rfl
    · rfl
  · simp only [if_neg hcount, Option.bind_eq_bind]
    split_ifs with hi
    · cases s.raiseFrequency i with
      | none => rfl
      | some u => simp [Bitfield.set?, hi] -- the bit is set twice
    · rfl

/-- INTERNAL: everything a `Have` that is handled does.
SOURCE: torrent_manager.rs:95-112, torrent_manager.rs:233-236 -/
theorem updateBitField_eq_some {s t : TorrentManagerActor} {q : String} {i : ℕ}
    (h : s.updateBitField q i = some t) :
    ∃ b u, s.peerBitfields.lookup q = some b ∧ i < b.length ∧
      ((Owned s i ∨ b.getD i false = true) ∧ u = s ∨
        ¬ Owned s i ∧ b.getD i false ≠ true ∧ s.raiseFrequency i = some u) ∧
      t = { u with peerBitfields := u.peerBitfields.insert q (b.set i true) } := by
  cases hb : s.peerBitfields.lookup q with
  | none =>
    exfalso
    unfold updateBitField updateFreqHave at h
    simp [hb] at h
  | some b =>
    rw [updateBitField_eq hb] at h
    split_ifs at h with hi hcount
    · rw [Option.map_some, Option.some.injEq] at h
      exact ⟨b, s, rfl, hi, Or.inl ⟨hcount, rfl⟩, h.symm⟩
    · rw [Option.map_eq_some_iff] at h
      obtain ⟨u, hu, rfl⟩ := h
      obtain ⟨-, hrest, -⟩ := raiseFrequency_eq_some hu
      rw [not_or] at hcount
      refine ⟨b, u, rfl, hi, Or.inr ⟨hcount.1, hcount.2, hu⟩, ?_⟩
      rw [hrest.peerBitfields]

/-- INTERNAL: setting the bit of a piece that is owned or counted keeps the invariant. -/
theorem rarityIndex_setBit {s : TorrentManagerActor} {q : String} {b : Bitfield} {i : ℕ}
    (hs : RarityIndex s) (hb : s.peerBitfields.lookup q = some b)
    (hi : i < s.piecesFrequency.length) (hpos : ¬ Owned s i → 1 ≤ frequency s i) :
    RarityIndex { s with peerBitfields := s.peerBitfields.insert q (b.set i true) } := by
  have hholds : ∀ q' p, Holds { s with
      peerBitfields := s.peerBitfields.insert q (b.set i true) } q' p → p = i ∨ Holds s q' p := by
    rintro q' p ⟨c, hc, hp⟩
    change (s.peerBitfields.insert q (b.set i true)).lookup q' = some c at hc
    rw [HashMap.lookup_insert_eq] at hc
    split_ifs at hc with hq
    · cases hc
      subst hq
      by_cases hpi : p = i
      · exact Or.inl hpi
      · rw [List.getD_eq_getElem?_getD, List.getElem?_set_ne (Ne.symm hpi),
          ← List.getD_eq_getElem?_getD] at hp
        exact Or.inr ⟨b, hb, hp⟩
    · exact Or.inr ⟨c, hc, hp⟩
  refine ⟨hs.length_local, hs.frequency_le, hs.frequency_owned, hs.mem_bucket, ?_, ?_⟩
  · intro q' p hp
    rcases hholds q' p hp with rfl | hp
    · exact hi
    · exact hs.held_lt q' p hp
  · intro q' p hp hown
    rcases hholds q' p hp with rfl | hp
    · exact hpos hown
    · exact hs.held_pos q' p hp hown

/-- INTERNAL: a `Have` that is handled keeps the invariant.
SOURCE: torrent_manager.rs:233-236 -/
theorem rarityIndex_updateBitField {s t : TorrentManagerActor} {q : String} {i : ℕ}
    (hs : RarityIndex s) (h : s.updateBitField q i = some t) : RarityIndex t := by
  obtain ⟨b, u, hb, -, hcount, rfl⟩ := updateBitField_eq_some h
  rcases hcount with ⟨hcount, rfl⟩ | ⟨hnot, -, hu⟩
  · -- the piece is owned or was held before
    rcases hcount with hown | hold
    · have hlt := Bitfield.lt_length_of_getD hown
      rw [hs.length_local] at hlt
      exact rarityIndex_setBit hs hb hlt fun hnot => absurd hown hnot
    · have hheld : Holds u q i := ⟨b, hb, hold⟩
      exact rarityIndex_setBit hs hb (hs.held_lt q i hheld) (hs.held_pos q i hheld)
  · obtain ⟨hui, hrest, hlen, hlt, hmono⟩ := rarityIndex_raiseFrequency hs hnot hu
    rw [← hrest.peerBitfields] at hb
    rw [← hlen] at hlt
    exact rarityIndex_setBit hui hb hlt fun _ => hmono i (Or.inl rfl)

/-! ## Finished pieces -/

/-- INTERNAL: everything the first half of the `PieceFinish` arm can do.
SOURCE: torrent_manager.rs:238-263 -/
theorem pieceFinishBegin_eq_some {s t : TorrentManagerActor} {i : ℕ}
    {manager : Option PieceRequestManager} (h : s.pieceFinishBegin i = some (t, manager)) :
    i < s.localBitfield.length ∧
      ((Owned s i ∧ t = s ∧ manager = none) ∨
        (¬ Owned s i ∧ manager = s.activePiecesManager.lookup i ∧
          t = { s with
            localBitfield := s.localBitfield.set i true
            rarityBucket := Function.update s.rarityBucket (bucketOf (frequency s i))
              ((s.rarityBucket (bucketOf (frequency s i))).erase i)
            piecesFrequency := s.piecesFrequency.set i 0
            pieceConcurrencyCounts := s.pieceConcurrencyCounts.erase i
            peerActiveWork := retainWork (retainWork s.peerActiveWork i) i
            activePiecesManager := s.activePiecesManager.erase i })) := by
  unfold pieceFinishBegin at h
  cases hown : s.localBitfield[i]? with
  | none =>
    rw [hown] at h
    cases h
  | some owned =>
    have hlt : i < s.localBitfield.length := (List.getElem?_eq_some_iff.mp hown).1
    have hbit : s.localBitfield.getD i false = owned := by
      rw [List.getD_eq_getElem?_getD, hown, Option.getD_some]
    rw [hown] at h
    refine ⟨hlt, ?_⟩
    unfold Owned
    rw [hbit]
    cases owned with
    | true =>
      cases h
      exact Or.inl ⟨rfl, rfl, rfl⟩
    | false =>
      cases hfreq : s.piecesFrequency[i]? with
      | none =>
        rw [hfreq] at h
        cases h
      | some currentFreq =>
        have hval : frequency s i = currentFreq := by
          rw [frequency, List.getD_eq_getElem?_getD, hfreq, Option.getD_some]
        rw [hfreq] at h
        rw [hval]
        cases h
        exact Or.inr ⟨Bool.false_ne_true, rfl, rfl⟩

/-- INTERNAL: a finished piece becomes owned and leaves the index.
SOURCE: torrent_manager.rs:238-263 -/
theorem rarityIndex_pieceFinishBegin {s t : TorrentManagerActor} {i : ℕ}
    {manager : Option PieceRequestManager} (hs : RarityIndex s)
    (h : s.pieceFinishBegin i = some (t, manager)) : RarityIndex t := by
  obtain ⟨hlt, ⟨-, rfl, -⟩ | ⟨hnot, -, rfl⟩⟩ := pieceFinishBegin_eq_some h
  · exact hs
  have hlen : i < s.piecesFrequency.length := by rwa [← hs.length_local]
  have howned (p : ℕ) : (s.localBitfield.set i true).getD p false = true ↔ p = i ∨ Owned s p := by
    rw [Bitfield.getD_set hlt]
    unfold Owned
    split_ifs with hip
    · simp [hip]
    · simp [Ne.symm hip]
  have hfreq (p : ℕ) : (s.piecesFrequency.set i 0).getD p 0 =
      if p = i then 0 else frequency s p := by
    simp only [frequency, List.getD_eq_getElem?_getD, List.getElem?_set, hlen, if_true, eq_comm]
    split_ifs <;> rfl
  refine ⟨?_, ?_, ?_, ?_, ?_, ?_⟩
  · simp only [List.length_set, hs.length_local]
  · intro p
    have := hs.frequency_le p
    unfold frequency
    rw [hfreq]
    split_ifs <;> omega
  · intro p hp
    rw [Owned, howned] at hp
    rw [frequency, hfreq]
    split_ifs with hpi
    · rfl
    · exact hs.frequency_owned p (hp.resolve_left hpi)
  · intro p f
    change p ∈ Function.update s.rarityBucket (bucketOf (frequency s i)) _ f ↔
      f.val = (s.piecesFrequency.set i 0).getD p 0 ∧ 1 ≤ (s.piecesFrequency.set i 0).getD p 0
    rw [hfreq, Function.update_apply]
    have hmem := hs.mem_bucket p f
    by_cases hpi : p = i
    · subst hpi
      rw [if_pos rfl]
      split_ifs with hf
      · simp
      · -- the bucket of the frequency was the only one that held the piece
        rw [hmem]
        have hle := hs.frequency_le p
        simp only [bucketOf, Fin.ext_iff] at hf
        omega
    · rw [if_neg hpi]
      split_ifs with hf
      · rw [Finset.mem_erase, ← hf]
        simp only [hpi, ne_eq, not_false_eq_true, true_and, hmem]
      · exact hmem
  · intro q p hp
    simp only [List.length_set]
    exact hs.held_lt q p hp
  · intro q p hp hown
    rw [Owned, howned, not_or] at hown
    rw [frequency, hfreq, if_neg hown.1]
    exact hs.held_pos q p hp hown.2

end Fissure.Analysis
