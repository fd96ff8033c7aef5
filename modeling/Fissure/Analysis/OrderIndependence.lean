import Mathlib.Algebra.BigOperators.Group.Finset.Basic
import Fissure.Library.Interleaving
import Fissure.Analysis.Availability
import Fissure.Analysis.Ownership

/-!
# The order of news about pieces does not matter

What the manager knows about availability is a product of independent parts (`partyStep`): for each
peer the bitfield recorded for it and how often its messages brought each piece, and for each
piece whether it is finished. A bitfield, a `Have` or a finished piece moves one part. The manager
follows this product (`Tracks`): the frequency of a wanted piece is the sum of what the peers
brought, up to 255. So two interleavings that keep the order of each peer's own messages leave the
same index behind (`same_availability_of_interleaving`).
-/

set_option autoImplicit false

namespace Fissure.Analysis

open Fissure.Library Fissure.Model
open Fissure.Model.TorrentManagerActor

/-! ## The independent parts -/

/-- Who the news is about: a peer that tells which pieces it has, or a piece that is finished. -/
inductive Party
  | peer (q : String)
  | piece (p : ℕ)
  deriving DecidableEq

/-- What is known of a peer: its recorded bitfield, and how often its messages brought a piece
that the peer was not known to have. -/
structure PeerRecord where
  bitfield : Option Bitfield
  arrivals : ℕ → ℕ

/-- What a peer tells about its pieces. -/
inductive News
  | pieces (b : Bitfield)
  | piece (i : ℕ)

/-- The state of a part: what is known of a peer, or whether a piece is finished. -/
def Party.State : Party → Type
  | .peer _ => PeerRecord
  | .piece _ => Bool

/-- What can happen to a part. -/
def Party.Event : Party → Type
  | .peer _ => News
  | .piece _ => Unit

/-- The bitfield recorded after the news, when all of it is about the first `n` pieces. -/
def News.recorded (n : ℕ) (old : Option Bitfield) : News → Option Bitfield
  | .pieces b => if ∀ p ∈ b.iterOnes, p < n then some b else none
  | .piece i => old.bind fun b => if i < b.length ∧ i < n then some (b.set i true) else none

/-- What is known of a peer after its news. -/
def PeerRecord.hear (n : ℕ) (r : PeerRecord) (news : News) : Option PeerRecord :=
  (news.recorded n r.bitfield).map fun b =>
    ⟨some b, fun p =>
      if b.getD p false = true ∧ (r.bitfield.getD []).getD p false ≠ true
        then r.arrivals p + 1 else r.arrivals p⟩

/-- The states of all parts. -/
abbrev Parts := ∀ i : Party, i.State

/-- What is known of peer `q`. -/
def Parts.known (a : Parts) (q : String) : PeerRecord := a (.peer q)

/-- Whether piece `p` is finished. -/
def Parts.done (a : Parts) (p : ℕ) : Bool := a (.piece p)

/-- The states once something else is known of peer `q`. -/
def Parts.setKnown (a : Parts) (q : String) (r : PeerRecord) : Parts :=
  Function.update a (.peer q) r

/-- The states once piece `p` is finished. -/
def Parts.setDone (a : Parts) (p : ℕ) : Parts := Function.update a (.piece p) true

theorem Parts.known_setKnown (a : Parts) (q : String) (r : PeerRecord) (q' : String) :
    (a.setKnown q r).known q' = if q' = q then r else a.known q' := by
  by_cases hq : q' = q
  · subst hq
    rw [if_pos rfl]
    exact Function.update_self (.peer q') r a
  · have hne : Party.peer q' ≠ .peer q := fun e => hq (Party.peer.inj e)
    rw [if_neg hq]
    exact Function.update_of_ne hne r a

@[simp] theorem Parts.done_setKnown (a : Parts) (q : String) (r : PeerRecord) (p : ℕ) :
    (a.setKnown q r).done p = a.done p := by
  have hne : Party.piece p ≠ .peer q := nofun
  exact Function.update_of_ne hne r a

@[simp] theorem Parts.known_setDone (a : Parts) (p : ℕ) (q : String) :
    (a.setDone p).known q = a.known q := by
  have hne : Party.peer q ≠ .piece p := nofun
  exact Function.update_of_ne hne true a

theorem Parts.done_setDone (a : Parts) (p p' : ℕ) :
    (a.setDone p).done p' = if p' = p then true else a.done p' := by
  by_cases hp : p' = p
  · subst hp
    rw [if_pos rfl]
    exact Function.update_self (.piece p') true a
  · have hne : Party.piece p' ≠ .piece p := fun e => hp (Party.piece.inj e)
    rw [if_neg hp]
    exact Function.update_of_ne hne true a

/-- One part after an event of its own. -/
def partyStep (n : ℕ) : ∀ i : Party, i.State → i.Event → Option i.State
  | .peer _, r, news => PeerRecord.hear n r news
  | .piece p, _, _ => if p < n then some true else none

/-- The news that a message brings. -/
def newsOf : TorrentManagerMessage → Option (Σ i : Party, i.Event)
  | .addPeer q b | .addBitFeild q b => some ⟨.peer q, News.pieces b⟩
  | .updateBitField q i => some ⟨.peer q, News.piece i⟩
  | .pieceFinish _ p => some ⟨.piece p, ()⟩
  | _ => none

/-- The peer that a message about pieces comes from, where the order matters. -/
def newsFrom : TorrentManagerMessage → Option String
  | .addPeer q _ | .addBitFeild q _ | .updateBitField q _ => some q
  | _ => none

/-! ## The manager follows the parts -/

variable {torrent : ClientTorrentMetaInfo} {options : PeerOptions}

/-- The manager of `n` pieces knows what the parts know, when the frequencies were `base` before
any of the news. -/
structure Tracks (torrent : ClientTorrentMetaInfo) (options : PeerOptions) (n : ℕ) (base : ℕ → ℕ)
    (s : TorrentManagerActor) (a : Parts) : Prop where
  inv : ManagerInv torrent options s
  length_eq : s.piecesFrequency.length = n
  recorded : ∀ q, s.peerBitfields.lookup q = (a.known q).bitfield
  unheard : ∀ q, (a.known q).bitfield = none → ∀ p, (a.known q).arrivals p = 0
  owned : ∀ p, Owned s p ↔ a.done p = true
  frequency_eq : ∀ p, ¬ Owned s p → frequency s p =
    min 255 (base p + ∑ q ∈ s.peerBitfields.keys, (a.known q).arrivals p)

/-- INTERNAL: recording a bitfield is hearing the news that it is recorded after. Only the sum of
the arrivals needs a look: the sender's part of it moves exactly for the pieces it brings.
SOURCE: torrent_manager.rs:67-112 -/
theorem tracks_record {n : ℕ} {base : ℕ → ℕ} {s : TorrentManagerActor} {a : Parts}
    (h : Tracks torrent options n base s a) {q : String} {b : Bitfield} {freq : List ℕ}
    {bucket : Fin 256 → Finset ℕ} {work : HashMap String (List (ℕ × Instant))}
    (hcounted : Counted s q b freq)
    (hinv : ManagerInv torrent options (record s q b freq bucket work)) {news : News}
    (hnews : news.recorded n (a.known q).bitfield = some b) :
    ∃ r, (a.known q).hear n news = some r ∧
      Tracks torrent options n base (record s q b freq bucket work) (a.setKnown q r) := by
  have hheld (p : ℕ) : Holds s q p ↔ ((a.known q).bitfield.getD []).getD p false = true := by
    rw [← hasPiece_iff, hasPiece, h.recorded]
  obtain ⟨r, hr, hbitfield, harrivals⟩ : ∃ r, (a.known q).hear n news = some r ∧
      r.bitfield = some b ∧ ∀ p, r.arrivals p = if b.getD p false = true ∧ ¬ Holds s q p
        then (a.known q).arrivals p + 1 else (a.known q).arrivals p := by
    unfold PeerRecord.hear
    rw [hnews]
    refine ⟨_, rfl, rfl, fun p => ?_⟩
    simp only [hheld, ne_eq]
  refine ⟨r, hr, hinv, hcounted.length_eq.trans h.length_eq, ?_, ?_, ?_, ?_⟩
  · intro q'
    change (s.peerBitfields.insert q b).lookup q' = _
    rw [HashMap.lookup_insert_eq, Parts.known_setKnown]
    split_ifs
    · exact hbitfield.symm
    · exact h.recorded q'
  · intro q' hnone p
    rw [Parts.known_setKnown] at hnone ⊢
    split_ifs at hnone ⊢
    · rw [hbitfield] at hnone
      cases hnone
    · exact h.unheard q' hnone p
  · intro p
    rw [Parts.done_setKnown]
    exact h.owned p
  · intro p hnot
    have hfreq := h.frequency_eq p hnot
    -- a peer without a bitfield adds nothing, so the sum may as well range over the new keys
    have hkeys : (s.peerBitfields.insert q b).keys = insert q s.peerBitfields.keys :=
      HashMap.keys_insert _ _ _
    have hsum : ∑ q' ∈ insert q s.peerBitfields.keys, (a.known q').arrivals p =
        ∑ q' ∈ s.peerBitfields.keys, (a.known q').arrivals p := by
      apply Finset.sum_insert_of_eq_zero_if_notMem
      intro hq
      apply h.unheard
      rw [← h.recorded]
      exact Finmap.lookup_eq_none.mpr (mt Finmap.mem_keys.mpr hq)
    have hrest : ∑ q' ∈ (insert q s.peerBitfields.keys).erase q,
          ((a.setKnown q r).known q').arrivals p =
        ∑ q' ∈ (insert q s.peerBitfields.keys).erase q, (a.known q').arrivals p := by
      apply Finset.sum_congr rfl
      intro q' hq'
      rw [Parts.known_setKnown, if_neg (Finset.ne_of_mem_erase hq')]
    have hmem := Finset.mem_insert_self q s.peerBitfields.keys
    rw [← hsum, ← Finset.add_sum_erase _ _ hmem] at hfreq
    change freq.getD p 0 = min 255 (base p + ∑ q' ∈ (s.peerBitfields.insert q b).keys, _)
    rw [hkeys, ← Finset.add_sum_erase _ _ hmem, hrest, hcounted.getD_eq, Parts.known_setKnown,
      if_pos rfl, harrivals]
    by_cases hbrings : Brings s q b p
    · have hnew : b.getD p false = true ∧ ¬ Holds s q p := hbrings.2
      rw [if_pos hbrings, if_pos hnew]
      omega
    · have hold : ¬ (b.getD p false = true ∧ ¬ Holds s q p) := fun hnew => hbrings ⟨hnot, hnew⟩
      rw [if_neg hbrings, if_neg hold]
      exact hfreq

/-- INTERNAL: a finished piece.
SOURCE: torrent_manager.rs:238-256 -/
theorem tracks_claim {n : ℕ} {base : ℕ → ℕ} {s : TorrentManagerActor} {a : Parts}
    (h : Tracks torrent options n base s a) {p notifier : ℕ} {stats : TorrentStats}
    {log : List ℕ} (hlt : p < s.localBitfield.length)
    (hinv : ManagerInv torrent options (claim s p stats log notifier)) :
    Tracks torrent options n base (claim s p stats log notifier) (a.setDone p) := by
  refine ⟨hinv, (List.length_set ..).trans h.length_eq, ?_, ?_, ?_, ?_⟩
  · intro q
    rw [Parts.known_setDone]
    exact h.recorded q
  · intro q
    rw [Parts.known_setDone]
    exact h.unheard q
  · intro p'
    rw [owned_claim hlt, Parts.done_setDone, h.owned]
    split_ifs with hp
    · exact iff_of_true (Or.inl hp) rfl
    · exact or_iff_right hp
  · intro p' hnot
    rw [owned_claim hlt, not_or] at hnot
    simp only [frequency_claim hnot.1, Parts.known_setDone]
    exact h.frequency_eq p' hnot.2

theorem productStep_peer {n : ℕ} {a : Parts} {q : String} {news : News} {r : PeerRecord}
    (h : (a.known q).hear n news = some r) :
    productStep (partyStep n) a ⟨.peer q, news⟩ = some (a.setKnown q r) :=
  Option.map_eq_some_iff.mpr ⟨r, h, rfl⟩

theorem productStep_piece {n : ℕ} {a : Parts} {p : ℕ} (hp : p < n) :
    productStep (partyStep n) a ⟨.piece p, ()⟩ = some (a.setDone p) :=
  Option.map_eq_some_iff.mpr ⟨true, if_pos hp, rfl⟩

/-- INTERNAL: a message about pieces that is handled moves its part.
SOURCE: torrent_manager.rs:67-122, torrent_manager.rs:229-256 -/
theorem tracks_forward {n : ℕ} {base : ℕ → ℕ} {s t : TorrentManagerActor} {a : Parts}
    {e : TorrentManagerMessage × Env} {x : Σ i : Party, i.Event} {r : TorrentManagerReply}
    (h : Tracks torrent options n base s a) (hx : newsOf e.1 = some x)
    (hstep : managerStep s e = some (t, r)) :
    ∃ b, productStep (partyStep n) a x = some b ∧ Tracks torrent options n base t b := by
  obtain ⟨msg, env⟩ := e
  have hinv := managerInv_step h.inv hstep
  -- every bit that a message has recorded stands for a piece
  have hbits {q : String} {b : Bitfield} {freq : List ℕ} {bucket : Fin 256 → Finset ℕ}
      {work : HashMap String (List (ℕ × Instant))} (hcounted : Counted s q b freq)
      (hinv : ManagerInv torrent options (record s q b freq bucket work)) :
      ∀ p ∈ b.iterOnes, p < n := by
    intro p hp
    rw [← h.length_eq, ← hcounted.length_eq]
    exact hinv.rarity.held_lt q p ⟨b, Finmap.lookup_insert _, Bitfield.mem_iterOnes.mp hp⟩
  cases managerEffect hstep with
  | @registered q b _ _ hcounted | @announced q b _ _ hcounted =>
    cases hx
    have hnews : (News.pieces b).recorded n (a.known q).bitfield = some b :=
      if_pos (hbits hcounted hinv)
    obtain ⟨r, hr, ht⟩ := tracks_record h hcounted hinv hnews
    exact ⟨_, productStep_peer hr, ht⟩
  | @had q i b freq bucket hb hi hcounted =>
    cases hx
    have hlt : i < n := by
      apply hbits hcounted hinv i
      rw [Bitfield.mem_iterOnes, Bitfield.getD_set hi, if_pos rfl]
    have hnews : (News.piece i).recorded n (a.known q).bitfield = some (b.set i true) := by
      rw [← h.recorded, hb]
      exact if_pos ⟨hi, hlt⟩
    obtain ⟨r, hr, ht⟩ := tracks_record h hcounted hinv hnews
    exact ⟨_, productStep_peer hr, ht⟩
  | @finished q p notifier stats log hlt =>
    cases hx
    have hlt' : p < n := by rwa [← h.length_eq, ← h.inv.rarity.length_local]
    exact ⟨_, productStep_piece hlt', tracks_claim h hlt hinv⟩
  | unchanged hmsg hfinish =>
    cases msg with
    | addPeer q b => exact absurd rfl (hmsg q b 0).1
    | addBitFeild q b => exact absurd rfl (hmsg q b 0).2.1
    | updateBitField q i => exact absurd rfl (hmsg q [] i).2.2
    | pieceFinish q p =>
      -- the piece was finished before
      cases hx
      have hown := hfinish q p rfl
      have hlt : p < n := by
        rw [← h.length_eq, ← h.inv.rarity.length_local]
        exact Bitfield.lt_length_of_getD hown
      have hsame : a.setDone p = a := Function.update_eq_self_iff.mpr ((h.owned p).mp hown).symm
      refine ⟨_, productStep_piece hlt, ?_⟩
      rwa [hsame]
    | _ => cases hx
  | _ => cases hx

theorem hear_pieces_isSome {n : ℕ} {r c : PeerRecord} {b : Bitfield}
    (h : r.hear n (.pieces b) = some c) : ∀ p ∈ b.iterOnes, p < n := by
  obtain ⟨b', hb', -⟩ := Option.map_eq_some_iff.mp h
  by_contra hnot
  have hnone : (News.pieces b).recorded n r.bitfield = none := if_neg hnot
  rw [hnone] at hb'
  cases hb'

theorem hear_piece_isSome {n : ℕ} {r c : PeerRecord} {i : ℕ}
    (h : r.hear n (.piece i) = some c) :
    ∃ b, r.bitfield = some b ∧ i < b.length ∧ i < n := by
  obtain ⟨b', hb', -⟩ := Option.map_eq_some_iff.mp h
  obtain ⟨b, hb, hsome⟩ := Option.bind_eq_some_iff.mp hb'
  refine ⟨b, hb, ?_⟩
  by_contra hnot
  rw [if_neg hnot] at hsome
  cases hsome

theorem updateBitField_isSome {s : TorrentManagerActor} {q : String} {i : ℕ} {b : Bitfield}
    (hb : s.peerBitfields.lookup q = some b) (hi : i < b.length)
    (hlt : i < s.piecesFrequency.length) : ∃ t, s.updateBitField q i = some t := by
  rw [updateBitField_eq hb, if_pos hi]
  split_ifs
  · exact ⟨_, rfl⟩
  · have hraise : (s.raiseFrequency i).isSome = true := by
      unfold raiseFrequency
      rw [List.getElem?_eq_getElem hlt]
      rfl
    obtain ⟨u, hu⟩ := Option.isSome_iff_exists.mp hraise
    rw [hu]
    exact ⟨_, rfl⟩

/-- INTERNAL: a message about pieces is handled when its part takes it.
SOURCE: torrent_manager.rs:67-122, torrent_manager.rs:229-256 -/
theorem managerStep_isSome_of_productStep {n : ℕ} {base : ℕ → ℕ} {s : TorrentManagerActor}
    {a b : Parts} {e : TorrentManagerMessage × Env} {x : Σ i : Party, i.Event}
    (h : Tracks torrent options n base s a) (hx : newsOf e.1 = some x)
    (hb : productStep (partyStep n) a x = some b) : ∃ t r, managerStep s e = some (t, r) := by
  obtain ⟨msg, env⟩ := e
  obtain ⟨c, hc, -⟩ := Option.map_eq_some_iff.mp hb
  cases msg with
  | addPeer q bits | addBitFeild q bits =>
    cases hx
    have hpieces := hear_pieces_isSome hc
    rw [← h.length_eq] at hpieces
    exact replaces_isSome rfl hpieces env
  | updateBitField q i =>
    cases hx
    obtain ⟨bits, hbits, hi, hlt⟩ := hear_piece_isSome hc
    rw [← h.length_eq] at hlt
    obtain ⟨t, ht⟩ := updateBitField_isSome ((h.recorded q).trans hbits) hi hlt
    exact ⟨t, .none, Option.map_eq_some_iff.mpr ⟨t, ht, rfl⟩⟩
  | pieceFinish q p =>
    cases hx
    have hlt : p < s.localBitfield.length := by
      rw [h.inv.rarity.length_local, h.length_eq]
      by_contra hnot
      have hnone : partyStep n (.piece p) (a (.piece p)) () = none := if_neg hnot
      exact absurd (hnone.symm.trans hc) (by simp)
    obtain ⟨t, ht⟩ := pieceFinish_isSome h.inv.rarity hlt env.flushed
    exact ⟨t, .none, Option.map_eq_some_iff.mpr ⟨t, ht, rfl⟩⟩
  | _ => cases hx

/-! ## The order does not matter -/

/-- INTERNAL: what the parts know settles the availability. -/
theorem same_of_tracks {n : ℕ} {base : ℕ → ℕ} {s t : TorrentManagerActor} {a : Parts}
    (hs : Tracks torrent options n base s a) (ht : Tracks torrent options n base t a) :
    t.piecesFrequency = s.piecesFrequency ∧ t.rarityBucket = s.rarityBucket ∧
      t.peerBitfields = s.peerBitfields ∧ t.localBitfield = s.localBitfield := by
  have hpeers : t.peerBitfields = s.peerBitfields := by
    apply Finmap.ext_lookup
    intro q
    rw [ht.recorded, hs.recorded]
  have howned (p : ℕ) : Owned t p ↔ Owned s p := (ht.owned p).trans (hs.owned p).symm
  have hfreq (p : ℕ) : frequency t p = frequency s p := by
    by_cases hp : Owned s p
    · rw [hs.inv.rarity.frequency_owned p hp, ht.inv.rarity.frequency_owned p ((howned p).mpr hp)]
    · rw [hs.frequency_eq p hp, ht.frequency_eq p (mt (howned p).mp hp), hpeers]
  have hlen : t.piecesFrequency.length = s.piecesFrequency.length :=
    ht.length_eq.trans hs.length_eq.symm
  refine ⟨List.ext_getElem hlen fun p hp hp' => ?_, ?_, hpeers, ?_⟩
  · have hp := hfreq p
    unfold frequency at hp
    rwa [List.getD_eq_getElem _ _ ‹_›, List.getD_eq_getElem _ _ hp'] at hp
  · funext f
    ext p
    rw [ht.inv.rarity.mem_bucket, hs.inv.rarity.mem_bucket, hfreq]
  · apply List.ext_getElem
    · rw [ht.inv.rarity.length_local, hs.inv.rarity.length_local, hlen]
    · intro p hp hp'
      have hbit := howned p
      unfold Owned at hbit
      rw [List.getD_eq_getElem _ _ hp, List.getD_eq_getElem _ _ hp'] at hbit
      exact Bool.eq_iff_iff.mpr hbit

theorem filterMap_newsOf_eq (i : Party) (msgs : List TorrentManagerMessage) :
    eventsOf i (msgs.filterMap newsOf) =
      msgs.filterMap fun msg => (newsOf msg).bind (eventOf i) := by
  unfold eventsOf
  rw [List.filterMap_filterMap]

/-- INTERNAL: the news about a peer is in the peer's own messages. -/
theorem eventsOf_peer (q : String) (msgs : List TorrentManagerMessage) :
    eventsOf (.peer q) (msgs.filterMap newsOf) =
      eventsOf (.peer q) ((msgs.filter fun msg => newsFrom msg = some q).filterMap newsOf) := by
  rw [filterMap_newsOf_eq, filterMap_newsOf_eq, List.filterMap_filter]
  refine List.filterMap_congr fun msg _ => ?_
  have hother {q' : String} (hq : q' ≠ q) (news : News) :
      eventOf (.peer q) (⟨.peer q', news⟩ : Σ i : Party, i.Event) = none :=
    dif_neg fun e => hq (Party.peer.inj e)
  cases msg with
  | addPeer q' b | addBitFeild q' b | updateBitField q' i =>
    by_cases hq : q' = q
    · simp [newsFrom, hq]
    · simp [newsFrom, hq, newsOf, hother hq]
  | _ => rfl

/-- INTERNAL: the order in which the messages come does not show in the news about one piece. -/
theorem eventsOf_piece (p : ℕ) {msgs msgs' : List TorrentManagerMessage}
    (hperm : msgs.Perm msgs') :
    eventsOf (.piece p) (msgs.filterMap newsOf) =
      eventsOf (.piece p) (msgs'.filterMap newsOf) := by
  have hperm := (hperm.filterMap newsOf).filterMap (eventOf (.piece p))
  -- all news about one piece is the same
  exact List.ext_getElem hperm.length_eq fun _ _ _ => rfl

/-- INTERNAL: the parts as they are before any of the news. -/
def partsOf (s : TorrentManagerActor) : Parts
  | .peer q => (⟨s.peerBitfields.lookup q, fun _ => 0⟩ : PeerRecord)
  | .piece p => decide (Owned s p)

theorem tracks_partsOf {s : TorrentManagerActor} (hs : ManagerInv torrent options s) :
    Tracks torrent options s.piecesFrequency.length (frequency s) s (partsOf s) := by
  refine ⟨hs, rfl, fun q => rfl, fun q _ p => rfl, ?_, ?_⟩
  · intro p
    exact decide_eq_true_iff.symm
  · intro p _
    have hle := hs.rarity.frequency_le p
    have hsum : ∑ q ∈ s.peerBitfields.keys, ((partsOf s).known q).arrivals p = 0 :=
      Finset.sum_eq_zero fun _ _ => rfl
    rw [hsum]
    omega

/-- **The order does not matter.** From any state that a run of the manager reaches, take two
lists of the same `AddPeer`, `AddBitFeild`, `UpdateBitField` and `PieceFinish` messages in which
each peer's own messages come in the same order. If the manager handles one of them, it handles
the other, and both end with the same frequencies, buckets, recorded bitfields and own bitfield.
SOURCE: torrent_manager.rs:67-122, torrent_manager.rs:229-256 -/
theorem same_availability_of_interleaving {s₀ s t : TorrentManagerActor}
    {es₀ es es' : List (TorrentManagerMessage × Env)}
    (hnew : TorrentManagerActor.new torrent options = some s₀)
    (hreached : run managerStep s₀ es₀ = some s)
    (hnews : ∀ e ∈ es, (newsOf e.1).isSome = true)
    (hperm : (es.map Prod.fst).Perm (es'.map Prod.fst))
    (horder : ∀ q, (es.map Prod.fst).filter (fun msg => newsFrom msg = some q) =
      (es'.map Prod.fst).filter (fun msg => newsFrom msg = some q))
    (hrun : run managerStep s es = some t) :
    ∃ t', run managerStep s es' = some t' ∧ t'.piecesFrequency = t.piecesFrequency ∧
      t'.rarityBucket = t.rarityBucket ∧ t'.peerBitfields = t.peerBitfields ∧
      t'.localBitfield = t.localBitfield := by
  have hstart := tracks_partsOf (managerInv_run hnew hreached)
  have hmap (l : List (TorrentManagerMessage × Env)) :
      l.filterMap (newsOf ∘ Prod.fst) = (l.map Prod.fst).filterMap newsOf := by
    rw [List.filterMap_map]
  have hnews' : ∀ e ∈ es', (newsOf e.1).isSome = true := by
    intro e he
    obtain ⟨e', he', heq⟩ := List.mem_map.mp (hperm.mem_iff.mpr (List.mem_map_of_mem he))
    rw [← heq]
    exact hnews e' he'
  obtain ⟨a, ha, ht⟩ := run_forward (newsOf ∘ Prod.fst)
    (Tracks torrent options s.piecesFrequency.length (frequency s))
    (fun _ _ _ _ _ _ h hx hstep => tracks_forward h hx hstep) hstart hnews hrun
  have ha' : (es'.filterMap (newsOf ∘ Prod.fst)).foldlM
      (productStep (partyStep s.piecesFrequency.length)) (partsOf s) = some a := by
    refine foldlM_productStep_congr (fun i => ?_) ha
    rw [hmap, hmap]
    cases i with
    | peer q => rw [eventsOf_peer, horder, ← eventsOf_peer]
    | piece p => exact eventsOf_piece p hperm
  have hback : ∀ u b (e : TorrentManagerMessage × Env) x c,
      Tracks torrent options s.piecesFrequency.length (frequency s) u b → newsOf e.1 = some x →
      productStep (partyStep s.piecesFrequency.length) b x = some c →
      ∃ v r, managerStep u e = some (v, r) ∧
        Tracks torrent options s.piecesFrequency.length (frequency s) v c := by
    intro u b e x c h hx hc
    obtain ⟨v, r, hstep⟩ := managerStep_isSome_of_productStep h hx hc
    obtain ⟨d, hd, hv⟩ := tracks_forward h hx hstep
    rw [hc, Option.some.injEq] at hd
    exact ⟨v, r, hstep, hd ▸ hv⟩
  obtain ⟨t', hrun', ht'⟩ := run_backward (newsOf ∘ Prod.fst)
    (Tracks torrent options s.piecesFrequency.length (frequency s)) hback hstart hnews' ha'
  exact ⟨t', hrun', same_of_tracks ht ht'⟩

/-- Two peers announce the same piece, and the other piece is finished. -/
def newsRun : List (TorrentManagerMessage × Env) :=
  twoPeersRun ++ [(.pieceFinish "seed" 0, .quiet), (.updateBitField "leech" 0, .quiet)]

/-- The same messages in another order: the piece is finished before anything is announced. -/
def newsRun' : List (TorrentManagerMessage × Env) :=
  [(.pieceFinish "seed" 0, .quiet), (.addPeer "leech" [], .quiet),
    (.addBitFeild "leech" [false, true], .quiet), (.updateBitField "leech" 0, .quiet),
    (.addPeer "seed" [], .quiet), (.addBitFeild "seed" [true, true], .quiet)]

theorem same_availability_of_interleaving_two_peers :
    ∃ t t', run managerStep twoPeersStart newsRun = some t ∧
      run managerStep twoPeersStart newsRun' = some t' ∧
      t'.piecesFrequency = t.piecesFrequency ∧ t'.rarityBucket = t.rarityBucket := by
  have hnew : TorrentManagerActor.new (byteTorrent 2 (List.replicate 40 0)) {} =
      some twoPeersStart := (Option.some_get _).symm
  obtain ⟨t, hrun⟩ : ∃ t, run managerStep twoPeersStart newsRun = some t :=
    Option.isSome_iff_exists.mp (by decide +kernel)
  have hreached : run managerStep twoPeersStart [] = some twoPeersStart := rfl
  have horder : ∀ q, (newsRun.map Prod.fst).filter (fun msg => newsFrom msg = some q) =
      (newsRun'.map Prod.fst).filter (fun msg => newsFrom msg = some q) := by
    intro q
    by_cases hseed : "seed" = q
    · subst hseed
      decide +kernel
    · by_cases hleech : "leech" = q
      · subst hleech
        decide +kernel
      · simp [newsRun, newsRun', twoPeersRun, newsFrom, hseed, hleech]
  obtain ⟨t', hrun', hfreq, hbucket, -⟩ := same_availability_of_interleaving hnew hreached
    (by decide +kernel) (by decide +kernel) horder hrun
  exact ⟨t, t', hrun, hrun', hfreq, hbucket⟩

end Fissure.Analysis
