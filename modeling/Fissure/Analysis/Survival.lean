import Fissure.Model.PeerMessages
import Fissure.Analysis.Ownership

/-!
# Messages of remote peers and the survival of the manager

The index of a `Have` and the ones of a `Bitfield` come from a remote peer and reach the local
bitfield, the frequencies and the peer's recorded bitfield unchecked. The manager survives a run,
and a malformed message leaves its books alone, exactly when every `Bitfield` is well formed or
known already and every `Have` names a piece inside the sender's recorded bitfield
(`survives_iff_acceptable`). A first `Bitfield` with its spare bits set and a `Have` before any
`Bitfield` stop it (`not_survives_spare_bits`).
-/

set_option autoImplicit false

namespace Fissure.Analysis

open Fissure.Library Fissure.Model
open Fissure.Model.TorrentManagerActor

/-- The bitfield of a torrent of `n` pieces: whole bytes, and the spare bits are clear. -/
def WellFormed (n : ℕ) (b : Bitfield) : Prop :=
  b.length = 8 * ((n + 7) / 8) ∧ ∀ i ∈ b.iterOnes, i < n

instance (n : ℕ) (b : Bitfield) : Decidable (WellFormed n b) := inferInstanceAs (Decidable (_ ∧ _))

/-- A `Bitfield` that is not well formed, or a `Have` beyond the last piece. -/
def Malformed (n : ℕ) : TorrentManagerMessage → Prop
  | .addBitFeild _ b => ¬ WellFormed n b
  | .updateBitField _ i => n ≤ i
  | _ => False

/-- What the senders of the messages see to: a connection registers with an empty bitfield and
before it sends anything else, a finished piece is a piece, and progress is asked for since an
earlier length of the log. -/
def Promised (n : ℕ) (s : TorrentManagerActor) (e : TorrentManagerMessage × Env) : Prop :=
  match e.1 with
  | .addPeer _ b => b = []
  | .addBitFeild q _ => q ∈ s.peerActiveWork
  | .updateBitField q _ => q ∈ s.peerActiveWork
  | .requestWork q => q ∈ s.peerActiveWork
  | .hasUsefulPieces q => q ∈ s.peerActiveWork
  | .pieceFinish _ i => i < n
  | .getHaveMessageProgress since => since ≤ s.downloadedPieceIndex.length
  | _ => True

/-- The handler does not panic, and a malformed message leaves frequencies, buckets and bitfields
as they were. -/
def Survives (n : ℕ) (s : TorrentManagerActor) (e : TorrentManagerMessage × Env) : Prop :=
  (managerStep s e).isSome = true ∧
    (Malformed n e.1 → ∀ t r, managerStep s e = some (t, r) →
      t.piecesFrequency = s.piecesFrequency ∧ t.rarityBucket = s.rarityBucket ∧
        t.peerBitfields = s.peerBitfields)

/-- A `Bitfield` is well formed or the one recorded already, and a `Have` names a piece inside
the recorded bitfield of its sender. -/
def Acceptable (n : ℕ) (s : TorrentManagerActor) (e : TorrentManagerMessage × Env) : Prop :=
  match e.1 with
  | .addBitFeild q b => WellFormed n b ∨ s.peerBitfields.lookup q = some b
  | .updateBitField q i => i < n ∧ ∃ b ∈ s.peerBitfields.lookup q, i < b.length
  | _ => True

instance (n : ℕ) (s : TorrentManagerActor) :
    (e : TorrentManagerMessage × Env) → Decidable (Promised n s e)
  | (.addPeer _ b, _) => inferInstanceAs (Decidable (b = []))
  | (.addBitFeild q _, _) => inferInstanceAs (Decidable (q ∈ s.peerActiveWork))
  | (.updateBitField q _, _) => inferInstanceAs (Decidable (q ∈ s.peerActiveWork))
  | (.requestWork q, _) => inferInstanceAs (Decidable (q ∈ s.peerActiveWork))
  | (.hasUsefulPieces q, _) => inferInstanceAs (Decidable (q ∈ s.peerActiveWork))
  | (.pieceFinish _ i, _) => inferInstanceAs (Decidable (i < n))
  | (.getHaveMessageProgress since, _) =>
    inferInstanceAs (Decidable (since ≤ s.downloadedPieceIndex.length))
  | (.removePeer _, _) => isTrue trivial
  | (.getTorrentStats, _) => isTrue trivial
  | (.updateAndGetActiveRequestCount _, _) => isTrue trivial
  | (.getActivePeers, _) => isTrue trivial
  | (.getDataWithLength _ _ _, _) => isTrue trivial
  | (.getPieceManager _, _) => isTrue trivial

instance (n : ℕ) (s : TorrentManagerActor) :
    (e : TorrentManagerMessage × Env) → Decidable (Acceptable n s e)
  | (.addBitFeild q b, _) =>
    inferInstanceAs (Decidable (WellFormed n b ∨ s.peerBitfields.lookup q = some b))
  | (.updateBitField q i, _) =>
    inferInstanceAs (Decidable (i < n ∧ ∃ b ∈ s.peerBitfields.lookup q, i < b.length))
  | (.addPeer _ _, _) => isTrue trivial
  | (.requestWork _, _) => isTrue trivial
  | (.hasUsefulPieces _, _) => isTrue trivial
  | (.pieceFinish _ _, _) => isTrue trivial
  | (.getHaveMessageProgress _, _) => isTrue trivial
  | (.removePeer _, _) => isTrue trivial
  | (.getTorrentStats, _) => isTrue trivial
  | (.updateAndGetActiveRequestCount _, _) => isTrue trivial
  | (.getActivePeers, _) => isTrue trivial
  | (.getDataWithLength _ _ _, _) => isTrue trivial
  | (.getPieceManager _, _) => isTrue trivial

/-! ## Bitfields -/

/-- INTERNAL: a bitfield that is recorded already counts nothing.
SOURCE: torrent_manager.rs:67-93 -/
theorem updateFreqBitfield_recorded {s : TorrentManagerActor} {b : Bitfield} {q : String}
    (hb : s.peerBitfields.lookup q = some b) : s.updateFreqBitfield b q = some s := by
  have hround : ∀ i ∈ b.iterOnes, countPiece (some b) s i = some s := by
    intro i hi
    unfold countPiece
    simp only [Bitfield.mem_iterOnes.mp hi, Bool.not_true, Bool.false_eq_true, if_false, ite_self]
  unfold updateFreqBitfield
  rw [hb]
  generalize b.iterOnes = ones at hround
  induction ones with
  | nil => rfl
  | cons idx rest ih =>
    rw [List.foldlM_cons, hround idx List.mem_cons_self]
    exact ih fun i hi => hround i (List.mem_cons_of_mem idx hi)

variable {torrent : ClientTorrentMetaInfo} {options : PeerOptions}

/-- INTERNAL: the manager `Survives` a `Bitfield` in the two ways of `Acceptable` only.
SOURCE: torrent_manager.rs:229-232 -/
theorem survives_addBitFeild_iff {s : TorrentManagerActor} {n : ℕ}
    (hn : s.piecesFrequency.length = n) {q : String} {b : Bitfield} (env : Env) :
    Survives n s (.addBitFeild q b, env) ↔ Acceptable n s (.addBitFeild q b, env) := by
  constructor
  · rintro ⟨hsome, hkept⟩
    by_contra hnot
    obtain ⟨hmalformed, hne⟩ := not_or.mp hnot
    obtain ⟨⟨t, r⟩, ht⟩ := Option.isSome_iff_exists.mp hsome
    obtain ⟨-, -, hpeers⟩ := hkept hmalformed t r ht
    obtain ⟨u, hu, heq⟩ := Option.map_eq_some_iff.mp ht
    cases heq
    unfold addBitFeild at hu
    simp only [Option.bind_eq_bind, Option.bind_eq_some_iff, Option.some.injEq] at hu
    obtain ⟨v, -, rfl⟩ := hu
    -- the malformed bitfield is recorded
    apply hne
    rw [← hpeers]
    exact Finmap.lookup_insert v.peerBitfields
  · rintro (hwell | hrecorded)
    · obtain ⟨t, ht⟩ : ∃ t, s.updateFreqBitfield b q = some t :=
        foldlM_countPiece_isSome q (hn ▸ hwell.2)
      refine ⟨?_, fun hmalformed => absurd hwell hmalformed⟩
      change ((s.addBitFeild q b).map _).isSome = true
      unfold addBitFeild
      rw [ht]
      rfl
    · have hstep : managerStep s (.addBitFeild q b, env) = some (s, .none) := by
        change (s.addBitFeild q b).map _ = _
        unfold addBitFeild
        rw [updateFreqBitfield_recorded hrecorded]
        simp only [Option.bind_eq_bind, Option.bind_some, Option.map_some,
          HashMap.insert_lookup_self hrecorded]
      refine ⟨by rw [hstep]; rfl, ?_⟩
      intro _ t r h
      rw [hstep] at h
      cases h
      exact ⟨rfl, rfl, rfl⟩

/-- INTERNAL: a `Have` of a registered peer is survived exactly inside the torrent and inside the
recorded bitfield.
SOURCE: torrent_manager.rs:233-236 -/
theorem survives_updateBitField_iff {s : TorrentManagerActor} (hs : ManagerInv torrent options s)
    {n : ℕ} (hn : s.piecesFrequency.length = n) {q : String} {i : ℕ} (hq : q ∈ s.peerActiveWork)
    (env : Env) :
    Survives n s (.updateBitField q i, env) ↔ Acceptable n s (.updateBitField q i, env) := by
  obtain ⟨b, hb⟩ := Finmap.mem_iff.mp (hs.registered q hq)
  have hacceptable : Acceptable n s (.updateBitField q i, env) ↔ i < n ∧ i < b.length := by
    unfold Acceptable
    simp only [hb, Option.mem_def, Option.some.injEq, exists_eq_left']
  have hstep : managerStep s (.updateBitField q i, env) =
      (s.updateBitField q i).map fun t => (t, .none) := rfl
  rw [hacceptable]
  constructor
  · rintro ⟨hsome, -⟩
    rw [hstep, Option.isSome_map] at hsome
    obtain ⟨t, ht⟩ := Option.isSome_iff_exists.mp hsome
    obtain ⟨b', u, hb', hlt, hcount, -⟩ := updateBitField_eq_some ht
    rw [hb] at hb'
    cases hb'
    refine ⟨?_, hlt⟩
    rw [← hn]
    rcases hcount with ⟨hown | hold, -⟩ | ⟨-, -, hraise⟩
    · rw [← hs.rarity.length_local]
      exact Bitfield.lt_length_of_getD hown
    · exact hs.rarity.held_lt q i ⟨b, hb, hold⟩
    · exact (raiseFrequency_eq_some hraise).1
  · rintro ⟨hi, hlt⟩
    have hraise : (s.raiseFrequency i).isSome = true := by
      unfold raiseFrequency
      rw [List.getElem?_eq_getElem (hn ▸ hi)]
      rfl
    refine ⟨?_, fun hmalformed => absurd hi (Nat.not_lt.mpr hmalformed)⟩
    rw [hstep, Option.isSome_map, updateBitField_eq hb, if_pos hlt, Option.isSome_map]
    split_ifs
    · rfl
    · exact hraise

/-! ## Every message -/

/-- INTERNAL: for messages whose senders keep their promises, surviving one is its being
acceptable.
SOURCE: torrent_manager.rs:113-364 -/
theorem survives_iff_of_promised (hmeta : torrent.rawTorrent.Consistent) {s : TorrentManagerActor}
    {e : TorrentManagerMessage × Env} (hs : ManagerInv torrent options s)
    (hpromised : Promised torrent.rawTorrent.pieceCount s e) :
    Survives torrent.rawTorrent.pieceCount s e ↔ Acceptable torrent.rawTorrent.pieceCount s e := by
  have hn := hs.length_frequency hmeta.toWellSized
  obtain ⟨msg, env⟩ := e
  -- a message that is never malformed and does not stop the manager
  have hfine (hacceptable : Acceptable torrent.rawTorrent.pieceCount s (msg, env))
      (hwell : ¬ Malformed torrent.rawTorrent.pieceCount msg)
      (hsome : ∃ r, managerStep s (msg, env) = some r) :
      Survives torrent.rawTorrent.pieceCount s (msg, env) ↔
        Acceptable torrent.rawTorrent.pieceCount s (msg, env) :=
    iff_of_true ⟨Option.isSome_iff_exists.mpr hsome, fun h => absurd h hwell⟩ hacceptable
  cases msg with
  | addBitFeild q b => exact survives_addBitFeild_iff hn env
  | updateBitField q i => exact survives_updateBitField_iff hs hn hpromised env
  | addPeer q b =>
    cases hpromised
    exact hfine trivial id ⟨_, rfl⟩
  | pieceFinish q i =>
    have hlt : i < s.localBitfield.length := by
      rw [hs.rarity.length_local, hn]
      exact hpromised
    obtain ⟨t, ht⟩ := pieceFinish_isSome hs.rarity hlt env.flushed
    exact hfine trivial id ⟨_, by change (s.pieceFinish i _).map _ = _; rw [ht]; rfl⟩
  | requestWork q =>
    obtain ⟨r, hr⟩ := requestWork_isSome hmeta hs hpromised env
    exact hfine trivial id ⟨_, by change (s.requestWork q env).map _ = _; rw [hr]; rfl⟩
  | updateAndGetActiveRequestCount q =>
    obtain ⟨r, hr⟩ := updateAndGetActiveRequestCount_isSome hs q env.now
    exact hfine trivial id
      ⟨_, by change (s.updateAndGetActiveRequestCount q _).map _ = _; rw [hr]; rfl⟩
  | hasUsefulPieces q =>
    obtain ⟨b, hb⟩ := Finmap.mem_iff.mp (hs.registered q hpromised)
    have hsome : ∃ r, s.hasUsefulPieces q = some r := by
      unfold hasUsefulPieces
      rw [hb]
      exact ⟨_, rfl⟩
    obtain ⟨r, hr⟩ := hsome
    exact hfine trivial id ⟨_, by change (s.hasUsefulPieces q).map _ = _; rw [hr]; rfl⟩
  | getHaveMessageProgress since =>
    have hle : since ≤ s.downloadedPieceIndex.length := hpromised
    have hsome : ∃ r, s.getHaveMessageProgress since = some r := by
      unfold getHaveMessageProgress
      rw [if_pos hle]
      exact ⟨_, rfl⟩
    obtain ⟨r, hr⟩ := hsome
    exact hfine trivial id ⟨_, by change (s.getHaveMessageProgress since).map _ = _; rw [hr]; rfl⟩
  | removePeer q | getTorrentStats | getActivePeers | getDataWithLength | getPieceManager =>
    exact hfine trivial id ⟨_, rfl⟩

/-- **Survival of the manager.** For a torrent with consistent metainfo and senders that keep
their promises, no handler of a run panics and every malformed message leaves frequencies, buckets
and bitfields alone if and only if every message of the run is acceptable.
SOURCE: torrent_manager.rs:67-112, torrent_manager.rs:229-236 -/
theorem survives_iff_acceptable (hmeta : torrent.rawTorrent.Consistent) {s : TorrentManagerActor}
    (hnew : TorrentManagerActor.new torrent options = some s)
    {es : List (TorrentManagerMessage × Env)}
    (hpromised : AllSteps managerStep (Promised torrent.rawTorrent.pieceCount) s es) :
    AllSteps managerStep (Survives torrent.rawTorrent.pieceCount) s es ↔
      AllSteps managerStep (Acceptable torrent.rawTorrent.pieceCount) s es :=
  allSteps_iff_of_invariant (ManagerInv torrent options)
    (fun _ _ _ _ hs _ he => managerInv_step hs he)
    (fun _ _ hs hp => survives_iff_of_promised hmeta hs hp) (managerInv_new hnew) hpromised

/-- One peer has registered with the manager of a torrent of one piece. -/
def registeredState : TorrentManagerActor :=
  (run managerStep onePieceStart [(.addPeer "peer" [], .quiet)]).get (by decide +kernel)

/-- The manager panics when the peer's first message is a `Bitfield` whose spare bits are set, and
also when it is a `Have`. -/
theorem not_survives_spare_bits :
    run managerStep onePieceStart [(.addPeer "peer" [], .quiet)] = some registeredState ∧
      PeerMessage.decode [5, 255] = some (.bitfield (List.replicate 8 true)) ∧
      managerStep registeredState (.addBitFeild "peer" (List.replicate 8 true), .quiet) = none ∧
      PeerMessage.decode [4, 0, 0, 0, 0] = some (.have 0) ∧
      managerStep registeredState (.updateBitField "peer" 0, .quiet) = none := by
  refine ⟨(Option.some_get _).symm, by decide +kernel, ?_, by decide +kernel, ?_⟩
  · rw [← Option.isNone_iff_eq_none]
    decide +kernel
  · rw [← Option.isNone_iff_eq_none]
    decide +kernel

/-- A run with a well-formed `Bitfield` and a `Have` inside it. -/
theorem survives_iff_acceptable_one_piece :
    AllSteps managerStep (Survives 1) onePieceStart
      [(.addPeer "peer" [], .quiet), (.addBitFeild "peer" (List.replicate 8 false), .quiet),
        (.updateBitField "peer" 0, .quiet), (.requestWork "peer", .quiet)] := by
  have hmeta : (byteTorrent 1 (List.replicate 20 0)).rawTorrent.Consistent :=
    consistent_byteTorrent (by decide) (by decide)
  refine (survives_iff_acceptable hmeta new_onePieceStart ?_).mpr ?_
  · decide +kernel
  · decide +kernel

end Fissure.Analysis
