import Fissure.Analysis.RarestFirst

/-!
# Ownership and the log of persisted pieces

The manager claims a piece in its bitfield before the piece is flushed, and a flush that fails is
only logged. So a set bit means a persisted piece along exactly those runs in which every finished
piece finds its manager and its flush succeeds (`owned_iff_persisted_iff`); one failed flush is
enough to claim a piece that is not on disk (`not_owned_iff_persisted`).
-/

set_option autoImplicit false

namespace Fissure.Analysis

open Fissure.Library Fissure.Model
open Fissure.Model.TorrentManagerActor

/-- The bitfield claims exactly the pieces in the log. -/
def OwnedIffPersisted (s : TorrentManagerActor) : Prop :=
  ∀ p, Owned s p ↔ p ∈ s.downloadedPieceIndex

/-- From `s` to `t` piece `p` stays unclaimed and can be assigned as before. -/
structure StillWanted (s t : TorrentManagerActor) (p : ℕ) : Prop where
  unclaimed : ¬ Owned t p
  count : t.pieceConcurrencyCounts.lookup p = s.pieceConcurrencyCounts.lookup p
  bucket : ∀ f, p ∈ t.rarityBucket f ↔ p ∈ s.rarityBucket f
  assignable : ∀ q b order, s.selectable q b p = true → p ∈ s.bucketsInOrder order →
    t.selectable q b p = true ∧ p ∈ t.bucketsInOrder order

/-- The piece a message reports as finished. -/
def finishes : TorrentManagerMessage → Option ℕ
  | .pieceFinish _ p => some p
  | _ => none

/-- When the flush of a finished piece fails, the piece is still wanted. -/
def KeptOnFailure (s : TorrentManagerActor) (e : TorrentManagerMessage × Env) : Prop :=
  ∀ p ∈ finishes e.1, ¬ Owned s p → p ∈ s.activePiecesManager → e.2.flushed = false →
    ∀ t r, managerStep s e = some (t, r) → StillWanted s t p

/-- A finished piece that is not owned yet has its manager, is flushed and has a 32-bit index. -/
def FlushSucceeds (s : TorrentManagerActor) (e : TorrentManagerMessage × Env) : Prop :=
  ∀ p ∈ finishes e.1, p < s.localBitfield.length → ¬ Owned s p →
    p ∈ s.activePiecesManager ∧ e.2.flushed = true ∧ p < 2 ^ 32

instance (s : TorrentManagerActor) (e : TorrentManagerMessage × Env) :
    Decidable (FlushSucceeds s e) :=
  inferInstanceAs (Decidable (∀ p ∈ finishes e.1, _))

theorem finishes_eq_some {msg : TorrentManagerMessage} {p : ℕ} (h : finishes msg = some p) :
    ∃ q, msg = .pieceFinish q p := by
  cases msg with
  | pieceFinish q i =>
    cases h
    exact ⟨q, rfl⟩
  | _ => cases h

/-- INTERNAL: only a finish message touches the bitfield and the log.
SOURCE: torrent_manager.rs:113-364 -/
theorem owned_log_of_not_pieceFinish {s t : TorrentManagerActor}
    {e : TorrentManagerMessage × Env} {r : TorrentManagerReply}
    (h : managerStep s e = some (t, r)) (he : finishes e.1 = none) :
    t.localBitfield = s.localBitfield ∧ t.downloadedPieceIndex = s.downloadedPieceIndex := by
  obtain ⟨msg, env⟩ := e
  cases managerEffect h with
  | finished => cases he
  | _ => exact ⟨rfl, rfl⟩

/-- INTERNAL: what a finish message does to the bitfield and the log. A piece that is not owned
becomes owned, and is logged exactly when its manager is found and the flush succeeds.
SOURCE: torrent_manager.rs:238-280 -/
theorem owned_log_of_pieceFinish {s t : TorrentManagerActor} {i : ℕ} {flushed : Bool}
    (hnot : ¬ Owned s i) (h : s.pieceFinish i flushed = some t) :
    t.localBitfield = s.localBitfield.set i true ∧
      t.downloadedPieceIndex = if i ∈ s.activePiecesManager ∧ flushed = true
        then s.downloadedPieceIndex ++ [i % 2 ^ 32] else s.downloadedPieceIndex := by
  obtain ⟨u, manager, hu, rfl⟩ := pieceFinish_eq_some_iff.mp h
  obtain ⟨-, ⟨hown, -⟩ | ⟨-, rfl, rfl⟩⟩ := pieceFinishBegin_eq_some hu
  · exact absurd hown hnot
  cases hm : s.activePiecesManager.lookup i with
  | none =>
    have hnone := Finmap.lookup_eq_none.mp hm
    simp [hnone]
  | some m =>
    have hmem := Finmap.mem_of_lookup_eq_some hm
    cases flushed with
    | true => simp [hmem, pieceFinishEnd]
    | false => simp [pieceFinishEnd]

/-- INTERNAL: a finish message for an owned piece changes nothing.
SOURCE: torrent_manager.rs:240-244 -/
theorem eq_of_pieceFinish_owned {s t : TorrentManagerActor} {i : ℕ} {flushed : Bool}
    (hown : Owned s i) (h : s.pieceFinish i flushed = some t) : t = s := by
  obtain ⟨u, manager, hu, rfl⟩ := pieceFinish_eq_some_iff.mp h
  obtain ⟨-, ⟨-, rfl, rfl⟩ | ⟨hnot, -⟩⟩ := pieceFinishBegin_eq_some hu
  · rfl
  · exact absurd hown hnot

/-- INTERNAL: a finish message for a piece of the torrent does not stop the manager.
SOURCE: torrent_manager.rs:238-280 -/
theorem pieceFinish_isSome {s : TorrentManagerActor} (hs : RarityIndex s) {i : ℕ}
    (hi : i < s.localBitfield.length) (flushed : Bool) : ∃ t, s.pieceFinish i flushed = some t := by
  have hbegin : ∃ u manager, s.pieceFinishBegin i = some (u, manager) := by
    have hlt : i < s.piecesFrequency.length := by rwa [← hs.length_local]
    unfold pieceFinishBegin
    rw [List.getElem?_eq_getElem hi, List.getElem?_eq_getElem hlt]
    simp only [Option.bind_eq_bind, Option.bind_some]
    split_ifs
    · exact ⟨_, _, rfl⟩
    · exact ⟨_, _, rfl⟩
  obtain ⟨u, manager, hu⟩ := hbegin
  exact ⟨_, pieceFinish_eq_some_iff.mpr ⟨u, manager, hu, rfl⟩⟩

/-- INTERNAL: from a state in which bits and log agree, a step leads to such a state and keeps a
piece whose flush failed exactly when no flush fails in it.
SOURCE: torrent_manager.rs:238-280 -/
theorem ownedIffPersisted_step_iff {s : TorrentManagerActor} {e : TorrentManagerMessage × Env}
    (hs : RarityIndex s) (hagree : OwnedIffPersisted s) :
    (KeptOnFailure s e ∧ ∀ t r, managerStep s e = some (t, r) → OwnedIffPersisted t) ↔
      FlushSucceeds s e := by
  obtain ⟨msg, env⟩ := e
  cases hfinish : finishes msg with
  | some i =>
    obtain ⟨q, rfl⟩ := finishes_eq_some hfinish
    have hstep {t : TorrentManagerActor} {r : TorrentManagerReply}
        (h : managerStep s (.pieceFinish q i, env) = some (t, r)) :
        s.pieceFinish i env.flushed = some t := by
      obtain ⟨u, hu, heq⟩ := Option.map_eq_some_iff.mp h
      cases heq
      exact hu
    constructor
    · rintro ⟨-, hnext⟩ _ ⟨⟩ hlt hnot
      obtain ⟨t, ht⟩ := pieceFinish_isSome hs hlt env.flushed
      obtain ⟨hlocal, hlog⟩ := owned_log_of_pieceFinish hnot ht
      have hown : Owned t i := by
        unfold Owned
        rw [hlocal, Bitfield.getD_set hlt, if_pos rfl]
      have hlogged := (hnext t .none (by change (s.pieceFinish i _).map _ = _; rw [ht]; rfl) i).mp hown
      rw [hlog] at hlogged
      split_ifs at hlogged with hflush
      · rcases List.mem_append.mp hlogged with hold | hnew
        · exact absurd ((hagree i).mpr hold) hnot
        · have hindex := List.mem_singleton.mp hnew
          exact ⟨hflush.1, hflush.2, by omega⟩
      · exact absurd ((hagree i).mpr hlogged) hnot
    · intro hC
      have hlt {t : TorrentManagerActor} (h : s.pieceFinish i env.flushed = some t) :
          i < s.localBitfield.length := by
        obtain ⟨u, manager, hu, -⟩ := pieceFinish_eq_some_iff.mp h
        exact (pieceFinishBegin_eq_some hu).1
      refine ⟨?_, ?_⟩
      · rintro _ ⟨⟩ hnot - hfail t r h
        obtain ⟨-, hflush, -⟩ := hC i rfl (hlt (hstep h)) hnot
        exact absurd (hflush.symm.trans hfail) Bool.noConfusion
      · intro t r h p
        have h := hstep h
        by_cases hown : Owned s i
        · rw [eq_of_pieceFinish_owned hown h]
          exact hagree p
        · obtain ⟨hactive, hflush, hindex⟩ := hC i rfl (hlt h) hown
          obtain ⟨hlocal, hlog⟩ := owned_log_of_pieceFinish hown h
          have hp := hagree p
          unfold Owned at hp ⊢
          rw [hlocal, hlog, if_pos ⟨hactive, hflush⟩, Bitfield.getD_set (hlt h),
            Nat.mod_eq_of_lt hindex, List.mem_append, List.mem_singleton, ← hp]
          split_ifs with hip
          · simp [hip]
          · simp [Ne.symm hip]
  | none =>
    -- no other message finishes a piece
    have hnone : ∀ p, p ∉ finishes msg := by
      rw [hfinish]
      exact fun p => Option.not_mem_none p
    constructor
    · intro _ p hp
      exact absurd hp (hnone p)
    · intro _
      refine ⟨fun p hp => absurd hp (hnone p), ?_⟩
      intro t r h
      obtain ⟨hlocal, hlog⟩ := owned_log_of_not_pieceFinish h hfinish
      intro p
      unfold Owned
      rw [hlocal, hlog]
      exact hagree p

variable {torrent : ClientTorrentMetaInfo} {options : PeerOptions}

/-- **Ownership means persisted, exactly when flushes succeed.** Along a run of the manager the
bits of the bitfield are the log of persisted pieces in every state, and a piece whose flush
failed stays unclaimed and assignable, if and only if every finished piece that is not owned yet
has its manager, is flushed and has a 32-bit index.
SOURCE: torrent_manager.rs:238-280 -/
theorem owned_iff_persisted_iff {s : TorrentManagerActor}
    (hnew : TorrentManagerActor.new torrent options = some s)
    (es : List (TorrentManagerMessage × Env)) :
    AllStates managerStep OwnedIffPersisted s es ∧ AllSteps managerStep KeptOnFailure s es ↔
      AllSteps managerStep FlushSucceeds s es := by
  have hinv := managerInv_new hnew
  have hagree : OwnedIffPersisted s := by
    obtain ⟨numOfP, stats, -, rfl⟩ := manager_new_eq_some hnew
    intro p
    simp only [Owned, Bitfield.getD_zeros, Bool.false_eq_true, List.not_mem_nil]
  exact allStates_and_allSteps_iff (ManagerInv torrent options)
    (fun _ _ _ _ hs he => managerInv_step hs he)
    (fun _ _ hs hagree => ownedIffPersisted_step_iff hs.rarity hagree) hinv hagree

/-- A seed announces the only piece, the piece is assigned and finished, and its flush fails. -/
def failedFlushRun : List (TorrentManagerMessage × Env) :=
  [(.addPeer "seed" [], .quiet),
    (.addBitFeild "seed" [true, false, false, false, false, false, false, false], .quiet),
    (.requestWork "seed", .quiet), (.pieceFinish "seed" 0, { Env.quiet with flushed := false })]

/-- The state a failed flush leaves behind. -/
def failedFlushState : TorrentManagerActor :=
  (run managerStep onePieceStart failedFlushRun).get (by decide +kernel)

/-- The piece is claimed although its flush failed, and no peer will be asked for it again. -/
theorem not_owned_iff_persisted :
    run managerStep onePieceStart failedFlushRun = some failedFlushState ∧
      Owned failedFlushState 0 ∧ 0 ∉ failedFlushState.downloadedPieceIndex ∧
      failedFlushState.pieceConcurrencyCounts.lookup 0 = none ∧
      ∀ f, 0 ∉ failedFlushState.rarityBucket f := by
  refine ⟨(Option.some_get _).symm, ?_, ?_, ?_, ?_⟩
  · unfold Owned
    decide +kernel
  · decide +kernel
  · decide +kernel
  · decide +kernel

/-- The same run with a flush that succeeds. -/
theorem owned_iff_persisted_iff_one_piece :
    let es := failedFlushRun.map fun e => (e.1, { e.2 with flushed := true })
    AllStates managerStep OwnedIffPersisted onePieceStart es := by
  intro es
  have hflushed : AllSteps managerStep FlushSucceeds onePieceStart es := by decide +kernel
  exact ((owned_iff_persisted_iff new_onePieceStart es).mpr hflushed).1

end Fissure.Analysis
