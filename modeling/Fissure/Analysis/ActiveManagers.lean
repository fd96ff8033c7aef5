import Fissure.Analysis.Ownership

/-!
# The managers of the pieces that are worked on

A manager that was ever handed out for a piece is the active one of that piece, or the piece is
owned by now (`Current`): a second manager is made only for a piece that is not owned and has
none (`active_of_not_pieceFinish`), and a manager is retired only when its piece becomes owned
(`Current.pieceFinishBegin`).
-/

set_option autoImplicit false

namespace Fissure.Analysis

open Fissure.Library Fissure.Model
open Fissure.Model.TorrentManagerActor

/-- The manager is the active one of its piece, as long as the piece is not owned. -/
def Current (s : TorrentManagerActor) (mgr : PieceRequestManager) : Prop :=
  Owned s mgr.index ∨ s.activePiecesManager.lookup mgr.index = some mgr

/-- What a message does to the active managers: nothing, or it assigns the piece `p`. -/
def ActiveStep (s t : TorrentManagerActor) (fresh : ℕ) (r : TorrentManagerReply) : Prop :=
  (t.activePiecesManager = s.activePiecesManager ∧ ∀ mgr, r ≠ .work (some mgr)) ∨
    ∃ p mgr, r = .work (some mgr) ∧ ¬ Owned s p ∧ ManagerOf s p fresh mgr ∧
      t.activePiecesManager = s.activePiecesManager.insert p mgr

/-- INTERNAL: what a message other than `PieceFinish` does to the active managers.
SOURCE: torrent_manager.rs:113-364 -/
theorem active_of_not_pieceFinish {s t : TorrentManagerActor} {msg : TorrentManagerMessage}
    {env : Env} {r : TorrentManagerReply} (h : managerStep s (msg, env) = some (t, r))
    (hmsg : finishes msg = none) : ActiveStep s t env.fresh r := by
  cases managerEffect h with
  | registered | announced | had | expired => exact Or.inl ⟨rfl, nofun⟩
  | @assigned q b p count work m hb hfind hcount hwork hm =>
    have hsel := selectable_iff.mp (List.find?_some hfind)
    exact Or.inr ⟨p, m, rfl, ne_true_of_eq_false hsel.unowned, hm, rfl⟩
  | finished => cases hmsg
  | unchanged _ _ hr => exact Or.inl ⟨rfl, hr⟩

/-- INTERNAL: an assignment keeps the active managers that there are. -/
theorem ActiveStep.lookup {s t : TorrentManagerActor} {fresh p : ℕ} {r : TorrentManagerReply}
    {mgr : PieceRequestManager} (h : ActiveStep s t fresh r)
    (hmgr : s.activePiecesManager.lookup p = some mgr) :
    t.activePiecesManager.lookup p = some mgr := by
  rcases h with ⟨hactive, -⟩ | ⟨q, new, -, -, hnew, hactive⟩
  · rw [hactive, hmgr]
  · rw [hactive, HashMap.lookup_insert_eq]
    split_ifs with hpq
    · subst hpq
      unfold ManagerOf at hnew
      rw [hmgr] at hnew
      rw [hnew]
    · exact hmgr

theorem Current.of_activeStep {s t : TorrentManagerActor} {fresh : ℕ} {r : TorrentManagerReply}
    {mgr : PieceRequestManager} (h : Current s mgr) (hstep : ActiveStep s t fresh r)
    (hlocal : t.localBitfield = s.localBitfield) : Current t mgr := by
  rcases h with hown | hactive
  · left
    unfold Owned at hown ⊢
    rwa [hlocal]
  · exact Or.inr (hstep.lookup hactive)

/-- INTERNAL: the beginning of a `PieceFinish` retires the manager of the piece it claims only.
SOURCE: torrent_manager.rs:238-263 -/
theorem pieceFinishBegin_owned {s t : TorrentManagerActor} {i : ℕ}
    {manager : Option PieceRequestManager} (h : s.pieceFinishBegin i = some (t, manager)) :
    Owned t i ∧ (∀ p, Owned s p → Owned t p) ∧ ∀ p, p ≠ i →
      t.activePiecesManager.lookup p = s.activePiecesManager.lookup p := by
  obtain ⟨hlt, ⟨hown, rfl, -⟩ | ⟨-, -, rfl⟩⟩ := pieceFinishBegin_eq_some h
  · exact ⟨hown, fun _ hp => hp, fun _ _ => rfl⟩
  · refine ⟨?_, ?_, ?_⟩
    · unfold Owned
      rw [Bitfield.getD_set hlt, if_pos rfl]
    · intro p hp
      unfold Owned at hp ⊢
      rw [Bitfield.getD_set hlt]
      split_ifs
      · rfl
      · exact hp
    · intro p hp
      rw [HashMap.lookup_erase_eq, if_neg hp]

/-- INTERNAL: the beginning of a `PieceFinish` leaves the log alone.
SOURCE: torrent_manager.rs:238-263 -/
theorem log_pieceFinishBegin {s t : TorrentManagerActor} {p : ℕ}
    {last : Option PieceRequestManager} (h : s.pieceFinishBegin p = some (t, last)) :
    t.downloadedPieceIndex = s.downloadedPieceIndex ∧ t.peerNotifier = s.peerNotifier := by
  obtain ⟨-, ⟨-, rfl, -⟩ | ⟨-, -, rfl⟩⟩ := pieceFinishBegin_eq_some h
  · exact ⟨rfl, rfl⟩
  · exact ⟨rfl, rfl⟩

theorem Current.pieceFinishBegin {s t : TorrentManagerActor} {i : ℕ}
    {manager : Option PieceRequestManager} {mgr : PieceRequestManager} (h : Current s mgr)
    (hstep : s.pieceFinishBegin i = some (t, manager)) : Current t mgr := by
  obtain ⟨hown, howned, hactive⟩ := pieceFinishBegin_owned hstep
  by_cases hi : mgr.index = i
  · left
    rwa [hi]
  · rcases h with hold | hold
    · exact Or.inl (howned _ hold)
    · right
      rw [hactive _ hi, hold]

end Fissure.Analysis
