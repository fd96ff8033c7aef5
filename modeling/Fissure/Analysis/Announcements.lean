import Fissure.Analysis.ManagerInvariant
import Fissure.Analysis.WriterSteps

/-!
# Which pieces a connection announces

What a writer has announced is a prefix of the manager's log: the pieces in its `Bitfield`, and
after that the entries up to its cursor (`Announces`). A piece that is persisted after the
connection registered is not in the `Bitfield`; when it is persisted before the writer first looks
at the watch channel, the cursor starts behind it. So no piece is left out in the runs in which
none is persisted in between (`nothing_unannounced`).
-/

set_option autoImplicit false

namespace Fissure.Analysis

open Fissure.Library Fissure.Model
open Fissure.Model.TorrentManagerActor

/-- The piece is set in a `Bitfield` or named in a `Have` among the messages. -/
def AnnouncedIn (sent : List PeerMessage) (p : ℕ) : Prop :=
  (∃ b, .bitfield b ∈ sent ∧ b.getD p false = true) ∨ .have p ∈ sent

/-- When the writer waits and there is no unseen notification, it has announced every piece in the
log. -/
def NothingUnannounced (s : HaveWriter) : Prop :=
  ∀ lastSeen, s.phase = .waiting lastSeen → s.seen = s.manager.peerNotifier →
    ∀ p ∈ s.manager.downloadedPieceIndex, AnnouncedIn s.sent p

/-- A piece may be persisted before the connection registers, when its index is below `2 ^ 32`,
and again from when its writer first looked at the watch channel. -/
def MayPersist (p : ℕ) : WriterPhase → Prop
  | .unregistered => p < 2 ^ 32
  | .starting _ | .looking => False
  | _ => True

/-- No piece is persisted between the registration of the connection and the first look of its
writer at the watch channel. -/
def OutsideWindow (s : HaveWriter) : WriterEvent → Prop
  | .recv msg env => ∀ p ∈ persisted s.manager env msg, MayPersist p s.phase
  | _ => True

instance (p : ℕ) : (phase : WriterPhase) → Decidable (MayPersist p phase)
  | .unregistered => inferInstanceAs (Decidable (p < 2 ^ 32))
  | .starting _ | .looking => isFalse id
  | .waiting _ | .woken _ | .asking .. | .announcing .. | .ended => isTrue trivial

instance (s : HaveWriter) : (e : WriterEvent) → Decidable (OutsideWindow s e)
  | .recv msg env => inferInstanceAs (Decidable (∀ p ∈ persisted s.manager env msg, _))
  | .register .. | .sendBitfield _ | .look | .wake | .readLen | .askProgress _ | .sendHave _
  | .storeLastSeen | .ends => isTrue trivial

/-! ## The invariant -/

/-- The pieces in `log` are announced. -/
def AllAnnounced (sent : List PeerMessage) (log : List ℕ) : Prop := ∀ p ∈ log, AnnouncedIn sent p

/-- How far the log is announced, by where the writer stands. -/
def Announces (manager : TorrentManagerActor) (seen : ℕ) (sent : List PeerMessage) :
    WriterPhase → Prop
  | .unregistered => ∀ p ∈ manager.downloadedPieceIndex, Owned manager p
  | .starting localBitfield =>
    ∀ p ∈ manager.downloadedPieceIndex, localBitfield.getD p false = true
  | .looking => AllAnnounced sent manager.downloadedPieceIndex
  | .waiting lastSeen => seen = lastSeen ∧ lastSeen ≤ manager.downloadedPieceIndex.length ∧
      AllAnnounced sent (manager.downloadedPieceIndex.take lastSeen)
  | .woken lastSeen => lastSeen ≤ manager.downloadedPieceIndex.length ∧
      AllAnnounced sent (manager.downloadedPieceIndex.take lastSeen)
  | .asking lastSeen currentLen => seen = currentLen ∧
      currentLen ≤ manager.downloadedPieceIndex.length ∧
      lastSeen ≤ manager.downloadedPieceIndex.length ∧
      AllAnnounced sent (manager.downloadedPieceIndex.take lastSeen)
  | .announcing currentLen newPieces => seen = currentLen ∧
      currentLen ≤ manager.downloadedPieceIndex.length ∧
      ∀ p ∈ manager.downloadedPieceIndex.take currentLen, AnnouncedIn sent p ∨ p ∈ newPieces
  | .ended => True

/-- The invariant of the writer. -/
structure WriterInv (s : HaveWriter) : Prop where
  notifier_eq : s.manager.peerNotifier = s.manager.downloadedPieceIndex.length
  announces : Announces s.manager s.seen s.sent s.phase

theorem AnnouncedIn.append {sent : List PeerMessage} {p : ℕ} (h : AnnouncedIn sent p)
    (msg : PeerMessage) : AnnouncedIn (sent ++ [msg]) p := by
  rcases h with ⟨b, hb, hp⟩ | hp
  · exact Or.inl ⟨b, List.mem_append_left _ hb, hp⟩
  · exact Or.inr (List.mem_append_left _ hp)

theorem nothingUnannounced_of_inv {s : HaveWriter} (h : WriterInv s) : NothingUnannounced s := by
  intro lastSeen hphase hseen p hp
  have hannounces := h.announces
  rw [hphase] at hannounces
  obtain ⟨hlast, -, hall⟩ := hannounces
  apply hall p
  rwa [← hlast, hseen, h.notifier_eq, List.take_length]

/-! ## Steps -/

/-- What may be new in the log, by where the writer stands. -/
def Admits (manager : TorrentManagerActor) (new : List ℕ) : WriterPhase → Prop
  | .unregistered => ∀ p ∈ new, Owned manager p
  | .starting _ | .looking => new = []
  | _ => True

/-- INTERNAL: what is announced of the log stays announced when it grows. -/
theorem announces_grow {m manager : TorrentManagerActor} {seen : ℕ} {sent : List PeerMessage}
    {phase : WriterPhase} (h : Announces m seen sent phase) {new : List ℕ}
    (hlog : manager.downloadedPieceIndex = m.downloadedPieceIndex ++ new)
    (howned : ∀ p, Owned m p → Owned manager p) (hnew : Admits manager new phase) :
    Announces manager seen sent phase := by
  have hlength : m.downloadedPieceIndex.length ≤ manager.downloadedPieceIndex.length := by
    rw [hlog, List.length_append]
    exact Nat.le_add_right _ _
  have htake {n : ℕ} (hn : n ≤ m.downloadedPieceIndex.length) :
      manager.downloadedPieceIndex.take n = m.downloadedPieceIndex.take n := by
    rw [hlog, List.take_append_of_le_length hn]
  cases phase with
  | unregistered =>
    intro p hp
    rw [hlog, List.mem_append] at hp
    rcases hp with hp | hp
    · exact howned p (h p hp)
    · exact hnew p hp
  | starting localBitfield =>
    intro p hp
    rw [hlog, show new = [] from hnew, List.append_nil] at hp
    exact h p hp
  | looking =>
    intro p hp
    rw [hlog, show new = [] from hnew, List.append_nil] at hp
    exact h p hp
  | waiting lastSeen =>
    obtain ⟨hseen, hle, hall⟩ := h
    refine ⟨hseen, hle.trans hlength, ?_⟩
    rw [htake hle]
    exact hall
  | woken lastSeen =>
    obtain ⟨hle, hall⟩ := h
    refine ⟨hle.trans hlength, ?_⟩
    rw [htake hle]
    exact hall
  | asking lastSeen currentLen =>
    obtain ⟨hseen, hcurrent, hle, hall⟩ := h
    refine ⟨hseen, hcurrent.trans hlength, hle.trans hlength, ?_⟩
    rw [htake hle]
    exact hall
  | announcing currentLen newPieces =>
    obtain ⟨hseen, hle, hall⟩ := h
    refine ⟨hseen, hle.trans hlength, ?_⟩
    rw [htake hle]
    exact hall
  | ended => trivial

/-- INTERNAL: a message to the manager keeps the invariant, when what it persists may be persisted
where the writer stands.
SOURCE: torrent_manager.rs:264-272 -/
theorem writerInv_recv {s : HaveWriter} {manager : TorrentManagerActor}
    {msg : TorrentManagerMessage} {env : Env} {r : TorrentManagerReply} (h : WriterInv s)
    (hmay : ∀ p ∈ persisted s.manager env msg, MayPersist p s.phase)
    (hstep : managerStep s.manager (msg, env) = some (manager, r)) :
    WriterInv { s with manager } := by
  have hmove := logMove hstep
  have hgrows := logGrows hstep
  have howned (p : ℕ) (hp : Owned s.manager p) : Owned manager p := owned_of_step hstep hp
  refine ⟨hgrows.notifier h.notifier_eq, announces_grow h.announces hgrows.log howned ?_⟩
  cases hpersisted : persisted s.manager env msg with
  | none =>
    cases s.phase with
    | unregistered => exact nofun
    | starting | looking => rfl
    | _ => trivial
  | some p =>
    rw [hpersisted] at hmove
    have hmay := hmay p hpersisted
    cases hphase : s.phase with
    | unregistered =>
      rw [hphase] at hmay
      intro p' hp'
      rw [Option.toList_some, List.map_singleton, List.mem_singleton, Nat.mod_eq_of_lt hmay] at hp'
      rw [hp']
      exact hmove.2.2
    | starting | looking =>
      rw [hphase] at hmay
      exact hmay.elim
    | _ => trivial

/-- INTERNAL: every step that is outside the window keeps the invariant.
SOURCE: peer_protocol_state_machine.rs:165-228, peer_protocol_state_machine.rs:264-278 -/
theorem writerInv_step {s t : HaveWriter} {e : WriterEvent} {r : Unit} (h : WriterInv s)
    (he : OutsideWindow s e) (hstep : writerStep s e = some (t, r)) : WriterInv t := by
  have hannounces := h.announces
  cases writerMove hstep with
  | recv hmanager => exact writerInv_recv h he hmanager
  | register hphase hmanager =>
    -- the bitfield that the registration is answered with has all pieces in the log
    rw [hphase] at hannounces
    generalize hr : TorrentManagerReply.bitfield _ = r at hmanager
    cases managerEffect hmanager with
    | registered =>
      cases hr
      exact ⟨h.notifier_eq, hannounces⟩
    | unchanged hmsg => exact absurd rfl (hmsg _ [] 0).1
  | @sendBitfield b hphase =>
    rw [hphase] at hannounces
    refine ⟨h.notifier_eq, fun p hp => Or.inl ⟨b, ?_, hannounces p hp⟩⟩
    exact List.mem_append_right _ (List.mem_singleton_self _)
  | look hphase =>
    -- all of the log is announced, and the cursor is set behind it
    rw [hphase] at hannounces
    refine ⟨h.notifier_eq, rfl, h.notifier_eq.le, fun p hp => hannounces p ?_⟩
    exact List.mem_of_mem_take hp
  | wake hphase =>
    rw [hphase] at hannounces
    exact ⟨h.notifier_eq, hannounces.2⟩
  | readLen hphase =>
    rw [hphase] at hannounces
    exact ⟨h.notifier_eq, rfl, h.notifier_eq.le, hannounces⟩
  | @askProgress lastSeen currentLen env hphase =>
    -- the answer has everything from the old cursor on, so at least what is up to the new one
    rw [hphase] at hannounces
    obtain ⟨hseen, hcurrent, -, hall⟩ := hannounces
    refine ⟨h.notifier_eq, hseen, hcurrent, fun p hp => ?_⟩
    have hlog := List.mem_of_mem_take hp
    rw [← List.take_append_drop lastSeen s.manager.downloadedPieceIndex, List.mem_append] at hlog
    exact hlog.imp_left (hall p)
  | sendHave hphase =>
    rw [hphase] at hannounces
    obtain ⟨hseen, hle, hall⟩ := hannounces
    refine ⟨h.notifier_eq, hseen, hle, fun p hp => ?_⟩
    rcases hall p hp with hsent | hp
    · exact Or.inl (hsent.append _)
    · rcases List.mem_cons.mp hp with rfl | hp
      · exact Or.inl (Or.inr (List.mem_append_right _ (List.mem_singleton_self _)))
      · exact Or.inr hp
  | storeLastSeen hphase =>
    rw [hphase] at hannounces
    obtain ⟨hseen, hle, hall⟩ := hannounces
    exact ⟨h.notifier_eq, hseen, hle, fun p hp => (hall p hp).resolve_right List.not_mem_nil⟩
  | ended => exact ⟨h.notifier_eq, trivial⟩

/-! ## Runs -/

variable {torrent : ClientTorrentMetaInfo} {options : PeerOptions}

theorem writerInv_new {s : HaveWriter} (h : HaveWriter.new torrent options = some s) :
    WriterInv s := by
  obtain ⟨manager, hmanager, rfl⟩ := Option.map_eq_some_iff.mp h
  obtain ⟨numOfP, stats, -, rfl⟩ := manager_new_eq_some hmanager
  exact ⟨rfl, nofun⟩

/-- **No piece is left unannounced when none is persisted during the start-up.** In every run in
which no piece is persisted between the registration of the connection and the first look of its
writer at the watch channel, and none with an index from `2 ^ 32` on before that, whenever the
writer waits without an unseen notification every piece in the log is set in the `Bitfield` or
named in a `Have` that it has sent.
SOURCE: peer_protocol_state_machine.rs:165-228, peer_protocol_state_machine.rs:264-278,
torrent_manager.rs:264-276, torrent_manager.rs:466-470 -/
theorem nothing_unannounced {start : HaveWriter}
    (hstart : HaveWriter.new torrent options = some start) {es : List WriterEvent}
    (hes : AllSteps writerStep OutsideWindow start es) :
    AllStates writerStep NothingUnannounced start es :=
  allStates_of_invariant WriterInv (fun _ _ _ _ h he hstep => writerInv_step h he hstep)
    (fun _ h => nothingUnannounced_of_inv h) (writerInv_new hstart) hes

/-- A torrent of two pieces, before the connection registers. -/
def writerStart : HaveWriter :=
  (HaveWriter.new (byteTorrent 2 (List.replicate 40 0)) {}).get (by decide +kernel)

/-- Another peer registers, has both pieces and asks for both. -/
def otherPeerWorks : List WriterEvent :=
  [.recv (.addPeer "other" []) .quiet, .recv (.addBitFeild "other" [true, true]) .quiet,
    .recv (.requestWork "other") .quiet, .recv (.requestWork "other") .quiet]

/-- The connection registers and starts up, and meanwhile the other peer finishes the first
piece. -/
def finishInWindow : List WriterEvent :=
  otherPeerWorks ++ [.register "late" .quiet, .recv (.pieceFinish "other" 0) .quiet,
    .sendBitfield true, .look]

/-- The state after that. -/
def windowState : HaveWriter :=
  (run writerStep writerStart finishInWindow).get (by decide +kernel)

/-- The writer waits, the piece is not in the `Bitfield` that it has sent, and its cursor is past
the piece. -/
theorem window_piece_unannounced :
    run writerStep writerStart finishInWindow = some windowState ∧
      windowState.phase = .waiting 1 ∧ windowState.seen = windowState.manager.peerNotifier ∧
      windowState.manager.downloadedPieceIndex = [0] ∧
      windowState.sent = [.bitfield [false, false]] ∧
      ¬ AllStates writerStep NothingUnannounced writerStart finishInWindow := by
  have hrun : run writerStep writerStart finishInWindow = some windowState :=
    (Option.some_get _).symm
  have hphase : windowState.phase = .waiting 1 := by decide +kernel
  have hseen : windowState.seen = windowState.manager.peerNotifier := by decide +kernel
  have hlog : windowState.manager.downloadedPieceIndex = [0] := by decide +kernel
  have hsent : windowState.sent = [.bitfield [false, false]] := by decide +kernel
  refine ⟨hrun, hphase, hseen, hlog, hsent, fun hall => ?_⟩
  have hannounced := hall.last hrun 1 hphase hseen 0 (by rw [hlog]; exact List.mem_singleton_self 0)
  unfold AnnouncedIn at hannounced
  rw [hsent] at hannounced
  simp at hannounced

/-- The first piece is finished before the registration and is in the `Bitfield`, the second one
while the writer waits and is sent in a `Have`. -/
def finishOutsideWindow : List WriterEvent :=
  otherPeerWorks ++ [.recv (.pieceFinish "other" 0) .quiet, .register "late" .quiet,
    .sendBitfield true, .look, .recv (.pieceFinish "other" 1) .quiet, .wake, .readLen,
    .askProgress .quiet, .sendHave true, .storeLastSeen]

/-- The run goes through, and both pieces are announced. -/
theorem nothing_unannounced_two_pieces :
    (run writerStep writerStart finishOutsideWindow).isSome = true ∧
      AllStates writerStep NothingUnannounced writerStart finishOutsideWindow := by
  constructor
  · decide +kernel
  · exact nothing_unannounced (Option.some_get _).symm (by decide +kernel)

end Fissure.Analysis
