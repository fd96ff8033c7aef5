import Fissure.Analysis.TrueAnnouncements

/-!
# When the torrent rests, every peer gets to know all of it

While nothing else happens, the writers have only finitely much to do: each of them reads the length
of the log once more, asks for what is new and sends it (`writerDistance`). As long as no message
fails to be sent, every order in which they go on comes to a state in which the peers know exactly
the pieces in the log (`peers_get_informed`), provided that no flush has failed and that no piece
was persisted while a connection started up.
-/

set_option autoImplicit false

namespace Fissure.Analysis

open Fissure.Library Fissure.Model

variable {sha1 : Bytes → Bytes} {torrent : ClientTorrentMetaInfo} {options : PeerOptions}
  {s t : AnnouncingSystem}

/-- The writer has not looked at the watch channel yet. -/
def startsUp : WriterPhase → Bool
  | .starting _ | .looking => true
  | _ => false

/-- The event ends a `PieceFinish`. -/
def endsFinish : AnnouncingEvent → Bool
  | .system .pieceFinishEnd => true
  | _ => false

/-- No piece is persisted while the writer of a connection starts up. -/
def NoneAtStartUp (s : AnnouncingSystem) (e : AnnouncingEvent) : Prop :=
  endsFinish e = true → ∀ w ∈ s.writers, startsUp w.phase = false

instance (s : AnnouncingSystem) (e : AnnouncingEvent) : Decidable (NoneAtStartUp s e) :=
  inferInstanceAs (Decidable (_ → ∀ w ∈ s.writers, _))

/-- Every peer whose connection lasts has been told exactly of the pieces in the log. -/
def Informed (s : AnnouncingSystem) : Prop :=
  ∀ w ∈ s.writers, w.phase ≠ .ended →
    ∀ p, AnnouncedIn w.sent p ↔ p ∈ s.system.manager.downloadedPieceIndex

/-! ## The invariant -/

/-- What is announced is in the log, and how far the log is announced. -/
structure InformingInv (sha1 : Bytes → Bytes) (torrent : ClientTorrentMetaInfo)
    (options : PeerOptions) (s : AnnouncingSystem) : Prop where
  truth : TruthInv sha1 torrent options s
  notifier_eq : s.system.manager.peerNotifier = s.system.manager.downloadedPieceIndex.length
  registered : ∀ w ∈ s.writers, w.phase ≠ .unregistered
  announces : ∀ w ∈ s.writers, Announces s.system.manager w.seen w.sent w.phase

/-- INTERNAL: what is announced stays announced in a step of the system that persists nothing while
the writer starts up. -/
theorem announces_systemStep {s t : TorrentSystem} {w : WriterState} {e : SystemEvent} {r : Unit}
    (h : Announces s.manager w.seen w.sent w.phase) (hregistered : w.phase ≠ .unregistered)
    (hlater : e = .pieceFinishEnd → startsUp w.phase = false)
    (hstep : systemStep sha1 s e = some (t, r)) : Announces t.manager w.seen w.sent w.phase := by
  obtain ⟨new, hgrows, hnew⟩ := logGrows_systemStep hstep
  refine announces_grow h hgrows.log (fun _ hp => owned_of_systemStep hstep hp) ?_
  cases hphase : w.phase with
  | unregistered => exact absurd hphase hregistered
  | starting | looking =>
    refine hnew fun he => ?_
    have hstarts := hlater he
    rw [hphase] at hstarts
    cases hstarts
  | _ => trivial

theorem informingInv_step (hmeta : torrent.rawTorrent.WellSized)
    (hcount : torrent.rawTorrent.pieceCount ≤ 2 ^ 32) (hs : InformingInv sha1 torrent options s)
    {e : AnnouncingEvent} {r : Unit} (hcalm : AllUnharmed s e) (hnone : NoneAtStartUp s e)
    (h : announcingStep sha1 s e = some (t, r)) : InformingInv sha1 torrent options t := by
  have htruth := truthInv_step hmeta hcount hs.truth hcalm h
  cases announcingMove h with
  | connects hidle hsystem =>
    obtain ⟨new, hgrows, hnew⟩ := logGrows_systemStep hsystem
    refine ⟨htruth, hgrows.notifier hs.notifier_eq, fun w hw => ?_, fun w hw => ?_⟩
    · rcases List.mem_append.mp hw with hw | hw
      · exact hs.registered w hw
      · rw [List.mem_singleton.mp hw]
        exact WriterPhase.noConfusion
    · rcases List.mem_append.mp hw with hw | hw
      · refine announces_systemStep (hs.announces w hw) (hs.registered w hw) ?_ hsystem
        rintro ⟨⟩
      · -- all of the log is owned
        rw [List.mem_singleton.mp hw]
        intro p hp
        rw [hgrows.log, hnew (by simp), List.append_nil] at hp
        exact hs.truth.sound.download.owned p hp
  | @others e system hsystem =>
    obtain ⟨new, hgrows, -⟩ := logGrows_systemStep hsystem
    refine ⟨htruth, hgrows.notifier hs.notifier_eq, hs.registered, fun w hw => ?_⟩
    refine announces_systemStep (hs.announces w hw) (hs.registered w hw) ?_ hsystem
    rintro rfl
    exact hnone rfl w hw
  | @writes c e w t hw hown hregister hstep hmanager =>
    have hmem := List.mem_of_getElem? hw
    have hinv : WriterInv (s.view w) := ⟨hs.notifier_eq, hs.announces w hmem⟩
    have houtside : OutsideWindow (s.view w) e := by
      cases e with
      | recv msg env => exact absurd rfl (hown msg env)
      | _ => trivial
    have hafter := (writerInv_step hinv houtside hstep).announces
    rw [hmanager] at hafter
    refine ⟨htruth, hs.notifier_eq, fun w' hw' => ?_, fun w' hw' => ?_⟩
    · rcases List.mem_or_eq_of_mem_set hw' with hw' | rfl
      · exact hs.registered w' hw'
      · cases writerMove hstep with
        | recv => exact absurd rfl (hown _ _)
        | _ => exact WriterPhase.noConfusion
    · rcases List.mem_or_eq_of_mem_set hw' with hw' | rfl
      · exact hs.announces w' hw'
      · exact hafter

/-! ## The writers alone -/

/-- The writer of a connection that is registered goes on, and its message is sent. -/
def goesOn : WriterEvent → Bool
  | .sendBitfield ok | .sendHave ok => ok
  | .recv _ _ | .register _ _ | .ends => false
  | _ => true

/-- A step of writer `e.1` that does not end it. -/
def tellingStep (s : AnnouncingSystem) (e : ℕ × WriterEvent) : Option (AnnouncingSystem × Unit) :=
  if goesOn e.2 then (s.writer e.1 e.2).map fun t => (t, ()) else none

/-- What a writer still has to do. -/
def writerDistance (manager : TorrentManagerActor) (w : WriterState) : ℕ :=
  let length := manager.downloadedPieceIndex.length
  let unseen := if w.seen = manager.peerNotifier then 0 else length + 4
  match w.phase with
  | .unregistered | .ended => 0
  | .starting _ => 2
  | .looking => 1
  | .waiting _ => unseen
  | .woken _ => length + 3
  | .asking lastSeen _ => unseen + (length - lastSeen) + 2
  | .announcing _ newPieces => unseen + newPieces.length + 1

/-- What all writers still have to do. -/
def tellingDistance (s : AnnouncingSystem) : ℕ :=
  (s.writers.map (writerDistance s.system.manager)).sum

/-- The writer has nothing to do: it has ended, or it waits without an unseen notification. -/
def Rests (manager : TorrentManagerActor) (w : WriterState) : Prop :=
  w.phase = .ended ∨ (∃ lastSeen, w.phase = .waiting lastSeen) ∧ w.seen = manager.peerNotifier

/-- INTERNAL: every step of a writer brings it closer to its rest. -/
theorem writerDistance_lt {s t : HaveWriter} {e : WriterEvent} (hmove : WriterMove s e t)
    (hgoes : goesOn e = true) :
    writerDistance s.manager ⟨t.phase, t.seen, t.sent⟩ <
      writerDistance s.manager ⟨s.phase, s.seen, s.sent⟩ := by
  cases hmove with
  | recv | register => cases hgoes
  | ended he =>
    rcases he with rfl | rfl | rfl
    all_goals cases hgoes
  | sendBitfield hphase | look hphase | askProgress hphase | sendHave hphase
  | storeLastSeen hphase =>
    simp [writerDistance, hphase]
  | readLen hphase =>
    simp only [writerDistance, hphase, if_true]
    omega
  | wake hphase hseen => simp [writerDistance, hphase, hseen]

/-- INTERNAL: a writer that does not rest can go on.
SOURCE: peer_protocol_state_machine.rs:165-284 -/
theorem writer_goes {s : HaveWriter} (h : Announces s.manager s.seen s.sent s.phase)
    (hregistered : s.phase ≠ .unregistered) (hrests : ¬ Rests s.manager ⟨s.phase, s.seen, s.sent⟩) :
    ∃ e, goesOn e = true ∧ (writerStep s e).isSome = true := by
  cases hphase : s.phase with
  | unregistered => exact absurd hphase hregistered
  | starting b =>
    exact ⟨.sendBitfield true, rfl, by simp [writerStep, HaveWriter.sendBitfield, hphase]⟩
  | looking => exact ⟨.look, rfl, by simp [writerStep, HaveWriter.look, hphase]⟩
  | waiting lastSeen =>
    have hseen : s.seen ≠ s.manager.peerNotifier :=
      fun hseen => hrests (Or.inr ⟨⟨lastSeen, hphase⟩, hseen⟩)
    exact ⟨.wake, rfl, by simp [writerStep, HaveWriter.wake, hphase, hseen]⟩
  | woken lastSeen => exact ⟨.readLen, rfl, by simp [writerStep, HaveWriter.readLen, hphase]⟩
  | asking lastSeen currentLen =>
    rw [hphase] at h
    obtain ⟨-, -, hle, -⟩ := h
    refine ⟨.askProgress .quiet, rfl, ?_⟩
    simp [writerStep, HaveWriter.askProgress, hphase, managerStep,
      TorrentManagerActor.getHaveMessageProgress, hle]
  | announcing currentLen newPieces =>
    cases newPieces with
    | nil => exact ⟨.storeLastSeen, rfl, by simp [writerStep, HaveWriter.storeLastSeen, hphase]⟩
    | cons p newPieces =>
      exact ⟨.sendHave true, rfl, by simp [writerStep, HaveWriter.sendHave, hphase]⟩
  | ended => exact absurd (Or.inl hphase) hrests

/-- INTERNAL: what a step of the writers alone does. -/
theorem tellingStep_eq_some (sha1 : Bytes → Bytes) {e : ℕ × WriterEvent} {r : Unit}
    (h : tellingStep s e = some (t, r)) :
    goesOn e.2 = true ∧ announcingStep sha1 s (.writer e.1 e.2) = some (t, ()) := by
  unfold tellingStep at h
  split_ifs at h with hgoes
  exact ⟨hgoes, h⟩

/-- INTERNAL: while the manager is not waiting for a flush, a step of one writer is a step of the
writers. -/
theorem tellingStep_isSome (hidle : s.system.finishing = none) {c : ℕ} {w : WriterState}
    (hw : s.writers[c]? = some w) {e : WriterEvent} (hgoes : goesOn e = true)
    (hstep : (writerStep (s.view w) e).isSome = true) : (tellingStep s (c, e)).isSome = true := by
  obtain ⟨⟨t, r⟩, ht⟩ := Option.isSome_iff_exists.mp hstep
  unfold tellingStep AnnouncingSystem.writer
  rw [if_pos hgoes]
  cases e with
  | recv | register => cases hgoes
  | _ => simp [hw, hidle, ht]

/-- INTERNAL: a sum decreases with one of its terms. -/
theorem sum_map_set_lt {α : Type} (f : α → ℕ) {l : List α} {c : ℕ} {a b : α} (ha : l[c]? = some a)
    (hlt : f b < f a) : ((l.set c b).map f).sum < (l.map f).sum := by
  induction l generalizing c with
  | nil => simp at ha
  | cons x l ih =>
    cases c with
    | zero =>
      cases ha
      simpa using hlt
    | succ c => simpa using ih ha

/-- INTERNAL: a step of the writers alone leaves everything else as it is and leaves them less to
do. -/
theorem tellingStep_lt {e : ℕ × WriterEvent} {r : Unit} (h : tellingStep s e = some (t, r)) :
    t.system = s.system ∧ tellingDistance t < tellingDistance s := by
  obtain ⟨hgoes, hstep⟩ := tellingStep_eq_some (fun _ => []) h
  cases announcingMove hstep with
  | writes hw _ _ hwriter =>
    exact ⟨rfl, sum_map_set_lt _ hw (writerDistance_lt (writerMove hwriter) hgoes)⟩

/-- INTERNAL: when no writer has anything to do, the peers are informed. -/
theorem informed_of_rests (hs : InformingInv sha1 torrent options s)
    (hruns : s.system.diskEnded = false)
    (hrests : ∀ w ∈ s.writers, Rests s.system.manager w) : Informed s := by
  intro w hw hlasts p
  obtain ⟨⟨lastSeen, hphase⟩, hseen⟩ := (hrests w hw).resolve_left hlasts
  have hinv : WriterInv (s.view w) := ⟨hs.notifier_eq, hs.announces w hw⟩
  constructor
  · exact fun hp => hs.truth.truthful hruns w hw p (Or.inl hp)
  · exact nothingUnannounced_of_inv hinv lastSeen hphase hseen p

variable {fileSystem : FileSystem} {downloadPath : PathBuf} {start : AnnouncingSystem}
  {xs : List AnnouncingEvent}

theorem informingInv_new (hfiles : torrent.rawTorrent.localFiles = some torrent.files)
    (hseparate : Separate (entries fileSystem downloadPath torrent.files))
    (h : AnnouncingSystem.new torrent options fileSystem downloadPath = some s) :
    InformingInv sha1 torrent options s := by
  have htruth : TruthInv sha1 torrent options s := truthInv_new hfiles hseparate h
  obtain ⟨system, hsystem, rfl⟩ := Option.map_eq_some_iff.mp h
  obtain ⟨manager, disk, diskEnded, hmanager, -, rfl⟩ := system_new_eq_some hsystem
  obtain ⟨numOfP, stats, -, rfl⟩ := manager_new_eq_some hmanager
  exact ⟨htruth, rfl, nofun, nofun⟩

/-- **When the torrent rests, every peer gets to know all of it.** When no two entries of the list of
files lead to one file: after every run of all tasks in which no block changes what is still to be
flushed of a verified buffer, no write fails without being reported and no piece is persisted while
a connection starts up, when the disk actor runs and the manager is not waiting for a flush, in
whatever order the writers go on, as long as nothing else happens and their messages are sent, they
come to a state in which each peer whose connection lasts has been told exactly of the pieces in the
log.
SOURCE: peer_protocol_state_machine.rs:165-284, torrent_manager.rs:264-276,
torrent_manager.rs:349-357 -/
theorem peers_get_informed (hmeta : torrent.rawTorrent.WellSized)
    (hcount : torrent.rawTorrent.pieceCount ≤ 2 ^ 32)
    (hfiles : torrent.rawTorrent.localFiles = some torrent.files)
    (hseparate : Separate (entries fileSystem downloadPath torrent.files))
    (hstart : AnnouncingSystem.new torrent options fileSystem downloadPath = some start)
    (hcalm : AllSteps (announcingStep sha1) AllUnharmed start xs)
    (hnone : AllSteps (announcingStep sha1) NoneAtStartUp start xs)
    (hs : run (announcingStep sha1) start xs = some s) (hruns : s.system.diskEnded = false)
    (hidle : s.system.finishing = none) :
    AlwaysReaches tellingStep (fun t => t.system = s.system ∧ Informed t) s := by
  have hinv : InformingInv sha1 torrent options s :=
    (allStates_of_invariant (InformingInv sha1 torrent options)
      (fun _ _ _ _ hs he h => informingInv_step hmeta hcount hs he.1 he.2 h) (fun _ hs => hs)
      (informingInv_new hfiles hseparate hstart) (hcalm.and hnone)).last hs
  refine alwaysReaches_of_progress tellingDistance
    (fun t => InformingInv sha1 torrent options t ∧ t.system = s.system) ?_ ?_ ⟨hinv, rfl⟩
  · rintro t ⟨ht, hsame⟩
    by_cases hrests : ∀ w ∈ t.writers, Rests t.system.manager w
    · exact Or.inl ⟨hsame, informed_of_rests ht (by rw [hsame, hruns]) hrests⟩
    · right
      push Not at hrests
      obtain ⟨w, hw, hrests⟩ := hrests
      obtain ⟨c, hc⟩ := List.mem_iff_getElem?.mp hw
      obtain ⟨e, hgoes, hstep⟩ :=
        writer_goes (s := t.view w) (ht.announces w hw) (ht.registered w hw) hrests
      have hsome := tellingStep_isSome (by rw [hsame, hidle]) hc hgoes hstep
      obtain ⟨⟨u, r⟩, hu⟩ := Option.isSome_iff_exists.mp hsome
      exact ⟨(c, e), u, r, hu⟩
  · rintro t e u r ⟨ht, hsame⟩ hu
    obtain ⟨-, hstep⟩ := tellingStep_eq_some sha1 hu
    obtain ⟨hsystem, hlt⟩ := tellingStep_lt hu
    have hcalm : AllUnharmed t (.writer e.1 e.2) := trivial
    have hnone : NoneAtStartUp t (.writer e.1 e.2) := by
      rintro ⟨⟩
    exact ⟨⟨informingInv_step hmeta hcount ht hcalm hnone hstep, hsystem.trans hsame⟩, hlt⟩

/-- A peer that has the piece delivers it while another connection comes up, and neither has been
told of it. -/
def persistUnannounced : List AnnouncingEvent :=
  persistThenAnnounce.take 13 ++ [.system (.connect "other" .quiet)]

/-- The state after that. -/
def uninformedState : AnnouncingSystem :=
  (run (announcingStep toySha1) announcingStart persistUnannounced).get (by decide +kernel)

/-- The peers are told of the piece. -/
theorem peers_get_informed_oneByte :
    ¬ Informed uninformedState ∧
      AlwaysReaches tellingStep (fun t => t.system = uninformedState.system ∧ Informed t)
        uninformedState := by
  constructor
  · intro hinformed
    have hlasts : ∃ w ∈ uninformedState.writers, w.phase ≠ .ended ∧ w.sent = [] := by
      decide +kernel
    obtain ⟨w, hw, hlasts, hsent⟩ := hlasts
    have hlog : 0 ∈ uninformedState.system.manager.downloadedPieceIndex := by decide +kernel
    have htold := (hinformed w hw hlasts 0).mpr hlog
    rw [hsent] at htold
    simp [AnnouncedIn] at htold
  · exact peers_get_informed wellSized_oneByte (by decide) (by decide +kernel) separate_oneByte
      (Option.some_get _).symm (by decide +kernel) (by decide +kernel) (Option.some_get _).symm
      (by decide +kernel) (by decide +kernel)

end Fissure.Analysis
