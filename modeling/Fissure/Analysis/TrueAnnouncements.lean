import Fissure.Analysis.Announcements
import Fissure.Analysis.Settling
import Fissure.Model.AnnouncingSystem

/-!
# What the peers are told is true

A peer is told of a piece in the `Bitfield` at the start of its connection, or in a `Have` that
follows the log. The `Bitfield` is a copy of the pieces that the manager owns, and the manager owns
a piece before it is flushed; but while it waits for the flush it answers no registration. So as
long as no flush has failed, everything that a writer has sent or is about to send is in the log
(`Truthful`), and with that verified and on disk for good (`announced_pieces_persisted`). After a
failed flush the manager still owns the piece, and a peer that connects then is told of it.
-/

set_option autoImplicit false

namespace Fissure.Analysis

open Fissure.Library Fissure.Model
open Fissure.Model.TorrentSystem

variable {sha1 : Bytes → Bytes} {torrent : ClientTorrentMetaInfo} {options : PeerOptions}

/-! ## One step -/

/-- What an event of the system with its announcing writers does. -/
inductive AnnouncingMove (sha1 : Bytes → Bytes) (s : AnnouncingSystem) :
    AnnouncingEvent → AnnouncingSystem → Prop
  | connects {peerId : String} {env : Env} {system : TorrentSystem}
      (hidle : s.system.finishing = none)
      (h : systemStep sha1 s.system (.connect peerId env) = some (system, ())) :
      AnnouncingMove sha1 s (.system (.connect peerId env))
        ⟨system, s.writers ++ [⟨.starting s.system.manager.localBitfield, 0, []⟩]⟩
  | others {e : SystemEvent} {system : TorrentSystem}
      (h : systemStep sha1 s.system e = some (system, ())) :
      AnnouncingMove sha1 s (.system e) { s with system }
  | writes {c : ℕ} {e : WriterEvent} {w : WriterState} {t : HaveWriter}
      (hw : s.writers[c]? = some w) (hown : ∀ msg env, e ≠ .recv msg env)
      (hregister : ∀ peerId env, e ≠ .register peerId env)
      (hstep : writerStep (s.view w) e = some (t, ())) (hmanager : t.manager = s.system.manager) :
      AnnouncingMove sha1 s (.writer c e)
        { s with writers := s.writers.set c ⟨t.phase, t.seen, t.sent⟩ }

/-- INTERNAL: only a registration changes the manager. -/
theorem manager_of_writerMove {s t : HaveWriter} {e : WriterEvent} (h : WriterMove s e t)
    (hown : ∀ msg env, e ≠ .recv msg env) (hregister : ∀ peerId env, e ≠ .register peerId env) :
    t.manager = s.manager := by
  cases h with
  | recv => exact absurd rfl (hown _ _)
  | register => exact absurd rfl (hregister _ _)
  | _ => rfl

/-- INTERNAL: everything a step of the system with its announcing writers does. A registration is
answered with the pieces that are owned.
SOURCE: peer_protocol_state_machine.rs:151-165, torrent_manager.rs:466-470 -/
theorem announcingMove {s t : AnnouncingSystem} {e : AnnouncingEvent} {r : Unit}
    (h : announcingStep sha1 s e = some (t, r)) : AnnouncingMove sha1 s e t := by
  obtain ⟨u, hu, heq⟩ := Option.map_eq_some_iff.mp h
  cases heq
  cases e with
  | system e =>
    cases e with
    | connect peerId env =>
      change s.connect peerId env = some t at hu
      unfold AnnouncingSystem.connect at hu
      simp only [Option.bind_eq_bind, Option.bind_eq_some_iff] at hu
      obtain ⟨⟨system, reply⟩, hhandle, hu⟩ := hu
      obtain ⟨hidle, manager, hstep, rfl⟩ := handle_eq_some hhandle
      have hconnect : s.system.connect peerId env = some { s.system with
          manager, pieceActors := s.system.spawned reply
          connections := s.system.connections ++ [Connection.new peerId] } := by
        unfold TorrentSystem.connect
        rw [hhandle]
        rfl
      cases managerEffect hstep with
      | registered =>
        cases hu
        refine .connects hidle ?_
        simp only [systemStep, hconnect, Option.map_some]
      | unchanged hmsg => exact absurd rfl (hmsg _ [] 0).1
    | _ =>
      obtain ⟨⟨system, r⟩, hsystem, rfl⟩ := Option.map_eq_some_iff.mp hu
      exact .others hsystem
  | writer c e =>
    change s.writer c e = some t at hu
    unfold AnnouncingSystem.writer at hu
    split at hu
    · cases hu
    · cases hu
    · next hown hregister =>
      simp only [Option.bind_eq_bind, Option.bind_eq_some_iff] at hu
      obtain ⟨w, hw, hu⟩ := hu
      split_ifs at hu with hasks
      obtain ⟨⟨v, reply⟩, hstep, hu⟩ := Option.bind_eq_some_iff.mp hu
      have hmanager : v.manager = s.system.manager :=
        manager_of_writerMove (writerMove hstep) (fun msg env heq => hown msg env heq)
          fun peerId env heq => hregister peerId env heq
      cases hu
      rw [hmanager]
      exact .writes hw (fun msg env heq => hown msg env heq)
        (fun peerId env heq => hregister peerId env heq) hstep hmanager

/-! ## The log -/

/-- INTERNAL: the log grows in a step of the system, and only at the end of a `PieceFinish`.
SOURCE: torrent_manager.rs:264-276 -/
theorem logGrows_systemStep {s t : TorrentSystem} {e : SystemEvent} {r : Unit}
    (h : systemStep sha1 s e = some (t, r)) :
    ∃ new, LogGrows s.manager t.manager new ∧ (e ≠ .pieceFinishEnd → new = []) := by
  have hgrows : ∃ new, LogGrows s.manager t.manager new := by
    cases manager_of_systemStep h with
    | stays hsame =>
      refine ⟨[], ?_, ?_⟩
      · simp [hsame]
      · rw [hsame]
        exact id
    | handles msg env reply _ hstep => exact ⟨_, logGrows hstep⟩
    | begins p last hbegin =>
      obtain ⟨hlog, hnotifier⟩ := log_pieceFinishBegin hbegin
      exact ⟨[], by simp [hlog], by rw [hlog, hnotifier]; exact id⟩
    | ends p job flushResult _ _ hend =>
      rw [hend]
      cases flushResult with
      | false => exact ⟨[], by simp [TorrentManagerActor.pieceFinishEnd], id⟩
      | true => exact ⟨[p % 2 ^ 32], rfl, fun _ => rfl⟩
  obtain ⟨new, hnew⟩ := hgrows
  refine ⟨new, hnew, fun he => ?_⟩
  have hlog : t.manager.downloadedPieceIndex = s.manager.downloadedPieceIndex := by
    cases flushMove_of_systemStep h with
    | keeps _ _ hlog => exact hlog
    | begins _ p last _ _ hbegin _ _ => exact (log_pieceFinishBegin hbegin).1
    | flushes _ p job job' result _ hmanager => rw [hmanager]
    | ends hend => exact absurd hend he
  rwa [hnew.log, List.append_right_eq_self] at hlog

/-- What the writer sends next names the piece. -/
def AboutToAnnounce (p : ℕ) : WriterPhase → Prop
  | .starting localBitfield => localBitfield.getD p false = true
  | .announcing _ newPieces => p ∈ newPieces
  | _ => False

/-- All pieces that are announced, or about to be, are in the log. -/
def Truthful (log : List ℕ) (w : WriterState) : Prop :=
  ∀ p, AnnouncedIn w.sent p ∨ AboutToAnnounce p w.phase → p ∈ log

@[simp] theorem announcedIn_append_bitfield {sent : List PeerMessage} {b : Bitfield} {p : ℕ} :
    AnnouncedIn (sent ++ [.bitfield b]) p ↔ AnnouncedIn sent p ∨ b.getD p false = true := by
  unfold AnnouncedIn
  simp only [List.mem_append, List.mem_singleton, PeerMessage.bitfield.injEq, reduceCtorEq,
    or_false, or_and_right, exists_or, exists_eq_left]
  exact or_right_comm

@[simp] theorem announcedIn_append_have {sent : List PeerMessage} {p q : ℕ} :
    AnnouncedIn (sent ++ [.have q]) p ↔ AnnouncedIn sent p ∨ p = q := by
  unfold AnnouncedIn
  simp only [List.mem_append, List.mem_singleton, PeerMessage.have.injEq, reduceCtorEq, or_false,
    or_assoc]

/-- INTERNAL: a writer announces what it was about to announce, and what it is about to announce
afterwards is in the log.
SOURCE: peer_protocol_state_machine.rs:165-228, peer_protocol_state_machine.rs:264-278 -/
theorem truthful_writes {s t : HaveWriter} {e : WriterEvent}
    (h : Truthful s.manager.downloadedPieceIndex ⟨s.phase, s.seen, s.sent⟩)
    (hstep : writerStep s e = some (t, ())) (hmanager : t.manager = s.manager)
    (hregister : ∀ peerId env, e ≠ .register peerId env) :
    Truthful s.manager.downloadedPieceIndex ⟨t.phase, t.seen, t.sent⟩ := by
  intro p hp
  have hp' := h p
  cases writerMove hstep with
  | recv => exact hp' hp
  | register => exact absurd rfl (hregister _ _)
  | sendBitfield hphase =>
    rw [hphase] at hp'
    simp only [announcedIn_append_bitfield, AboutToAnnounce, or_false] at hp
    exact hp' hp
  | sendHave hphase =>
    rw [hphase] at hp'
    simp only [announcedIn_append_have, AboutToAnnounce, or_assoc] at hp
    exact hp' (hp.imp_right List.mem_cons.mpr)
  | askProgress hphase =>
    rcases hp with hp | hp
    · exact hp' (Or.inl hp)
    · exact List.mem_of_mem_drop hp
  | _ => exact hp' (hp.imp_right False.elim)

/-! ## Runs -/

/-- The condition on a step, for an event of the system with its writers. -/
def AllUnharmed (s : AnnouncingSystem) : AnnouncingEvent → Prop
  | .system e => Unharmed s.system e
  | .writer _ _ => True

instance (s : AnnouncingSystem) : (e : AnnouncingEvent) → Decidable (AllUnharmed s e)
  | .system e => inferInstanceAs (Decidable (Unharmed s.system e))
  | .writer _ _ => isTrue trivial

/-- The invariant of the announcing writers. -/
structure TruthInv (sha1 : Bytes → Bytes) (torrent : ClientTorrentMetaInfo) (options : PeerOptions)
    (s : AnnouncingSystem) : Prop where
  sound : SoundInv sha1 torrent options s.system
  truthful : s.system.diskEnded = false →
    ∀ w ∈ s.writers, Truthful s.system.manager.downloadedPieceIndex w

variable {s t : AnnouncingSystem}

/-- INTERNAL: a piece that is owned while no flush is in progress and the disk actor runs is in the
log. -/
theorem SoundInv.logged {s : TorrentSystem} (h : SoundInv sha1 torrent options s)
    (hruns : s.diskEnded = false) (hidle : s.finishing = none) {p : ℕ} (hp : Owned s.manager p) :
    p ∈ s.manager.downloadedPieceIndex := by
  refine (h.persisted hruns p hp).resolve_right ?_
  rintro ⟨f, hf, -⟩
  rw [hidle] at hf
  cases hf

theorem truthInv_step (hmeta : torrent.rawTorrent.WellSized)
    (hcount : torrent.rawTorrent.pieceCount ≤ 2 ^ 32) (hs : TruthInv sha1 torrent options s)
    {e : AnnouncingEvent} {r : Unit} (hcalm : AllUnharmed s e)
    (h : announcingStep sha1 s e = some (t, r)) : TruthInv sha1 torrent options t := by
  have hgrows {system : TorrentSystem} {e : SystemEvent}
      (h : systemStep sha1 s.system e = some (system, ())) {p : ℕ}
      (hp : p ∈ s.system.manager.downloadedPieceIndex) :
      p ∈ system.manager.downloadedPieceIndex := by
    obtain ⟨new, hnew, -⟩ := logGrows_systemStep h
    rw [hnew.log]
    exact List.mem_append_left new hp
  cases announcingMove h with
  | connects hidle hsystem =>
    refine ⟨soundInv_step hmeta hcount hs.sound hcalm hsystem, ?_⟩
    intro hruns w hw p hp
    have hran := ran_of_systemStep hsystem hruns
    apply hgrows hsystem
    rcases List.mem_append.mp hw with hw | hw
    · exact hs.truthful hran w hw p hp
    · -- the `Bitfield` to come is a copy of what is owned
      rw [List.mem_singleton.mp hw] at hp
      refine hs.sound.logged hran hidle (hp.resolve_left ?_)
      simp [AnnouncedIn]
  | others hsystem =>
    refine ⟨soundInv_step hmeta hcount hs.sound hcalm hsystem, ?_⟩
    intro hruns w hw p hp
    exact hgrows hsystem (hs.truthful (ran_of_systemStep hsystem hruns) w hw p hp)
  | writes hw _ hregister hstep hmanager =>
    refine ⟨hs.sound, fun hruns w' hw' => ?_⟩
    rcases List.mem_or_eq_of_mem_set hw' with hw' | rfl
    · exact hs.truthful hruns w' hw'
    · exact truthful_writes (s := s.view _) (hs.truthful hruns _ (List.mem_of_getElem? hw)) hstep
        hmanager hregister

variable {fileSystem : FileSystem} {downloadPath : PathBuf} {start : AnnouncingSystem}
  {xs ys : List AnnouncingEvent}

theorem truthInv_new (hfiles : torrent.rawTorrent.localFiles = some torrent.files)
    (hseparate : Separate (entries fileSystem downloadPath torrent.files))
    (h : AnnouncingSystem.new torrent options fileSystem downloadPath = some s) :
    TruthInv sha1 torrent options s := by
  obtain ⟨system, hsystem, rfl⟩ := Option.map_eq_some_iff.mp h
  exact ⟨soundInv_new hfiles hseparate hsystem, fun _ => nofun⟩

theorem truthInv_run (hmeta : torrent.rawTorrent.WellSized)
    (hcount : torrent.rawTorrent.pieceCount ≤ 2 ^ 32)
    (hs : TruthInv sha1 torrent options s) (hes : AllSteps (announcingStep sha1) AllUnharmed s xs)
    (ht : run (announcingStep sha1) s xs = some t) : TruthInv sha1 torrent options t :=
  (allStates_of_invariant (TruthInv sha1 torrent options)
    (fun _ _ _ _ hs hcalm h => truthInv_step hmeta hcount hs hcalm h)
    (fun _ hs => hs) hs hes).last ht

/-- The event of the system, if it is one. -/
def systemEvent (_ : AnnouncingSystem) : AnnouncingEvent → Option SystemEvent
  | .system e => some e
  | .writer _ _ => none

/-- INTERNAL: the announcing writers change nothing for the others. -/
theorem refines_announcingStep {e : AnnouncingEvent} {r : Unit}
    (h : announcingStep sha1 s e = some (t, r)) :
    RefinesStep (systemStep sha1) AnnouncingSystem.system systemEvent s e t := by
  cases announcingMove h with
  | connects _ hsystem | others hsystem => exact ⟨(), hsystem⟩
  | writes => rfl

/-- INTERNAL: a run with the announcing writers is a run of the system, on steps that meet the same
condition. -/
theorem system_of_run (hes : AllSteps (announcingStep sha1) AllUnharmed s xs)
    (ht : run (announcingStep sha1) s xs = some t) :
    AllSteps (systemStep sha1) Unharmed s.system
        (outputs (announcingStep sha1) systemEvent s xs) ∧
      run (systemStep sha1) s.system (outputs (announcingStep sha1) systemEvent s xs) =
        some t.system := by
  constructor
  · refine allSteps_outputs_of_refines (fun _ => True) AnnouncingSystem.system systemEvent
      (fun _ _ _ _ _ _ _ => trivial) (fun _ _ _ _ _ _ h => refines_announcingStep h) ?_ trivial hes
    intro s e b hcalm he
    cases e with
    | system e =>
      cases he
      exact hcalm
    | writer c e => cases he
  · exact run_outputs_of_refines (fun _ => True) AnnouncingSystem.system systemEvent
      (fun _ _ _ _ _ _ _ => trivial) (fun _ _ _ _ _ _ h => refines_announcingStep h) trivial hes ht

/-- **What the peers are told is true.** When no two entries of the list of files lead to one file:
in every run of all tasks in which no block changes what is still to be flushed of a verified buffer
and no write fails without being reported, as long as the disk actor runs, when a connection has
announced a piece to its peer, in the `Bitfield` or in a `Have`, the piece is in the log, its bytes
on disk hash to its digest, and at every later point, whether the disk actor runs or not, it is
still there with the same bytes.
SOURCE: peer_protocol_state_machine.rs:151-165, peer_protocol_state_machine.rs:264-278,
torrent_manager.rs:238-280, torrent_manager.rs:349-357, disk_manager.rs:59-112 -/
theorem announced_pieces_persisted (hmeta : torrent.rawTorrent.WellSized)
    (hcount : torrent.rawTorrent.pieceCount ≤ 2 ^ 32)
    (hfiles : torrent.rawTorrent.localFiles = some torrent.files)
    (hseparate : Separate (entries fileSystem downloadPath torrent.files))
    (hstart : AnnouncingSystem.new torrent options fileSystem downloadPath = some start)
    (hes : AllSteps (announcingStep sha1) AllUnharmed start (xs ++ ys))
    (hs : run (announcingStep sha1) start xs = some s)
    (ht : run (announcingStep sha1) s ys = some t) (hruns : s.system.diskEnded = false)
    {w : WriterState} (hw : w ∈ s.writers) {p : ℕ} (hp : AnnouncedIn w.sent p) :
    p ∈ t.system.manager.downloadedPieceIndex ∧ ∃ data, Verified sha1 torrent.rawTorrent p data ∧
      onDiskAt torrent.rawTorrent s.system.disk p = some data ∧
      onDiskAt torrent.rawTorrent t.system.disk p = some data := by
  have htruth : TruthInv sha1 torrent options s :=
    truthInv_run hmeta hcount (truthInv_new hfiles hseparate hstart) hes.left hs
  have hlog : p ∈ s.system.manager.downloadedPieceIndex :=
    htruth.truthful hruns w hw p (Or.inl hp)
  have hboth : run (announcingStep sha1) start (xs ++ ys) = some t := run_append.mpr ⟨s, hs, ht⟩
  obtain ⟨system, hsystem, rfl⟩ := Option.map_eq_some_iff.mp hstart
  obtain ⟨-, hbefore⟩ := system_of_run hes.left hs
  obtain ⟨-, hafter⟩ := system_of_run (hes.right hs) ht
  obtain ⟨hcalm, -⟩ := system_of_run hes hboth
  rw [outputs_append ys hs] at hcalm
  obtain ⟨-, data, hverified, hdisk, hcarries, hkept⟩ :=
    kept_bytes_stay hmeta hcount hfiles hseparate hsystem hcalm hbefore hafter hlog
  exact ⟨hkept, data, hverified, hdisk, onDiskAt_of_carries hverified.2.1 hcarries⟩

/-- A torrent of one byte, with an empty file. -/
def announcingStart : AnnouncingSystem :=
  (AnnouncingSystem.new oneByte {} .empty "dl".toList).get (by decide +kernel)

/-- A peer that has the piece delivers it, and is told of it when it is persisted. -/
def persistThenAnnounce : List AnnouncingEvent :=
  [.system (.connect "seed" .quiet), .writer 0 (.sendBitfield true), .writer 0 .look,
    .system (.recv (.addBitFeild "seed" [true]) .quiet), .system (.requestPiece 0 .quiet),
    .system (.insertRequest 0), .system (.piece 0 0 0 [1]), .system (.blockRecived 0),
    .system (.pieceFinish 0), .system (.pieceFinishBegin 0), .system (.flushRound .ok),
    .system (.flushRound .ok), .system .pieceFinishEnd, .writer 0 .wake, .writer 0 .readLen,
    .writer 0 (.askProgress .quiet), .writer 0 (.sendHave true)]

/-- The state after that. -/
def toldState : AnnouncingSystem :=
  (run (announcingStep toySha1) announcingStart persistThenAnnounce).get (by decide +kernel)

/-- Then another peer comes up and gets its `Bitfield`. -/
def anotherIsTold : List AnnouncingEvent :=
  [.writer 0 .storeLastSeen, .system (.connect "other" .quiet), .writer 1 (.sendBitfield true)]

/-- The state after that. -/
def toldLater : AnnouncingSystem :=
  (run (announcingStep toySha1) toldState anotherIsTold).get (by decide +kernel)

/-- The one byte is on disk when the first peer is told of it, and when the other one is. -/
theorem announced_pieces_persisted_oneByte :
    0 ∈ toldLater.system.manager.downloadedPieceIndex ∧
      ∃ data, Verified toySha1 oneByte.rawTorrent 0 data ∧
        onDiskAt oneByte.rawTorrent toldState.system.disk 0 = some data ∧
        onDiskAt oneByte.rawTorrent toldLater.system.disk 0 = some data := by
  have hes : AllSteps (announcingStep toySha1) AllUnharmed announcingStart
      (persistThenAnnounce ++ anotherIsTold) := by
    decide +kernel
  have htold : ∃ w ∈ toldState.writers, .have 0 ∈ w.sent := by decide +kernel
  obtain ⟨w, hw, hhave⟩ := htold
  exact announced_pieces_persisted wellSized_oneByte (by decide) (by decide +kernel)
    separate_oneByte (Option.some_get _).symm hes (Option.some_get _).symm (Option.some_get _).symm
    (by decide +kernel) hw (Or.inr hhave)

end Fissure.Analysis
