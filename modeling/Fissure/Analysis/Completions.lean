import Fissure.Analysis.ManagerInvariant
import Fissure.Analysis.WriterSteps

/-!
# Each piece is completed once

Several readers can report the same piece as finished. The manager owns the piece before it waits
for the disk manager, so only the first report counts: along every run the pieces sent to the disk
manager are different ones, the log is the list of those whose flush succeeded, and the statistics
add each of them once (`completed_once`). The cursor of a writer is a length that the log had
before, so it lies inside the log when the manager slices it.
-/

set_option autoImplicit false

namespace Fissure.Analysis

open Fissure.Library Fissure.Model
open Fissure.Model.TorrentManagerActor

/-- The piece that is sent to the disk manager when the manager handles the message. -/
def sentToDisk (s : TorrentManagerActor) : TorrentManagerMessage → Option ℕ
  | .pieceFinish _ p => if ¬ Owned s p ∧ p ∈ s.activePiecesManager then some p else none
  | _ => none

/-- The piece that an event sends to the disk manager. -/
def sendsToDisk (s : HaveWriters) : WritersEvent → Option ℕ
  | .recv msg _ => sentToDisk s.manager msg
  | _ => none

/-- The piece that an event persists. -/
def persists (s : HaveWriters) : WritersEvent → Option ℕ
  | .recv msg env => persisted s.manager env msg
  | _ => none

/-- A reader takes the index of a finished piece from a field of 32 bits. -/
def FromWire : WritersEvent → Prop
  | .recv (.pieceFinish _ p) _ => p < 2 ^ 32
  | _ => True

instance : (e : WritersEvent) → Decidable (FromWire e)
  | .recv msg _ =>
    match msg with
    | .pieceFinish _ p => inferInstanceAs (Decidable (p < 2 ^ 32))
    | .addPeer .. | .updateBitField .. | .addBitFeild .. | .removePeer _ | .requestWork _
    | .getTorrentStats | .updateAndGetActiveRequestCount _ | .hasUsefulPieces _ | .getActivePeers
    | .getDataWithLength .. | .getPieceManager _ | .getHaveMessageProgress _ => isTrue trivial
  | .connect | .writer .. => isTrue trivial

/-- The length of a piece in megabytes. -/
def megabytes (torrent : MetaInfo) (p : ℕ) : ℚ :=
  ((torrent.getPieceLength p).getD 0 : ℚ) / 1000000

/-- What holds in the state `t` after the events `es`. -/
structure CompletedOnce (torrent : MetaInfo) (first : HaveWriters) (es : List WritersEvent)
    (t : HaveWriters) : Prop where
  sent_once : (outputs writersStep sendsToDisk first es).Nodup
  log_eq : t.manager.downloadedPieceIndex = outputs writersStep persists first es
  log_once : t.manager.downloadedPieceIndex.Nodup
  downloaded_eq : t.manager.stats.downloaded =
    (t.manager.downloadedPieceIndex.map (megabytes torrent)).sum
  log_grows : ∀ xs ys u, es = xs ++ ys → run writersStep first xs = some u →
    u.manager.downloadedPieceIndex <+: t.manager.downloadedPieceIndex
  log_owned : ∀ p ∈ t.manager.downloadedPieceIndex, Owned t.manager p
  notifier_eq : t.manager.peerNotifier = t.manager.downloadedPieceIndex.length
  slice_defined : ∀ c w lastSeen currentLen env, t.writers[c]? = some w →
    w.phase = .asking lastSeen currentLen →
    lastSeen ≤ t.manager.downloadedPieceIndex.length ∧
      (writersStep t (.writer c (.askProgress env))).isSome = true

variable {torrent : ClientTorrentMetaInfo} {options : PeerOptions}

/-! ## The manager -/

/-- INTERNAL: a piece that is sent to the disk manager was not owned and is owned then.
SOURCE: torrent_manager.rs:240-245, torrent_manager.rs:264-268 -/
theorem sentToDisk_claims {s t : TorrentManagerActor} {msg : TorrentManagerMessage} {env : Env}
    {r : TorrentManagerReply} (h : managerStep s (msg, env) = some (t, r)) {p : ℕ}
    (hp : sentToDisk s msg = some p) : ¬ Owned s p ∧ Owned t p := by
  cases managerEffect h with
  | @finished q p' notifier stats log hlt hnot hlog =>
    obtain ⟨-, heq⟩ := Option.ite_none_right_eq_some.mp hp
    cases heq
    exact ⟨hnot, (owned_claim hlt _).mpr (Or.inl rfl)⟩
  | unchanged hmsg hfinish =>
    cases msg with
    | pieceFinish q i =>
      obtain ⟨hsent, -⟩ := Option.ite_none_right_eq_some.mp hp
      exact absurd (hfinish q i rfl) hsent.1
    | _ => cases hp
  | _ => cases hp

/-- INTERNAL: a piece that is persisted was sent to the disk manager. -/
theorem sentToDisk_of_persisted {s : TorrentManagerActor} {env : Env}
    {msg : TorrentManagerMessage} {p : ℕ} (h : persisted s env msg = some p) :
    sentToDisk s msg = some p := by
  cases msg with
  | pieceFinish q i =>
    obtain ⟨hall, heq⟩ := Option.ite_none_right_eq_some.mp h
    cases heq
    exact if_pos ⟨hall.1, hall.2.1⟩
  | _ => cases h

/-- INTERNAL: a message adds the length of the piece it persists to the statistics, and nothing
else.
SOURCE: torrent_manager.rs:266-271 -/
theorem stats_downloaded_step {s t : TorrentManagerActor} {msg : TorrentManagerMessage} {env : Env}
    {r : TorrentManagerReply} (hs : ManagerInv torrent options s)
    (h : managerStep s (msg, env) = some (t, r)) :
    t.stats.downloaded = (persisted s env msg).toList.foldl
      (fun sum p => sum + megabytes torrent.rawTorrent p) s.stats.downloaded := by
  cases msg with
  | pieceFinish q p =>
    obtain ⟨u, hu, heq⟩ := Option.map_eq_some_iff.mp h
    cases heq
    obtain ⟨v, manager, hv, rfl⟩ := pieceFinish_eq_some_iff.mp hu
    obtain ⟨-, ⟨hown, rfl, rfl⟩ | ⟨hnot, rfl, rfl⟩⟩ := pieceFinishBegin_eq_some hv
    · rw [persisted_eq_none q fun hall => hall.1 hown]
      rfl
    cases hm : s.activePiecesManager.lookup p with
    | none =>
      rw [persisted_eq_none q fun hall => Finmap.lookup_eq_none.mp hm hall.2.1]
      rfl
    | some m =>
      have hlength := (hs.active p m hm).1.pieceLength_eq
      cases hflushed : env.flushed with
      | true =>
        rw [persisted_eq_some q ⟨hnot, Finmap.mem_of_lookup_eq_some hm, hflushed⟩]
        simp [pieceFinishEnd, megabytes, hlength]
      | false =>
        rw [persisted_eq_none q fun hall => by simp [hflushed] at hall]
        simp [pieceFinishEnd]
  | _ => cases managerEffect h <;> rfl

/-! ## The pool of writers -/

/-- What an event does to the manager: nothing, or the manager handles a message. -/
inductive Handles (s t : HaveWriters) (e : WritersEvent) : Prop
  | nothing (hmanager : t.manager = s.manager) (hsends : sendsToDisk s e = none)
      (hpersists : persists s e = none)
  | message {msg : TorrentManagerMessage} {env : Env} {r : TorrentManagerReply}
      (h : managerStep s.manager (msg, env) = some (t.manager, r))
      (hsends : sendsToDisk s e = sentToDisk s.manager msg)
      (hpersists : persists s e = persisted s.manager env msg)

/-- The cursor and the length that a writer holds are not behind the end of the log. -/
def CursorInside (length : ℕ) : WriterPhase → Prop
  | .waiting lastSeen | .woken lastSeen => lastSeen ≤ length
  | .asking lastSeen currentLen => lastSeen ≤ length ∧ currentLen ≤ length
  | .announcing currentLen _ => currentLen ≤ length
  | _ => True

/-- The invariant of the manager and the writers. -/
structure WritersInv (torrent : ClientTorrentMetaInfo) (options : PeerOptions) (s : HaveWriters) :
    Prop where
  manager : ManagerInv torrent options s.manager
  notifier_eq : s.manager.peerNotifier = s.manager.downloadedPieceIndex.length
  inside : ∀ w ∈ s.writers, CursorInside s.manager.downloadedPieceIndex.length w.phase

/-- INTERNAL: the steps of a writer of its own do not change the log. -/
theorem handles_own {s t : HaveWriter} {e : WriterEvent} (h : WriterMove s e t)
    (hown : ∀ msg env, e ≠ .recv msg env) :
    t.manager = s.manager ∨
      ∃ q env r, managerStep s.manager (.addPeer q [], env) = some (t.manager, r) := by
  cases h with
  | recv => exact absurd rfl (hown _ _)
  | register hphase hmanager => exact Or.inr ⟨_, _, _, hmanager⟩
  | _ => exact Or.inl rfl

theorem handles {s t : HaveWriters} {e : WritersEvent} {r : Unit}
    (h : writersStep s e = some (t, r)) : Handles s t e := by
  cases writersMove h with
  | connect => exact .nothing rfl rfl rfl
  | recv hmanager => exact .message hmanager rfl rfl
  | writer hw hown hmove =>
    rcases handles_own hmove hown with hmanager | ⟨q, env, reply, hmanager⟩
    · exact .nothing hmanager rfl rfl
    · exact .message hmanager rfl rfl

theorem CursorInside.mono {n m : ℕ} {phase : WriterPhase} (h : CursorInside n phase) (hle : n ≤ m) :
    CursorInside m phase := by
  cases phase with
  | unregistered | starting | looking | ended => trivial
  | waiting | woken | announcing => exact h.trans hle
  | asking => exact h.imp (·.trans hle) (·.trans hle)

/-- INTERNAL: a step of a writer of its own leaves its cursor inside the log.
SOURCE: peer_protocol_state_machine.rs:228, peer_protocol_state_machine.rs:264-278 -/
theorem cursorInside_own {s t : HaveWriter} {e : WriterEvent} (h : WriterMove s e t)
    (hown : ∀ msg env, e ≠ .recv msg env)
    (hnotifier : s.manager.peerNotifier = s.manager.downloadedPieceIndex.length)
    (hinside : CursorInside s.manager.downloadedPieceIndex.length s.phase) :
    CursorInside t.manager.downloadedPieceIndex.length t.phase := by
  cases h with
  | recv => exact absurd rfl (hown _ _)
  | register | sendBitfield | ended => trivial
  | look => exact hnotifier.le
  | wake hphase =>
    rw [hphase] at hinside
    exact hinside
  | readLen hphase =>
    rw [hphase] at hinside
    exact ⟨hinside, hnotifier.le⟩
  | askProgress hphase =>
    rw [hphase] at hinside
    exact hinside.2
  | sendHave hphase | storeLastSeen hphase =>
    rw [hphase] at hinside
    exact hinside

/-- INTERNAL: what an event does to the log and the watch channel. -/
theorem logGrows_handles {s t : HaveWriters} {e : WritersEvent} (h : Handles s t e) :
    LogGrows s.manager t.manager ((persists s e).toList.map (· % 2 ^ 32)) := by
  cases h with
  | nothing hmanager hsends hpersists =>
    rw [hpersists, hmanager]
    exact ⟨by simp, id⟩
  | message hmanager hsends hpersists =>
    rw [hpersists]
    exact logGrows hmanager

/-- INTERNAL: every step keeps the invariant. -/
theorem writersInv_step {s t : HaveWriters} {e : WritersEvent} {r : Unit}
    (h : WritersInv torrent options s) (hstep : writersStep s e = some (t, r)) :
    WritersInv torrent options t := by
  have hhandles := handles hstep
  have hgrows := logGrows_handles hhandles
  have hlength : s.manager.downloadedPieceIndex.length ≤ t.manager.downloadedPieceIndex.length := by
    rw [hgrows.log, List.length_append]
    exact Nat.le_add_right _ _
  have hkept (w : WriterState) (hw : w ∈ s.writers) :
      CursorInside t.manager.downloadedPieceIndex.length w.phase := (h.inside w hw).mono hlength
  refine ⟨?_, hgrows.notifier h.notifier_eq, ?_⟩
  · cases hhandles with
    | nothing hmanager =>
      rw [hmanager]
      exact h.manager
    | message hmanager => exact managerInv_step h.manager hmanager
  · cases writersMove hstep with
    | connect =>
      intro w hw
      rcases List.mem_append.mp hw with hw | hw
      · exact hkept w hw
      · rw [List.mem_singleton.mp hw]
        trivial
    | recv => exact hkept
    | writer hw hown hmove =>
      intro w' hw'
      rcases List.mem_or_eq_of_mem_set hw' with hw' | rfl
      · exact hkept w' hw'
      · exact cursorInside_own hmove hown h.notifier_eq (h.inside _ (List.mem_of_getElem? hw))

theorem writersInv_new {s : HaveWriters} (h : HaveWriters.new torrent options = some s) :
    WritersInv torrent options s := by
  obtain ⟨manager, hmanager, rfl⟩ := Option.map_eq_some_iff.mp h
  refine ⟨managerInv_new hmanager, ?_, nofun⟩
  obtain ⟨numOfP, stats, -, rfl⟩ := manager_new_eq_some hmanager
  rfl

theorem nothing_downloaded_new {s : HaveWriters} (h : HaveWriters.new torrent options = some s) :
    s.manager.downloadedPieceIndex = [] ∧ s.manager.stats.downloaded = 0 := by
  obtain ⟨manager, hmanager, rfl⟩ := Option.map_eq_some_iff.mp h
  unfold TorrentManagerActor.new at hmanager
  simp only [Option.bind_eq_bind, Option.bind_eq_some_iff, Option.some.injEq] at hmanager
  obtain ⟨numOfP, -, totalSize, -, rfl⟩ := hmanager
  exact ⟨rfl, rfl⟩

/-! ## Runs -/

/-- INTERNAL: a piece that is sent to the disk manager was not owned and is owned then. -/
theorem sendsToDisk_claims {s t : HaveWriters} {e : WritersEvent} {r : Unit} {p : ℕ}
    (hstep : writersStep s e = some (t, r)) (hp : sendsToDisk s e = some p) :
    ¬ Owned s.manager p ∧ Owned t.manager p := by
  cases handles hstep with
  | nothing hmanager hsends =>
    rw [hsends] at hp
    cases hp
  | message hmanager hsends =>
    rw [hsends] at hp
    exact sentToDisk_claims hmanager hp

theorem sendsToDisk_of_persists {s : HaveWriters} {e : WritersEvent} {p : ℕ}
    (h : persists s e = some p) : sendsToDisk s e = some p := by
  cases e with
  | recv msg env => exact sentToDisk_of_persisted h
  | _ => cases h

/-- INTERNAL: a piece that is owned stays owned. -/
theorem owned_of_writersStep {s t : HaveWriters} {e : WritersEvent} {r : Unit} {p : ℕ}
    (hstep : writersStep s e = some (t, r)) (hp : Owned s.manager p) : Owned t.manager p := by
  cases handles hstep with
  | nothing hmanager =>
    rw [hmanager]
    exact hp
  | message hmanager => exact owned_of_step hmanager hp

/-- INTERNAL: the log is the list of the pieces that were persisted. -/
theorem log_eq_outputs {first t : HaveWriters} {es : List WritersEvent}
    (hlog : first.manager.downloadedPieceIndex = []) (hwire : ∀ e ∈ es, FromWire e)
    (hrun : run writersStep first es = some t) :
    t.manager.downloadedPieceIndex = outputs writersStep persists first es := by
  have hfold := outputs_foldl persists (fun s => s.manager.downloadedPieceIndex)
    (fun log p => log ++ [p % 2 ^ 32]) (fun _ => True) (fun _ _ _ _ _ _ => trivial)
    (fun s e t r _ hstep => by
      rw [(logGrows_handles (handles hstep)).log]
      cases persists s e <;> simp) trivial hrun
  have hsmall : ∀ p ∈ outputs writersStep persists first es, p < 2 ^ 32 := by
    apply forall_outputs
    intro e he s p hp
    have he := hwire e he
    cases e with
    | recv msg env =>
      cases msg with
      | pieceFinish q i =>
        obtain ⟨-, heq⟩ := Option.ite_none_right_eq_some.mp hp
        cases heq
        exact he
      | _ => cases hp
    | _ => cases hp
  rw [hlog] at hfold
  calc t.manager.downloadedPieceIndex
      = (outputs writersStep persists first es).foldl (fun log p => log ++ [p % 2 ^ 32]) [] := hfold
    _ = (outputs writersStep persists first es).map (· % 2 ^ 32) := by
        rw [List.foldl_append_eq_append, List.nil_append, ← List.flatMap_def, List.map_eq_flatMap]
    _ = (outputs writersStep persists first es).map id := by
        apply List.map_congr_left
        intro p hp
        exact Nat.mod_eq_of_lt (hsmall p hp)
    _ = outputs writersStep persists first es := List.map_id _

/-- INTERNAL: the log at any moment is a prefix of the log later. -/
theorem log_prefix {s t : HaveWriters} {es : List WritersEvent}
    (hrun : run writersStep s es = some t) :
    s.manager.downloadedPieceIndex <+: t.manager.downloadedPieceIndex := by
  have hstep (u : HaveWriters) (e : WritersEvent) (v : HaveWriters) (r : Unit)
      (hu : s.manager.downloadedPieceIndex <+: u.manager.downloadedPieceIndex)
      (hstep : writersStep u e = some (v, r)) :
      s.manager.downloadedPieceIndex <+: v.manager.downloadedPieceIndex := by
    rw [(logGrows_handles (handles hstep)).log]
    exact hu.trans (List.prefix_append _ _)
  exact run_invariant hstep (List.prefix_refl _) hrun

/-- INTERNAL: the statistics are the sum over the pieces that were persisted. -/
theorem downloaded_eq_outputs {first t : HaveWriters} {es : List WritersEvent}
    (hfirst : WritersInv torrent options first) (hzero : first.manager.stats.downloaded = 0)
    (hrun : run writersStep first es = some t) :
    t.manager.stats.downloaded =
      ((outputs writersStep persists first es).map (megabytes torrent.rawTorrent)).sum := by
  have hfold := outputs_foldl persists (fun s => s.manager.stats.downloaded)
    (fun sum p => sum + megabytes torrent.rawTorrent p) (WritersInv torrent options)
    (fun _ _ _ _ hs hstep => writersInv_step hs hstep)
    (fun s e t r hs hstep => by
      cases handles hstep with
      | nothing hmanager hsends hpersists =>
        rw [hpersists, hmanager]
        rfl
      | message hmanager hsends hpersists =>
        rw [hpersists]
        exact stats_downloaded_step hs.manager hmanager) hfirst hrun
  rw [hfold, hzero, List.sum_eq_foldl, List.foldl_map]

/-- INTERNAL: the manager answers a writer that asks from inside the log.
SOURCE: torrent_manager.rs:349-357 -/
theorem askProgress_isSome {s : HaveWriters} {c : ℕ} {w : WriterState} {lastSeen currentLen : ℕ}
    (hw : s.writers[c]? = some w) (hphase : w.phase = .asking lastSeen currentLen)
    (hle : lastSeen ≤ s.manager.downloadedPieceIndex.length) (env : Env) :
    (writersStep s (.writer c (.askProgress env))).isSome = true := by
  simp [writersStep, HaveWriters.writer, hw, HaveWriters.view, writerStep, HaveWriter.askProgress,
    hphase, managerStep, getHaveMessageProgress, hle]

/-- **Each piece is completed once.** In every run of the manager with any number of writers, any
messages from readers and watchdogs in any order and any outcomes of the flushes, no piece is sent
to the disk manager twice; the log is the list of the pieces whose flush succeeded, each once; the
statistics are the sum of their lengths; the log only grows, its pieces are owned, and the watch
channel has its length; and the cursor of a writer that asks for the news is inside the log, so the
slice is defined.
SOURCE: torrent_manager.rs:238-280, torrent_manager.rs:349-357,
peer_protocol_state_machine.rs:228-278, peer_protocol_state_machine.rs:349-392 -/
theorem completed_once {first : HaveWriters} (hfirst : HaveWriters.new torrent options = some first)
    {es : List WritersEvent} (hwire : ∀ e ∈ es, FromWire e) {t : HaveWriters}
    (hrun : run writersStep first es = some t) :
    CompletedOnce torrent.rawTorrent first es t := by
  have hinv := writersInv_new hfirst
  obtain ⟨hempty, hzero⟩ := nothing_downloaded_new hfirst
  have hlog := log_eq_outputs hempty hwire hrun
  have hend : WritersInv torrent options t :=
    run_invariant (fun _ _ _ _ hs hstep => writersInv_step hs hstep) hinv hrun
  have hsent := outputs_nodup sendsToDisk (fun s p => Owned s.manager p)
    (fun _ _ _ _ _ hstep hp => sendsToDisk_claims hstep hp)
    (fun _ _ _ _ _ hstep hp => owned_of_writersStep hstep hp) hrun
  have hpersisted := outputs_nodup persists (fun s p => Owned s.manager p)
    (fun _ _ _ _ _ hstep hp => sendsToDisk_claims hstep (sendsToDisk_of_persists hp))
    (fun _ _ _ _ _ hstep hp => owned_of_writersStep hstep hp) hrun
  refine ⟨hsent.1, hlog, ?_, ?_, ?_, ?_, hend.notifier_eq, ?_⟩
  · rw [hlog]
    exact hpersisted.1
  · rw [hlog]
    exact downloaded_eq_outputs hinv hzero hrun
  · rintro xs ys u rfl hu
    obtain ⟨v, hv, hrest⟩ := run_append.mp hrun
    rw [hu] at hv
    cases hv
    exact log_prefix hrest
  · intro p hp
    rw [hlog] at hp
    exact (hpersisted.2 p hp).2
  · intro c w lastSeen currentLen env hw hphase
    have hinside := hend.inside w (List.mem_of_getElem? hw)
    rw [hphase] at hinside
    exact ⟨hinside.1, askProgress_isSome hw hphase hinside.1 env⟩

/-- The manager of a torrent of two pieces, without connections. -/
def poolStart : HaveWriters :=
  (HaveWriters.new (byteTorrent 2 (List.replicate 40 0)) {}).get (by decide +kernel)

/-- Two peers work on the first piece and both report it, one of them twice. The flush of the
second piece fails. A writer asks for the news. -/
def duplicateFinishes : List WritersEvent :=
  [.connect, .writer 0 (.register "a" .quiet), .writer 0 (.sendBitfield true), .writer 0 .look,
    .recv (.addPeer "b" []) .quiet, .recv (.addBitFeild "a" [true, false]) .quiet,
    .recv (.addBitFeild "b" [true, true]) .quiet, .recv (.requestWork "a") .quiet,
    .recv (.requestWork "b") .quiet, .recv (.requestWork "b") .quiet,
    .recv (.pieceFinish "b" 0) .quiet, .recv (.pieceFinish "a" 0) .quiet, .writer 0 .wake,
    .recv (.pieceFinish "b" 0) .quiet,
    .recv (.pieceFinish "b" 1) { Env.quiet with flushed := false }, .writer 0 .readLen]

/-- The state after that. -/
def poolState : HaveWriters :=
  (run writersStep poolStart duplicateFinishes).get (by decide +kernel)

/-- The first piece is in the log once. -/
theorem completed_once_duplicates :
    poolState.manager.downloadedPieceIndex = [0] ∧
      CompletedOnce (byteTorrent 2 (List.replicate 40 0)).rawTorrent poolStart duplicateFinishes
        poolState := by
  constructor
  · decide +kernel
  · exact completed_once (Option.some_get _).symm (by decide +kernel) (Option.some_get _).symm

end Fissure.Analysis
