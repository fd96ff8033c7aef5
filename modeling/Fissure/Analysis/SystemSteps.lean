import Fissure.Analysis.DiskSteps
import Fissure.Analysis.Ownership
import Fissure.Analysis.PieceManagerSteps
import Fissure.Model.TorrentSystem

/-!
# What one step of the system does

One lemma for each kind of event says everything the event can do. Later modules reason from these
and do not unfold `systemStep`. Of the manager a step sees nothing, one message, or one of the two
halves of `PieceFinish` (`manager_of_systemStep`).
-/

set_option autoImplicit false

namespace Fissure.Analysis

open Fissure.Library Fissure.Model
open Fissure.Model.TorrentSystem

variable {sha1 : Bytes → Bytes} {s t : TorrentSystem} {c : ℕ} {env : Env}

theorem system_new_eq_some {torrent : ClientTorrentMetaInfo} {options : PeerOptions}
    {fileSystem : FileSystem} {downloadPath : PathBuf}
    (h : TorrentSystem.new torrent options fileSystem downloadPath = some s) :
    ∃ manager disk diskEnded, TorrentManagerActor.new torrent options = some manager ∧
      (diskEnded = false → DiskManagerActor.new fileSystem downloadPath torrent.files
        torrent.rawTorrent.getStandardPieceLen = some disk) ∧
      s = ⟨manager, [], disk, diskEnded, none, [], []⟩ := by
  unfold TorrentSystem.new startDisk at h
  simp only [Option.bind_eq_bind, Option.bind_eq_some_iff, Option.some.injEq] at h
  obtain ⟨manager, hmanager, rfl⟩ := h
  refine ⟨manager, _, _, hmanager, ?_, rfl⟩
  cases DiskManagerActor.new fileSystem downloadPath torrent.files
    torrent.rawTorrent.getStandardPieceLen with
  | some disk =>
    intro _
    rfl
  | none =>
    intro h
    cases h

/-! ## Messages to the manager -/

theorem handle_eq_some {msg : TorrentManagerMessage} {reply : TorrentManagerReply}
    (h : s.handle msg env = some (t, reply)) :
    s.finishing = none ∧ ∃ manager,
      managerStep s.manager (msg, { env with fresh := s.pieceActors.length }) =
        some (manager, reply) ∧
      t = { s with manager := manager, pieceActors := s.spawned reply } := by
  unfold handle at h
  split_ifs at h with hidle
  simp only [Option.bind_eq_bind, Option.bind_eq_some_iff, Option.some.injEq, Prod.mk.injEq] at h
  obtain ⟨⟨manager, reply⟩, hstep, rfl, rfl⟩ := h
  exact ⟨Option.not_isSome_iff_eq_none.mp hidle, manager, hstep, rfl⟩

theorem recv_eq_some {msg : TorrentManagerMessage} (h : s.recv msg env = some t) :
    finishes msg = none ∧ ∃ reply, s.handle msg env = some (t, reply) := by
  cases msg with
  | pieceFinish q p => cases h
  | getDataWithLength pieceIndex offset length => cases h
  | _ =>
    obtain ⟨⟨u, reply⟩, hu, rfl⟩ := Option.map_eq_some_iff.mp h
    exact ⟨rfl, reply, hu⟩

/-- INTERNAL: a read changes nothing but that the disk actor may return after it.
SOURCE: torrent_manager.rs:336-344, disk_manager.rs:145-162 -/
theorem getDataWithLength_event_eq_some {pieceIndex offset length : ℕ} {io : ℕ → IoOutcome}
    (h : (s.getDataWithLength pieceIndex offset length io env).map Prod.fst = some t) :
    ∃ env' u reply ended, s.handle (.getDataWithLength pieceIndex offset length) env' =
        some (u, reply) ∧ (u.diskEnded = true → ended = true) ∧
      t = { u with diskEnded := ended } := by
  obtain ⟨⟨t, reply⟩, hread, rfl⟩ := Option.map_eq_some_iff.mp h
  unfold TorrentSystem.getDataWithLength at hread
  simp only [Option.bind_eq_bind, Option.bind_eq_some_iff] at hread
  obtain ⟨⟨u, reply'⟩, hu, hread⟩ := hread
  split at hread
  · cases hread
    exact ⟨_, u, _, true, hu, fun _ => rfl, rfl⟩
  · cases hread
    exact ⟨_, u, _, u.diskEnded, hu, id, rfl⟩

theorem connect_eq_some {peerId : String} (h : s.connect peerId env = some t) :
    ∃ u reply, s.handle (.addPeer peerId []) env = some (u, reply) ∧
      t = { u with connections := u.connections ++ [Connection.new peerId] } := by
  unfold connect at h
  simp only [Option.bind_eq_bind, Option.bind_eq_some_iff, Option.some.injEq] at h
  obtain ⟨⟨u, reply⟩, hu, rfl⟩ := h
  exact ⟨u, reply, hu, rfl⟩

/-! ## The writer and the watchdog -/

theorem requestPiece_eq_some (h : s.requestPiece c env = some t) :
    ∃ conn u reply, s.connections[c]? = some conn ∧ conn.granted = none ∧
      s.handle (.requestWork conn.peerId) env = some (u, reply) ∧
      ((∃ req, reply = .work (some req) ∧
          t = u.setConnection c { conn with granted := some req }) ∨
        t = u) := by
  unfold requestPiece at h
  simp only [Option.bind_eq_bind, Option.bind_eq_some_iff] at h
  obtain ⟨conn, hconn, h⟩ := h
  split_ifs at h with hfree
  simp only [Option.bind_eq_some_iff] at h
  obtain ⟨⟨u, reply⟩, hu, h⟩ := h
  refine ⟨conn, u, reply, hconn, Option.not_isSome_iff_eq_none.mp hfree, hu, ?_⟩
  split at h
  · next req heq =>
    cases heq
    cases h
    exact Or.inl ⟨req, rfl, rfl⟩
  · cases h
    exact Or.inr rfl

theorem insertRequest_eq_some (h : s.insertRequest c = some t) :
    ∃ conn req, s.connections[c]? = some conn ∧ conn.granted = some req ∧
      t = s.setConnection c { conn with
        activeRequests := conn.activeRequests.insert req.index req
        granted := none } := by
  unfold insertRequest at h
  simp only [Option.bind_eq_bind, Option.bind_eq_some_iff, Option.some.injEq] at h
  obtain ⟨conn, hconn, req, hreq, rfl⟩ := h
  exact ⟨conn, req, hconn, hreq, rfl⟩

theorem countActive_eq_some (h : s.countActive c env = some t) :
    ∃ conn u reply, s.connections[c]? = some conn ∧ conn.stillActiveRequests = none ∧
      s.handle (.updateAndGetActiveRequestCount conn.peerId) env = some (u, reply) ∧
      ((∃ work, reply = .activeWork work ∧
          t = u.setConnection c { conn with stillActiveRequests := work }) ∨
        t = u) := by
  unfold countActive at h
  simp only [Option.bind_eq_bind, Option.bind_eq_some_iff] at h
  obtain ⟨conn, hconn, h⟩ := h
  split_ifs at h with hfree
  simp only [Option.bind_eq_some_iff] at h
  obtain ⟨⟨u, reply⟩, hu, h⟩ := h
  refine ⟨conn, u, reply, hconn, Option.not_isSome_iff_eq_none.mp hfree, hu, ?_⟩
  split at h
  · next work heq =>
    cases heq
    cases h
    exact Or.inl ⟨work, rfl, rfl⟩
  · cases h
    exact Or.inr rfl

theorem prune_eq_some (h : s.prune c = some t) :
    ∃ conn stillActive, s.connections[c]? = some conn ∧
      conn.stillActiveRequests = some stillActive ∧
      t = s.setConnection c { conn with
        activeRequests := conn.activeRequests.filterMapVals fun k req =>
          if stillActive.any fun w => w.1 == k then some req else none
        stillActiveRequests := none } := by
  unfold prune at h
  simp only [Option.bind_eq_bind, Option.bind_eq_some_iff, Option.some.injEq] at h
  obtain ⟨conn, hconn, stillActive, hactive, rfl⟩ := h
  exact ⟨conn, stillActive, hconn, hactive, rfl⟩

/-! ## The reader -/

theorem piece_eq_some {p blockOffset : ℕ} {data : Bytes}
    (h : s.piece c p blockOffset data = some t) :
    ∃ conn, s.connections[c]? = some conn ∧ conn.reader = .idle ∧
      ((∃ mgr, conn.activeRequests.lookup p = some mgr ∧
          t = s.setConnection c { conn with reader := .sending mgr p blockOffset data true }) ∨
        conn.activeRequests.lookup p = none ∧
          t = s.setConnection c { conn with reader := .asking p blockOffset data }) := by
  unfold piece at h
  simp only [Option.bind_eq_bind, Option.bind_eq_some_iff] at h
  obtain ⟨conn, hconn, h⟩ := h
  split at h
  · next hreader =>
    refine ⟨conn, hconn, hreader, ?_⟩
    cases hmgr : conn.activeRequests.lookup p with
    | some mgr =>
      rw [hmgr] at h
      cases h
      exact Or.inl ⟨mgr, rfl, rfl⟩
    | none =>
      rw [hmgr] at h
      cases h
      exact Or.inr ⟨rfl, rfl⟩
  · cases h

/-- INTERNAL: a reader that asks for the manager of a piece goes on with the active one.
SOURCE: torrent_manager.rs:345-350, peer_protocol_state_machine.rs:367-391 -/
theorem getPieceManager_eq_some (h : s.getPieceManager c env = some t) :
    ∃ conn p blockOffset data u reply, s.connections[c]? = some conn ∧
      conn.reader = .asking p blockOffset data ∧
      s.handle (.getPieceManager p) env = some (u, reply) ∧
      ((∃ mgr, s.manager.activePiecesManager.lookup p = some mgr ∧
          t = u.setConnection c { conn with reader := .sending mgr p blockOffset data false }) ∨
        s.manager.activePiecesManager.lookup p = none ∧
          t = u.setConnection c { conn with reader := .idle }) := by
  unfold getPieceManager at h
  simp only [Option.bind_eq_bind, Option.bind_eq_some_iff] at h
  obtain ⟨conn, hconn, h⟩ := h
  split at h
  · next p blockOffset data hreader =>
    simp only [Option.bind_eq_some_iff, Option.some.injEq] at h
    obtain ⟨⟨u, reply⟩, hu, rfl⟩ := h
    refine ⟨conn, p, blockOffset, data, u, reply, hconn, hreader, hu, ?_⟩
    obtain ⟨-, manager, hstep, -⟩ := handle_eq_some hu
    cases hstep
    cases hmgr : s.manager.activePiecesManager.lookup p with
    | some mgr => exact Or.inl ⟨mgr, rfl, rfl⟩
    | none => exact Or.inr ⟨rfl, rfl⟩
  · cases h

theorem blockRecived_event_eq_some (h : s.blockRecived sha1 c = some t) :
    ∃ conn mgr p blockOffset data tracked, s.connections[c]? = some conn ∧
      conn.reader = .sending mgr p blockOffset data tracked ∧
      ((∃ a slot reader, s.pieceActor mgr.send = some a ∧
          afterBlock sha1 a p blockOffset data tracked = (slot, reader) ∧
          t = { s with pieceActors := s.pieceActors.set mgr.send slot }.setConnection c
            { conn with reader := reader }) ∨
        s.pieceActor mgr.send = none ∧ t = s.setConnection c { conn with reader := .idle }) := by
  unfold blockRecived at h
  simp only [Option.bind_eq_bind, Option.bind_eq_some_iff] at h
  obtain ⟨conn, hconn, h⟩ := h
  split at h
  · next mgr p blockOffset data tracked hreader =>
    refine ⟨conn, mgr, p, blockOffset, data, tracked, hconn, hreader, ?_⟩
    cases ha : s.pieceActor mgr.send with
    | some a =>
      rw [ha] at h
      cases h
      exact Or.inl ⟨a, _, _, rfl, rfl, rfl⟩
    | none =>
      rw [ha] at h
      cases h
      exact Or.inr ⟨rfl, rfl⟩
  · cases h

theorem pieceFinish_event_eq_some (h : s.pieceFinish c = some t) :
    ∃ conn p tracked, s.connections[c]? = some conn ∧ conn.reader = .hashMatched p tracked ∧
      t = { s with pieceFinishes := s.pieceFinishes ++ [(conn.peerId, p)] }.setConnection c
        { conn with reader := if tracked then .finished p else .idle } := by
  unfold pieceFinish at h
  simp only [Option.bind_eq_bind, Option.bind_eq_some_iff] at h
  obtain ⟨conn, hconn, h⟩ := h
  split at h
  · next p tracked hreader =>
    cases h
    exact ⟨conn, p, tracked, hconn, hreader, rfl⟩
  · cases h

theorem removeRequest_eq_some (h : s.removeRequest c = some t) :
    ∃ conn p, s.connections[c]? = some conn ∧ conn.reader = .finished p ∧
      t = s.setConnection c { conn with
        activeRequests := conn.activeRequests.erase p
        reader := .idle } := by
  unfold removeRequest at h
  simp only [Option.bind_eq_bind, Option.bind_eq_some_iff] at h
  obtain ⟨conn, hconn, h⟩ := h
  split at h
  · next p hreader =>
    cases h
    exact ⟨conn, p, hconn, hreader, rfl⟩
  · cases h

/-! ## The piece actors -/

theorem pieceEvent_eq_some {send : ℕ} {e : PieceEvent} (h : s.pieceEvent sha1 send e = some t) :
    (∀ blockOffset data clock, e ≠ .recv (.blockRecived blockOffset data) clock) ∧
      ∃ a b r, s.pieceActor send = some a ∧ pieceStep sha1 a e = some (b, r) ∧
        t = { s with pieceActors := s.pieceActors.set send (some b) } := by
  unfold pieceEvent at h
  split at h
  · cases h
  · next hother =>
    simp only [Option.bind_eq_bind, Option.bind_eq_some_iff, Option.some.injEq] at h
    obtain ⟨a, ha, ⟨b, r⟩, hb, rfl⟩ := h
    exact ⟨hother, a, b, r, ha, hb, rfl⟩

/-- INTERNAL: a message other than a block leaves the digest and the buffer alone.
SOURCE: piece_manager.rs:72-97, piece_manager.rs:137-194 -/
theorem data_of_pieceStep {a b : PieceRequestManagerActor} {e : PieceEvent} {r : PieceReply}
    (he : ∀ blockOffset data clock, e ≠ .recv (.blockRecived blockOffset data) clock)
    (h : pieceStep sha1 a e = some (b, r)) : b.hash = a.hash ∧ b.data = a.data := by
  cases effect_of_pieceStep h with
  | tick now => exact ⟨rfl, rfl⟩
  | getData start stop clock => exact ⟨rfl, rfl⟩
  | getDataWithLen start len clock => exact ⟨rfl, rfl⟩
  | blocksToRequest out => exact ⟨out.hash, out.data⟩
  | blockRecived inside effect => exact absurd rfl (he _ _ _)

/-- INTERNAL: everything that the arrival of a block at a live piece actor can do.
SOURCE: piece_manager.rs:98-136, piece_manager.rs:264-271 -/
theorem afterBlock_cases (sha1 : Bytes → Bytes) (a : PieceRequestManagerActor)
    (p blockOffset : ℕ) (data : Bytes) (tracked : Bool) :
    (∃ b reader, afterBlock sha1 a p blockOffset data tracked = (some b, reader) ∧
      b.hash = a.hash ∧
      b.data = PieceRequestManagerActor.storedData a.data (blockOffset / 16384) data ∧
      (reader = .idle ∨ reader = .hashMatched p tracked ∧ sha1 b.data = b.hash)) ∨
    ¬ blockOffset / 16384 < noOfBlocks a.data.length ∧
      afterBlock sha1 a p blockOffset data tracked = (none, .idle) := by
  unfold afterBlock
  cases hblock : a.blockRecived sha1 blockOffset data with
  | none =>
    right
    refine ⟨fun hlt => ?_, rfl⟩
    obtain ⟨b, outcome, hsome⟩ := blockRecived_isSome sha1 data hlt
    rw [hblock] at hsome
    cases hsome
  | some result =>
    obtain ⟨b, outcome⟩ := result
    obtain ⟨-, heffect⟩ := blockRecived_eq_some hblock
    obtain ⟨hdata, hhash⟩ := heffect.data_eq
    left
    cases outcome with
    | pending | reset => exact ⟨b, .idle, rfl, hhash, hdata, Or.inl rfl⟩
    | verified => exact ⟨b, _, rfl, hhash, hdata, Or.inr ⟨rfl, heffect.2.2⟩⟩

/-! ## Finishing a piece -/

theorem pieceFinishBegin_event_eq_some {k : ℕ} (h : s.pieceFinishBegin k = some t) :
    s.finishing = none ∧ ∃ q p manager last, s.pieceFinishes[k]? = some (q, p) ∧
      s.manager.pieceFinishBegin p = some (manager, last) ∧
      t = { s with
        manager := manager
        pieceFinishes := s.pieceFinishes.eraseIdx k
        finishing := last.map fun mgr => ⟨p, .begin mgr, none⟩ } := by
  unfold TorrentSystem.pieceFinishBegin at h
  split_ifs at h with hidle
  simp only [Option.bind_eq_bind, Option.bind_eq_some_iff, Option.some.injEq] at h
  obtain ⟨⟨q, p⟩, hk, ⟨manager, last⟩, hbegin, rfl⟩ := h
  exact ⟨Option.not_isSome_iff_eq_none.mp hidle, q, p, manager, last, hk, hbegin, rfl⟩

/-- INTERNAL: everything that a round of the flush can do: the disk actor has returned, or the loop
goes on, or it has ended, or the disk actor returns after an error.
SOURCE: disk_manager.rs:66-111, disk_manager.rs:204-217 -/
theorem flushRound_event_eq_some {io : IoOutcome} (h : s.flushRound io = some t) :
    ∃ p job, s.finishing = some ⟨p, job, none⟩ ∧
      ((s.diskEnded = true ∧ t = { s with finishing := some ⟨p, job, some false⟩ }) ∨
        s.diskEnded = false ∧
        ((∃ disk next, s.disk.flushRound job (s.getDataWithOffset job.pieceManager) io =
            .next (disk, next) ∧
            t = { s with disk := disk, finishing := some ⟨p, next, none⟩ }) ∨
          (∃ r, s.disk.flushRound job (s.getDataWithOffset job.pieceManager) io = .reply r ∧
            t = { s with finishing := some ⟨p, job, some r⟩ }) ∨
          ∃ disk next, s.disk.flushRound job (s.getDataWithOffset job.pieceManager) io =
            .failed (disk, next) ∧
            t = { s with
              disk := disk
              diskEnded := true
              finishing := some ⟨p, next, some false⟩ })) := by
  unfold TorrentSystem.flushRound at h
  split at h
  · next p job hf =>
    refine ⟨p, job, hf, ?_⟩
    split_ifs at h with hended
    · cases h
      exact Or.inl ⟨hended, rfl⟩
    · refine Or.inr ⟨Bool.eq_false_iff.mpr hended, ?_⟩
      split at h
      · next disk next hround =>
        cases h
        exact Or.inl ⟨disk, next, hround, rfl⟩
      · next r hround =>
        cases h
        exact Or.inr (Or.inl ⟨r, hround, rfl⟩)
      · next disk next hround =>
        cases h
        exact Or.inr (Or.inr ⟨disk, next, hround, rfl⟩)
  · cases h

/-- INTERNAL: a round of the flush is for the same piece, and tells of a failure exactly when the
disk actor has returned.
SOURCE: disk_manager.rs:66-112, disk_manager.rs:204-217 -/
theorem flushRound_event_moves {io : IoOutcome} (h : s.flushRound io = some t) :
    ∃ p job disk ended job' result, s.finishing = some ⟨p, job, none⟩ ∧
      job'.pieceManager = job.pieceManager ∧ (s.diskEnded = true → ended = true) ∧
      (∀ r, result = some r → ended = !r) ∧
      t = { s with
        disk := disk
        diskEnded := ended
        finishing := some ⟨p, job', result⟩ } := by
  obtain ⟨p, job, hf, ⟨hended, rfl⟩ | ⟨hruns, ⟨disk, next, hround, rfl⟩ | ⟨r, hround, rfl⟩ |
    ⟨disk, next, hround, rfl⟩⟩⟩ := flushRound_event_eq_some h
  · exact ⟨p, job, s.disk, s.diskEnded, job, _, hf, rfl, id, by rintro _ ⟨⟩; exact hended, rfl⟩
  · obtain ⟨-, -, hmgr, -⟩ := next_of_flushRound hround
    exact ⟨p, job, disk, s.diskEnded, next, none, hf, hmgr, id, nofun, rfl⟩
  · obtain ⟨-, rfl⟩ := reply_of_flushRound hround
    exact ⟨p, job, s.disk, s.diskEnded, job, _, hf, rfl, id, by rintro _ ⟨⟩; exact hruns, rfl⟩
  · rw [failed_of_flushRound hround]
    exact ⟨p, job, disk, true, job, _, hf, rfl, fun _ => rfl, by rintro _ ⟨⟩; rfl, rfl⟩

theorem pieceFinishEnd_event_eq_some (h : s.pieceFinishEnd = some t) :
    ∃ p job flushResult, s.finishing = some ⟨p, job, some flushResult⟩ ∧
      t = { s with
        manager := s.manager.pieceFinishEnd p job.pieceManager.pieceLength flushResult
        finishing := none } := by
  unfold TorrentSystem.pieceFinishEnd at h
  split at h
  · next p job flushResult hf =>
    cases h
    exact ⟨p, job, flushResult, hf, rfl⟩
  · cases h

/-! ## The manager in a step -/

/-- What becomes of the manager in a step of the system. -/
inductive ManagerMove (s t : TorrentSystem) : Prop
  | stays (h : t.manager = s.manager)
  | handles (msg : TorrentManagerMessage) (env : Env) (reply : TorrentManagerReply)
      (hmsg : finishes msg = none)
      (h : managerStep s.manager (msg, env) = some (t.manager, reply))
  | begins (p : ℕ) (last : Option PieceRequestManager)
      (h : s.manager.pieceFinishBegin p = some (t.manager, last))
  | ends (p : ℕ) (job : FlushJob) (flushResult : Bool)
      (hf : s.finishing = some ⟨p, job, some flushResult⟩) (hdisk : t.disk = s.disk)
      (h : t.manager = s.manager.pieceFinishEnd p job.pieceManager.pieceLength flushResult)

/-- INTERNAL: a step of the system is no step of the manager or one of its steps. -/
theorem manager_of_systemStep {e : SystemEvent} {r : Unit}
    (h : systemStep sha1 s e = some (t, r)) : ManagerMove s t := by
  have hhandle {u : TorrentSystem} {msg : TorrentManagerMessage} {env : Env}
      {reply : TorrentManagerReply} (hmsg : finishes msg = none)
      (hu : s.handle msg env = some (u, reply)) (ht : t.manager = u.manager) :
      ManagerMove s t := by
    obtain ⟨-, manager, hstep, rfl⟩ := handle_eq_some hu
    exact .handles msg _ reply hmsg (by rw [ht]; exact hstep)
  obtain ⟨t', ht, heq⟩ := Option.map_eq_some_iff.mp h
  cases heq
  cases e with
  | connect peerId env =>
    obtain ⟨u, reply, hu, rfl⟩ := connect_eq_some ht
    exact hhandle rfl hu rfl
  | recv msg env =>
    obtain ⟨hmsg, reply, hu⟩ := recv_eq_some ht
    exact hhandle hmsg hu rfl
  | getDataWithLength pieceIndex offset length io env =>
    obtain ⟨env', u, reply, ended, hu, -, rfl⟩ := getDataWithLength_event_eq_some ht
    exact hhandle rfl hu rfl
  | requestPiece c env =>
    obtain ⟨conn, u, reply, -, -, hu, ⟨req, -, rfl⟩ | rfl⟩ := requestPiece_eq_some ht
    · exact hhandle rfl hu rfl
    · exact hhandle rfl hu rfl
  | insertRequest c =>
    obtain ⟨conn, req, -, -, rfl⟩ := insertRequest_eq_some ht
    exact .stays rfl
  | countActive c env =>
    obtain ⟨conn, u, reply, -, -, hu, ⟨work, -, rfl⟩ | rfl⟩ := countActive_eq_some ht
    · exact hhandle rfl hu rfl
    · exact hhandle rfl hu rfl
  | prune c =>
    obtain ⟨conn, stillActive, -, -, rfl⟩ := prune_eq_some ht
    exact .stays rfl
  | piece c p blockOffset data =>
    obtain ⟨conn, -, -, ⟨mgr, -, rfl⟩ | ⟨-, rfl⟩⟩ := piece_eq_some ht
    · exact .stays rfl
    · exact .stays rfl
  | getPieceManager c env =>
    obtain ⟨conn, p, blockOffset, data, u, reply, -, -, hu, ⟨mgr, -, rfl⟩ | ⟨-, rfl⟩⟩ :=
      getPieceManager_eq_some ht
    · exact hhandle rfl hu rfl
    · exact hhandle rfl hu rfl
  | blockRecived c =>
    obtain ⟨conn, mgr, p, blockOffset, data, tracked, -, -, ⟨a, slot, reader, -, -, rfl⟩ |
      ⟨-, rfl⟩⟩ := blockRecived_event_eq_some ht
    · exact .stays rfl
    · exact .stays rfl
  | pieceFinish c =>
    obtain ⟨conn, p, tracked, -, -, rfl⟩ := pieceFinish_event_eq_some ht
    exact .stays rfl
  | removeRequest c =>
    obtain ⟨conn, p, -, -, rfl⟩ := removeRequest_eq_some ht
    exact .stays rfl
  | pieceActor send e =>
    obtain ⟨-, a, b, r, -, -, rfl⟩ := pieceEvent_eq_some ht
    exact .stays rfl
  | pieceFinishBegin k =>
    obtain ⟨-, q, p, manager, last, -, hbegin, rfl⟩ := pieceFinishBegin_event_eq_some ht
    exact .begins p last hbegin
  | flushRound io =>
    obtain ⟨p, job, -, ⟨-, rfl⟩ | ⟨-, ⟨disk, next, -, rfl⟩ | ⟨r, -, rfl⟩ | ⟨disk, next, -, rfl⟩⟩⟩ :=
      flushRound_event_eq_some ht
    · exact .stays rfl
    · exact .stays rfl
    · exact .stays rfl
    · exact .stays rfl
  | pieceFinishEnd =>
    obtain ⟨p, job, flushResult, hf, rfl⟩ := pieceFinishEnd_event_eq_some ht
    exact .ends p job flushResult hf rfl rfl

end Fissure.Analysis
