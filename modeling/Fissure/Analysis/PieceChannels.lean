import Fissure.Analysis.OneBuffer

/-!
# Each channel belongs to one piece

The manager of a piece is the sender of a channel whose other end is a piece actor, and every new
manager gets a new channel. So a channel determines the piece of whoever holds it, wherever the
manager is held (`Channels`): in the active managers, by a connection or by the flush in progress.
-/

set_option autoImplicit false

namespace Fissure.Analysis

open Fissure.Library Fissure.Model
open Fissure.Model.TorrentSystem

variable {sha1 : Bytes → Bytes} {torrent : ClientTorrentMetaInfo} {options : PeerOptions}
  {owner : ℕ → ℕ} {s t : TorrentSystem}

/-- Every manager that is held sends to a piece actor of its piece. -/
def Channels (owner : ℕ → ℕ) (s : TorrentSystem) : Prop :=
  ∀ p mgr, Held s p mgr → owner mgr.send = p ∧ mgr.send < s.pieceActors.length

/-- Everything that is held in `t` was held before, or is the manager `new`, whose actor was
spawned. -/
structure HoldsMore (s t : TorrentSystem) (new : Option PieceRequestManager) : Prop where
  held : ∀ p mgr, Held t p mgr → Held s p mgr ∨ new = some mgr ∧ mgr.index = p
  spawned : ∀ mgr, new = some mgr → mgr.send = s.pieceActors.length ∧
    t.pieceActors.length = s.pieceActors.length + 1
  length_le : s.pieceActors.length ≤ t.pieceActors.length

theorem HoldsMore.ofHeld (hheld : ∀ p mgr, Held t p mgr → Held s p mgr)
    (hlength : s.pieceActors.length ≤ t.pieceActors.length) : HoldsMore s t none := by
  refine ⟨fun p mgr hmgr => Or.inl (hheld p mgr hmgr), ?_, hlength⟩
  rintro mgr ⟨⟩

/-- INTERNAL: a new manager gets a new channel. -/
theorem Channels.of_holdsMore {new : Option PieceRequestManager} (h : Channels owner s)
    (hmore : HoldsMore s t new) : ∃ owner', Channels owner' t := by
  have hlength := hmore.length_le
  cases new with
  | none =>
    refine ⟨owner, fun p mgr hmgr => ?_⟩
    obtain ⟨hp, hlt⟩ := h p mgr ((hmore.held p mgr hmgr).resolve_right (by simp))
    exact ⟨hp, by omega⟩
  | some new =>
    obtain ⟨hsend, hgrows⟩ := hmore.spawned new rfl
    refine ⟨Function.update owner new.send new.index, fun p mgr hmgr => ?_⟩
    rcases hmore.held p mgr hmgr with hold | ⟨hnew, hindex⟩
    · obtain ⟨hp, hlt⟩ := h p mgr hold
      rw [Function.update_of_ne (by omega)]
      exact ⟨hp, by omega⟩
    · cases hnew
      rw [Function.update_self]
      exact ⟨hindex, by omega⟩

/-! ## What a step lets hold -/

theorem HoldsMore.refl (s : TorrentSystem) : HoldsMore s s none :=
  .ofHeld (fun _ _ h => h) le_rfl

theorem held_of_refers {conn : Connection} {c p : ℕ} {mgr : PieceRequestManager}
    (hc : s.connections[c]? = some conn) (h : Refers conn p mgr) : Held s p mgr :=
  .connection (List.mem_of_getElem? hc) h

/-- INTERNAL: a connection may go on to refer to whatever is held. -/
theorem HoldsMore.setConnection {new : Option PieceRequestManager} (h : HoldsMore s t new) (c : ℕ)
    {conn : Connection} (hrefers : ∀ p mgr, Refers conn p mgr → Held t p mgr) :
    HoldsMore s (t.setConnection c conn) new where
  held p mgr hmgr := by
    apply h.held
    cases hmgr with
    | active hmgr => exact .active hmgr
    | finishing hf => exact .finishing hf
    | connection hconn hmgr =>
      rcases List.mem_or_eq_of_mem_set hconn with hconn | rfl
      · exact .connection hconn hmgr
      · exact hrefers p mgr hmgr
  spawned := h.spawned
  length_le := h.length_le

/-- INTERNAL: a connection goes on referring to what it referred to. -/
theorem HoldsMore.own {c : ℕ} {conn : Connection}
    (hrefers : ∀ p mgr, Refers conn p mgr → Held s p mgr) :
    HoldsMore s (s.setConnection c conn) none :=
  (HoldsMore.refl s).setConnection c hrefers

theorem Held.setPieceActors {p : ℕ} {mgr : PieceRequestManager} (h : Held s p mgr)
    (actors : List (Option PieceRequestManagerActor)) :
    Held { s with pieceActors := actors } p mgr := by
  cases h with
  | active hmgr => exact .active hmgr
  | connection hconn hmgr => exact .connection hconn hmgr
  | finishing hf => exact .finishing hf

/-- INTERNAL: what happens in a piece actor lets nothing more hold. -/
theorem HoldsMore.setPieceActors (actors : List (Option PieceRequestManagerActor))
    (hlength : actors.length = s.pieceActors.length) :
    HoldsMore s { s with pieceActors := actors } none :=
  .ofHeld (fun _ _ h => h.setPieceActors s.pieceActors) hlength.ge

/-- INTERNAL: after a block the reader is idle or has a piece to announce.
SOURCE: peer_protocol_state_machine.rs:350-393 -/
theorem reader_afterBlock {a : PieceRequestManagerActor} {p off : ℕ} {data : Bytes} {tracked : Bool}
    {slot : Option PieceRequestManagerActor} {reader : Reader}
    (h : afterBlock sha1 a p off data tracked = (slot, reader)) :
    reader = .idle ∨ reader = .hashMatched p tracked := by
  unfold afterBlock at h
  split at h <;> cases h
  · exact Or.inr rfl
  · exact Or.inl rfl
  · exact Or.inl rfl

/-- INTERNAL: the manager lets hold what it hands out; an active manager stays one.
SOURCE: torrent_manager.rs:197-206 -/
theorem holdsMore_handle {msg : TorrentManagerMessage} {env : Env} {reply : TorrentManagerReply}
    (hs : ManagerInv torrent options s.manager) (h : Channels owner s)
    (hmsg : finishes msg = none) (ht : s.handle msg env = some (t, reply)) :
    ∃ new, HoldsMore s t new ∧ t.connections = s.connections ∧
      (∀ p mgr, s.manager.activePiecesManager.lookup p = some mgr → Held t p mgr) ∧
      ∀ mgr, reply = .work (some mgr) → Held t mgr.index mgr := by
  obtain ⟨hidle, m, hstep, rfl⟩ := handle_eq_some ht
  have hactive := active_of_not_pieceFinish hstep hmsg
  have hkept (p : ℕ) (mgr : PieceRequestManager)
      (hmgr : s.manager.activePiecesManager.lookup p = some mgr) :
      Held { s with manager := m, pieceActors := s.spawned reply } p mgr :=
    .active (hactive.lookup hmgr)
  rcases hactive with ⟨hsame, hreply⟩ | ⟨p, mgr, rfl, -, hof, hinsert⟩
  · -- nothing is handed out
    have hspawned : s.spawned reply = s.pieceActors := by
      unfold TorrentSystem.spawned
      split
      · exact absurd rfl (hreply _)
      · rfl
    refine ⟨none, .ofHeld ?_ (by simp [hspawned]), rfl, hkept,
      fun mgr hmgr => absurd hmgr (hreply mgr)⟩
    intro p mgr hmgr
    cases hmgr with
    | active hmgr => exact .active (by rwa [← hsame])
    | connection hconn hmgr => exact .connection hconn hmgr
    | finishing hf => exact .finishing hf
  · have hindex := (hs.managesPiece hof).index_eq
    have hheld : Held { s with manager := m, pieceActors := s.spawned (.work (some mgr)) }
        mgr.index mgr := by
      rw [hindex]
      exact .active (by rw [hinsert, Finmap.lookup_insert])
    have hmore (p' : ℕ) (mgr' : PieceRequestManager)
        (hmgr : Held { s with manager := m, pieceActors := s.spawned (.work (some mgr)) } p' mgr') :
        Held s p' mgr' ∨ p' = p ∧ mgr' = mgr := by
      cases hmgr with
      | active hmgr =>
        dsimp only at hmgr
        rw [hinsert, HashMap.lookup_insert_eq] at hmgr
        split_ifs at hmgr with hp
        · exact Or.inr ⟨hp, (Option.some.inj hmgr).symm⟩
        · exact Or.inl (.active hmgr)
      | connection hconn hmgr => exact Or.inl (.connection hconn hmgr)
      | finishing hf => exact Or.inl (.finishing hf)
    unfold ManagerOf at hof
    cases hold : s.manager.activePiecesManager.lookup p with
    | some active =>
      rw [hold] at hof
      subst hof
      have hlt := (h p mgr (.active hold)).2
      have hspawned : s.spawned (.work (some mgr)) = s.pieceActors := by
        simp only [TorrentSystem.spawned]
        rw [if_neg (by omega)]
      refine ⟨none, .ofHeld (fun p' mgr' hmgr => ?_) (by simp [hspawned]), rfl, hkept, ?_⟩
      · rcases hmore p' mgr' hmgr with hmgr | ⟨rfl, rfl⟩
        · exact hmgr
        · exact .active hold
      · rintro _ ⟨⟩
        exact hheld
    | none =>
      rw [hold] at hof
      obtain ⟨sha1Hash, pieceLength, -, -, rfl⟩ := hof
      refine ⟨some ⟨p, sha1Hash, pieceLength, s.pieceActors.length⟩,
        ⟨fun p' mgr' hmgr => ?_, ?_, ?_⟩, rfl, hkept, ?_⟩
      · exact (hmore p' mgr' hmgr).imp_right fun hnew => ⟨by rw [hnew.2], by rw [hnew.2, hnew.1]⟩
      · rintro _ ⟨⟩
        exact ⟨rfl, by simp [TorrentSystem.spawned]⟩
      · simp [TorrentSystem.spawned]
      · rintro _ ⟨⟩
        exact hheld

/-- INTERNAL: a new connection refers to nothing. -/
theorem holdsMore_connect (hs : ManagerInv torrent options s.manager) (h : Channels owner s)
    {peerId : String} {env : Env} (ht : s.connect peerId env = some t) :
    ∃ new, HoldsMore s t new := by
  obtain ⟨v, reply, hv, rfl⟩ := connect_eq_some ht
  obtain ⟨new, hmore, -⟩ := holdsMore_handle hs h rfl hv
  refine ⟨new, fun p mgr hmgr => hmore.held p mgr ?_, hmore.spawned, hmore.length_le⟩
  cases hmgr with
  | active hmgr => exact .active hmgr
  | finishing hf => exact .finishing hf
  | connection hconn hmgr =>
    rcases List.mem_append.mp hconn with hconn | hconn
    · exact .connection hconn hmgr
    · rw [List.mem_singleton.mp hconn] at hmgr
      cases hmgr with
      | request hmgr => simp [Connection.new] at hmgr
      | granted hmgr => simp [Connection.new] at hmgr
      | sending hmgr => simp [Connection.new] at hmgr

/-- INTERNAL: the writer holds what the manager grants it. -/
theorem holdsMore_requestPiece (hs : ManagerInv torrent options s.manager) (h : Channels owner s)
    {c : ℕ} {env : Env} (ht : s.requestPiece c env = some t) : ∃ new, HoldsMore s t new := by
  obtain ⟨conn, v, reply, hc, -, hv, hthen⟩ := requestPiece_eq_some ht
  obtain ⟨new, hmore, hconns, -, hreply⟩ := holdsMore_handle hs h rfl hv
  rw [← hconns] at hc
  rcases hthen with ⟨req, rfl, rfl⟩ | rfl
  · refine ⟨new, hmore.setConnection c ?_⟩
    rintro p mgr (hmgr | ⟨⟨⟩⟩ | hmgr)
    · exact held_of_refers hc (.request hmgr)
    · exact hreply req rfl
    · exact held_of_refers hc (.sending hmgr)
  · exact ⟨new, hmore⟩

/-- INTERNAL: what was granted becomes a request. -/
theorem holdsMore_insertRequest {c : ℕ} (ht : s.insertRequest c = some t) : HoldsMore s t none := by
  obtain ⟨conn, req, hc, hreq, rfl⟩ := insertRequest_eq_some ht
  refine .own ?_
  rintro p mgr (hmgr | ⟨⟨⟩⟩ | hmgr)
  · rw [HashMap.lookup_insert_eq] at hmgr
    split_ifs at hmgr with hp
    · cases hmgr
      rw [hp]
      exact held_of_refers hc (.granted hreq)
    · exact held_of_refers hc (.request hmgr)
  · exact held_of_refers hc (.sending hmgr)

theorem holdsMore_countActive (hs : ManagerInv torrent options s.manager) (h : Channels owner s)
    {c : ℕ} {env : Env} (ht : s.countActive c env = some t) : ∃ new, HoldsMore s t new := by
  obtain ⟨conn, v, reply, hc, -, hv, hthen⟩ := countActive_eq_some ht
  obtain ⟨new, hmore, hconns, -, -⟩ := holdsMore_handle hs h rfl hv
  rw [← hconns] at hc
  rcases hthen with ⟨work, -, rfl⟩ | rfl
  · refine ⟨new, hmore.setConnection c ?_⟩
    rintro p mgr (hmgr | hmgr | hmgr)
    · exact held_of_refers hc (.request hmgr)
    · exact held_of_refers hc (.granted hmgr)
    · exact held_of_refers hc (.sending hmgr)
  · exact ⟨new, hmore⟩

/-- INTERNAL: the watchdog only drops requests. -/
theorem holdsMore_prune {c : ℕ} (ht : s.prune c = some t) : HoldsMore s t none := by
  obtain ⟨conn, stillActive, hc, -, rfl⟩ := prune_eq_some ht
  refine .own ?_
  rintro p mgr (hmgr | hmgr | hmgr)
  · rw [HashMap.lookup_filterMapVals] at hmgr
    obtain ⟨req, hreq, hkept⟩ := Option.bind_eq_some_iff.mp hmgr
    split_ifs at hkept
    cases hkept
    exact held_of_refers hc (.request hreq)
  · exact held_of_refers hc (.granted hmgr)
  · exact held_of_refers hc (.sending hmgr)

/-- INTERNAL: the reader sends the block to a manager among the requests, if there is one. -/
theorem holdsMore_piece {c p off : ℕ} {data : Bytes} (ht : s.piece c p off data = some t) :
    HoldsMore s t none := by
  obtain ⟨conn, hc, -, ⟨mgr, hmgr, rfl⟩ | ⟨-, rfl⟩⟩ := piece_eq_some ht
  · refine .own ?_
    rintro p' mgr' (hmgr' | hmgr' | ⟨⟨⟩⟩)
    · exact held_of_refers hc (.request hmgr')
    · exact held_of_refers hc (.granted hmgr')
    · exact held_of_refers hc (.request hmgr)
  · refine .own ?_
    rintro p' mgr' (hmgr' | hmgr' | ⟨⟨⟩⟩)
    · exact held_of_refers hc (.request hmgr')
    · exact held_of_refers hc (.granted hmgr')

/-- INTERNAL: the reader sends the block to an active manager. -/
theorem holdsMore_getPieceManager (hs : ManagerInv torrent options s.manager) (h : Channels owner s)
    {c : ℕ} {env : Env} (ht : s.getPieceManager c env = some t) : ∃ new, HoldsMore s t new := by
  obtain ⟨conn, p, off, data, v, reply, hc, -, hv, hthen⟩ := getPieceManager_eq_some ht
  obtain ⟨new, hmore, hconns, hkept, -⟩ := holdsMore_handle hs h rfl hv
  rw [← hconns] at hc
  rcases hthen with ⟨mgr, hmgr, rfl⟩ | ⟨-, rfl⟩
  · refine ⟨new, hmore.setConnection c ?_⟩
    rintro p' mgr' (hmgr' | hmgr' | ⟨⟨⟩⟩)
    · exact held_of_refers hc (.request hmgr')
    · exact held_of_refers hc (.granted hmgr')
    · exact hkept p mgr hmgr
  · refine ⟨new, hmore.setConnection c ?_⟩
    rintro p' mgr' (hmgr' | hmgr' | ⟨⟨⟩⟩)
    · exact held_of_refers hc (.request hmgr')
    · exact held_of_refers hc (.granted hmgr')

theorem holdsMore_blockRecived {c : ℕ} (ht : s.blockRecived sha1 c = some t) :
    HoldsMore s t none := by
  obtain ⟨conn, mgr, p, off, data, tracked, hc, -, hthen⟩ := blockRecived_event_eq_some ht
  -- the reader goes on with something else than a block
  have hreader {reader : Reader} (hreader : reader = .idle ∨ reader = .hashMatched p tracked)
      (p' : ℕ) (mgr' : PieceRequestManager)
      (hmgr' : Refers { conn with reader := reader } p' mgr') : Held s p' mgr' := by
    rcases hmgr' with hmgr' | hmgr' | hmgr'
    · exact held_of_refers hc (.request hmgr')
    · exact held_of_refers hc (.granted hmgr')
    · rcases hreader with rfl | rfl <;> cases hmgr'
  rcases hthen with ⟨a, slot, reader, ha, hafter, rfl⟩ | ⟨-, rfl⟩
  · refine (HoldsMore.setPieceActors _ (by simp)).setConnection c ?_
    intro p' mgr' hmgr'
    exact (hreader (reader_afterBlock hafter) p' mgr' hmgr').setPieceActors _
  · exact .own (hreader (Or.inl rfl))

theorem holdsMore_pieceFinish {c : ℕ} (ht : s.pieceFinish c = some t) : HoldsMore s t none := by
  obtain ⟨conn, p, tracked, hc, -, rfl⟩ := pieceFinish_event_eq_some ht
  have hmore : HoldsMore s
      { s with pieceFinishes := s.pieceFinishes ++ [(conn.peerId, p)] } none := by
    refine .ofHeld (fun p' mgr' hmgr' => ?_) le_rfl
    cases hmgr' with
    | active hmgr' => exact .active hmgr'
    | connection hconn hmgr' => exact .connection hconn hmgr'
    | finishing hf => exact .finishing hf
  refine hmore.setConnection c ?_
  rintro p' mgr' (hmgr' | hmgr' | hmgr')
  · exact .connection (List.mem_of_getElem? hc) (.request hmgr')
  · exact .connection (List.mem_of_getElem? hc) (.granted hmgr')
  · cases tracked <;> simp at hmgr'

theorem holdsMore_removeRequest {c : ℕ} (ht : s.removeRequest c = some t) : HoldsMore s t none := by
  obtain ⟨conn, p, hc, -, rfl⟩ := removeRequest_eq_some ht
  refine .own ?_
  rintro p' mgr' (hmgr' | hmgr' | ⟨⟨⟩⟩)
  · rw [HashMap.lookup_erase_eq] at hmgr'
    split_ifs at hmgr'
    exact held_of_refers hc (.request hmgr')
  · exact held_of_refers hc (.granted hmgr')

/-- INTERNAL: the manager that is flushed was active. -/
theorem holdsMore_pieceFinishBegin {k : ℕ} (ht : s.pieceFinishBegin k = some t) :
    HoldsMore s t none := by
  obtain ⟨-, q, p, manager, last, -, hbegin, rfl⟩ := pieceFinishBegin_event_eq_some ht
  refine .ofHeld (fun p' mgr' hmgr' => ?_) le_rfl
  obtain ⟨-, hlast⟩ := pieceFinishBegin_eq_some hbegin
  cases hmgr' with
  | active hmgr' =>
    rcases hlast with ⟨-, rfl, -⟩ | ⟨-, -, rfl⟩
    · exact .active hmgr'
    · dsimp only at hmgr'
      rw [HashMap.lookup_erase_eq] at hmgr'
      split_ifs at hmgr'
      exact .active hmgr'
  | connection hconn hmgr' => exact .connection hconn hmgr'
  | finishing hf =>
    obtain ⟨mgr, hmgr, rfl⟩ := Option.map_eq_some_iff.mp hf
    rcases hlast with ⟨-, -, rfl⟩ | ⟨-, rfl, -⟩
    · cases hmgr
    · exact .active hmgr

/-- INTERNAL: what is held does not depend on the disk actor. -/
theorem HoldsMore.endDisk {new : Option PieceRequestManager} (h : HoldsMore s t new)
    (ended : Bool) : HoldsMore s { t with diskEnded := ended } new := by
  refine ⟨fun p mgr hmgr => h.held p mgr ?_, h.spawned, h.length_le⟩
  cases hmgr with
  | active hmgr => exact .active hmgr
  | connection hconn hmgr => exact .connection hconn hmgr
  | finishing hf => exact .finishing hf

/-- INTERNAL: the flush goes on with the same manager. -/
theorem holdsMore_flushRound {io : IoOutcome} (ht : s.flushRound io = some t) :
    HoldsMore s t none := by
  obtain ⟨p, job, disk, ended, job', result, hf, hjob, -, -, rfl⟩ := flushRound_event_moves ht
  refine .ofHeld (fun p' mgr' hmgr' => ?_) le_rfl
  cases hmgr' with
  | active hmgr' => exact .active hmgr'
  | connection hconn hmgr' => exact .connection hconn hmgr'
  | finishing hf' =>
    cases hf'
    dsimp only
    rw [hjob]
    exact .finishing hf

theorem holdsMore_pieceFinishEnd (ht : s.pieceFinishEnd = some t) : HoldsMore s t none := by
  obtain ⟨p, job, flushed, -, rfl⟩ := pieceFinishEnd_event_eq_some ht
  refine .ofHeld (fun p' mgr' hmgr' => ?_) le_rfl
  cases hmgr' with
  | active hmgr' => cases flushed <;> exact .active hmgr'
  | connection hconn hmgr' => exact .connection hconn hmgr'
  | finishing hf => cases hf

/-- INTERNAL: what a step lets hold that was not held before was spawned in it. -/
theorem holdsMore_step (hs : ManagerInv torrent options s.manager) (h : Channels owner s)
    {e : SystemEvent} {r : Unit} (ht : systemStep sha1 s e = some (t, r)) :
    ∃ new, HoldsMore s t new := by
  obtain ⟨u, hu, heq⟩ := Option.map_eq_some_iff.mp ht
  cases heq
  cases e with
  | connect peerId env => exact holdsMore_connect hs h hu
  | recv msg env =>
    obtain ⟨hmsg, reply, hv⟩ := recv_eq_some hu
    obtain ⟨new, hmore, -⟩ := holdsMore_handle hs h hmsg hv
    exact ⟨new, hmore⟩
  | getDataWithLength pieceIndex offset length io env =>
    obtain ⟨env', v, reply, ended, hv, -, rfl⟩ := getDataWithLength_event_eq_some hu
    obtain ⟨new, hmore, -⟩ := holdsMore_handle hs h rfl hv
    exact ⟨new, hmore.endDisk ended⟩
  | requestPiece c env => exact holdsMore_requestPiece hs h hu
  | insertRequest c => exact ⟨none, holdsMore_insertRequest hu⟩
  | countActive c env => exact holdsMore_countActive hs h hu
  | prune c => exact ⟨none, holdsMore_prune hu⟩
  | piece c p off data => exact ⟨none, holdsMore_piece hu⟩
  | getPieceManager c env => exact holdsMore_getPieceManager hs h hu
  | blockRecived c => exact ⟨none, holdsMore_blockRecived hu⟩
  | pieceFinish c => exact ⟨none, holdsMore_pieceFinish hu⟩
  | removeRequest c => exact ⟨none, holdsMore_removeRequest hu⟩
  | pieceActor send e =>
    obtain ⟨-, a, b, r, -, -, rfl⟩ := pieceEvent_eq_some hu
    exact ⟨none, .setPieceActors _ (by simp)⟩
  | pieceFinishBegin k => exact ⟨none, holdsMore_pieceFinishBegin hu⟩
  | flushRound io => exact ⟨none, holdsMore_flushRound hu⟩
  | pieceFinishEnd => exact ⟨none, holdsMore_pieceFinishEnd hu⟩

/-- INTERNAL: every step leaves each channel with one piece. -/
theorem channels_step (hs : ManagerInv torrent options s.manager) (h : Channels owner s)
    {e : SystemEvent} {r : Unit} (ht : systemStep sha1 s e = some (t, r)) :
    ∃ owner', Channels owner' t := by
  obtain ⟨new, hmore⟩ := holdsMore_step hs h ht
  exact h.of_holdsMore hmore

/-- INTERNAL: at first nothing is held. -/
theorem channels_new {fileSystem : FileSystem} {downloadPath : PathBuf}
    (h : TorrentSystem.new torrent options fileSystem downloadPath = some s) (owner : ℕ → ℕ) :
    Channels owner s := by
  obtain ⟨manager, disk, diskEnded, hmanager, -, rfl⟩ := system_new_eq_some h
  intro p mgr hmgr
  cases hmgr with
  | active hmgr => simp [lookup_active_new hmanager p] at hmgr
  | connection hconn => cases hconn
  | finishing hf => cases hf

end Fissure.Analysis
