import Fissure.Analysis.PieceChannels
import Fissure.Analysis.UncheckedBlocks

/-!
# A complete piece is announced

As long as a piece has a manager, its actor has all blocks only when the news of that is under way
(`AnnouncesFull`). The actor completes the piece while it handles a block, and then the reader that
sent the block has the piece to announce; the news leaves the system where the manager is retired.
-/

set_option autoImplicit false

namespace Fissure.Analysis

open Fissure.Library Fissure.Model
open Fissure.Model.TorrentSystem

variable {sha1 : Bytes → Bytes} {torrent : ClientTorrentMetaInfo} {options : PeerOptions}
  {owner : ℕ → ℕ} {s t : TorrentSystem}

/-- The actor has all blocks of its piece. -/
def Full (a : PieceRequestManagerActor) : Prop :=
  ∀ i < noOfBlocks a.data.length, a.downloadedBlocks.getD i false = true

/-- An active piece whose actor has all blocks is announced. -/
def AnnouncesFull (s : TorrentSystem) : Prop :=
  ∀ p mgr a, s.manager.activePiecesManager.lookup p = some mgr →
    s.pieceActor mgr.send = some a → Full a → p ∈ announced s

/-! ## Piece actors -/

theorem noOfBlocks_pos {pLen : ℕ} (h : 0 < pLen) : 0 < noOfBlocks pLen :=
  lt_noOfBlocks_iff.mpr (by omega)

/-- INTERNAL: a new actor lacks its first block. -/
theorem not_full_new {pLen : ℕ} (hash : Bytes) (timeout : ℕ) (h : 0 < pLen) :
    ¬ Full (.new pLen hash timeout) := by
  intro hfull
  have hfirst := hfull 0 (noOfBlocks_pos (by simpa [PieceRequestManagerActor.new] using h))
  simp only [PieceRequestManagerActor.new, Bitfield.getD_zeros, Bool.false_eq_true] at hfirst

/-- INTERNAL: an actor that is full after a block, and was not before, says so.
SOURCE: piece_manager.rs:98-136 -/
theorem afterBlock_of_full {a b : PieceRequestManagerActor} {p off : ℕ} {data : Bytes}
    {tracked : Bool} {reader : Reader} (hpos : 0 < a.data.length)
    (h : afterBlock sha1 a p off data tracked = (some b, reader)) (hfull : Full b) :
    reader = .hashMatched p tracked := by
  unfold afterBlock at h
  cases hblock : a.blockRecived sha1 off data with
  | none =>
    rw [hblock] at h
    cases h
  | some result =>
    obtain ⟨b', outcome⟩ := result
    obtain ⟨-, heffect⟩ := blockRecived_eq_some hblock
    have hlength : b'.data.length = a.data.length := by
      rw [heffect.data_eq.1, PieceRequestManagerActor.length_storedData]
    rw [hblock] at h
    cases outcome with
    | verified =>
      cases h
      rfl
    | pending =>
      cases h
      rw [Full, hlength] at hfull
      exact absurd hfull heffect.2
    | reset =>
      cases h
      have hfirst := hfull 0 (noOfBlocks_pos (by omega))
      rw [heffect.1.downloaded] at hfirst
      cases hfirst

/-- INTERNAL: an answer of the manager leaves the piece actors that there are. -/
theorem pieceActor_of_spawned {send : ℕ} (hlt : send < s.pieceActors.length)
    (reply : TorrentManagerReply) : ((s.spawned reply)[send]?).join = s.pieceActor send := by
  unfold TorrentSystem.pieceActor TorrentSystem.spawned
  split
  · split_ifs
    · rw [List.getElem?_append_left hlt]
    · rfl
  · rfl

/-- INTERNAL: what happens in one piece actor leaves the others. -/
theorem pieceActor_of_set {place send : ℕ} (slot : Option PieceRequestManagerActor)
    (hne : send ≠ place) :
    ((s.pieceActors.set place slot)[send]?).join = s.pieceActor send := by
  unfold TorrentSystem.pieceActor
  rw [List.getElem?_set_ne (Ne.symm hne)]

/-- Where the actor `b` behind a channel comes from: it is new, it was there in `s`, or it did one
step of its own. -/
inductive ActorMove (sha1 : Bytes → Bytes) (s : TorrentSystem) (send : ℕ)
    (b : PieceRequestManagerActor) : Prop
  | spawns (pLen : ℕ) (hash : Bytes) (timeout : ℕ) (h : b = .new pLen hash timeout)
  | stays (h : s.pieceActor send = some b)
  | steps (a : PieceRequestManagerActor) (ev : PieceEvent) (reply : PieceReply)
    (ha : s.pieceActor send = some a) (h : pieceStep sha1 a ev = some (b, reply))

/-- INTERNAL: an actor that lives after an answer of the manager is new or was there. -/
theorem ActorMove.of_spawned {reply : TorrentManagerReply} {send : ℕ}
    {b : PieceRequestManagerActor} (hb : ((s.spawned reply)[send]?).join = some b) :
    ActorMove sha1 s send b := by
  by_cases hlt : send < s.pieceActors.length
  · rw [pieceActor_of_spawned hlt] at hb
    exact .stays hb
  · rw [Option.join_eq_some_iff] at hb
    unfold TorrentSystem.spawned at hb
    split at hb
    · split_ifs at hb
      · rw [List.getElem?_append_right (by omega)] at hb
        have hmem := List.mem_of_getElem? hb
        rw [List.mem_singleton, Option.some.injEq] at hmem
        exact .spawns _ _ _ hmem
      · exact absurd (List.getElem?_eq_some_iff.mp hb).1 hlt
    · exact absurd (List.getElem?_eq_some_iff.mp hb).1 hlt

/-- INTERNAL: an actor that lives after one of them did a step was there or did the step. -/
theorem ActorMove.of_set {place send : ℕ} {a b : PieceRequestManagerActor}
    {slot : Option PieceRequestManagerActor} (ha : s.pieceActor place = some a)
    (hslot : ∀ b, slot = some b → ∃ ev reply, pieceStep sha1 a ev = some (b, reply))
    (hb : ((s.pieceActors.set place slot)[send]?).join = some b) : ActorMove sha1 s send b := by
  by_cases hsend : send = place
  · subst hsend
    have hnow := pieceActor_set ha slot
    unfold TorrentSystem.pieceActor at hnow
    rw [hnow] at hb
    obtain ⟨ev, reply, hstep⟩ := hslot b hb
    exact .steps a ev reply ha hstep
  · rw [pieceActor_of_set slot hsend] at hb
    exact .stays hb

/-- INTERNAL: taking a block is a step of the actor.
SOURCE: piece_manager.rs:98-136 -/
theorem pieceStep_of_afterBlock {a b : PieceRequestManagerActor} {p off : ℕ} {data : Bytes}
    {tracked : Bool} {reader : Reader}
    (h : afterBlock sha1 a p off data tracked = (some b, reader)) :
    ∃ ev reply, pieceStep sha1 a ev = some (b, reply) := by
  unfold afterBlock at h
  split at h
  · next b' hblock =>
    cases h
    exact ⟨.recv (.blockRecived off data) fun _ => 0, _,
      pieceStep_blockRecived.mpr ⟨_, hblock, rfl⟩⟩
  · next b' outcome _ hblock =>
    cases h
    exact ⟨.recv (.blockRecived off data) fun _ => 0, _,
      pieceStep_blockRecived.mpr ⟨_, hblock, rfl⟩⟩
  · cases h

/-- INTERNAL: every actor that lives after a step comes from somewhere. -/
theorem pieceActor_of_systemStep {e : SystemEvent} {r : Unit}
    (h : systemStep sha1 s e = some (t, r)) {send : ℕ} {b : PieceRequestManagerActor}
    (hb : t.pieceActor send = some b) : ActorMove sha1 s send b := by
  have hhandle {u : TorrentSystem} {msg : TorrentManagerMessage} {env : Env}
      {reply : TorrentManagerReply} (hu : s.handle msg env = some (u, reply))
      (hactors : t.pieceActors = u.pieceActors) : ActorMove sha1 s send b := by
    obtain ⟨-, manager, -, rfl⟩ := handle_eq_some hu
    unfold TorrentSystem.pieceActor at hb
    rw [hactors] at hb
    exact .of_spawned hb
  obtain ⟨u, hu, heq⟩ := Option.map_eq_some_iff.mp h
  cases heq
  cases e with
  | connect peerId env =>
    obtain ⟨v, reply, hv, rfl⟩ := connect_eq_some hu
    exact hhandle hv rfl
  | recv msg env =>
    obtain ⟨-, reply, hv⟩ := recv_eq_some hu
    exact hhandle hv rfl
  | getDataWithLength pieceIndex offset length io env =>
    obtain ⟨env', v, reply, ended, hv, -, rfl⟩ := getDataWithLength_event_eq_some hu
    exact hhandle hv rfl
  | requestPiece c env =>
    obtain ⟨conn, v, reply, -, -, hv, ⟨req, -, rfl⟩ | rfl⟩ := requestPiece_eq_some hu
    · exact hhandle hv rfl
    · exact hhandle hv rfl
  | insertRequest c =>
    obtain ⟨conn, req, -, -, rfl⟩ := insertRequest_eq_some hu
    exact .stays hb
  | countActive c env =>
    obtain ⟨conn, v, reply, -, -, hv, ⟨work, -, rfl⟩ | rfl⟩ := countActive_eq_some hu
    · exact hhandle hv rfl
    · exact hhandle hv rfl
  | prune c =>
    obtain ⟨conn, stillActive, -, -, rfl⟩ := prune_eq_some hu
    exact .stays hb
  | piece c p off data =>
    obtain ⟨conn, -, -, ⟨mgr, -, rfl⟩ | ⟨-, rfl⟩⟩ := piece_eq_some hu
    · exact .stays hb
    · exact .stays hb
  | getPieceManager c env =>
    obtain ⟨conn, p, off, data, v, reply, -, -, hv, ⟨mgr, -, rfl⟩ | ⟨-, rfl⟩⟩ :=
      getPieceManager_eq_some hu
    · exact hhandle hv rfl
    · exact hhandle hv rfl
  | blockRecived c =>
    obtain ⟨conn, mgr, p, off, data, tracked, -, -, ⟨a, slot, reader, ha, hafter, rfl⟩ |
      ⟨-, rfl⟩⟩ := blockRecived_event_eq_some hu
    · refine .of_set ha (fun b hslot => ?_) hb
      subst hslot
      exact pieceStep_of_afterBlock hafter
    · exact .stays hb
  | pieceFinish c =>
    obtain ⟨conn, p, tracked, -, -, rfl⟩ := pieceFinish_event_eq_some hu
    exact .stays hb
  | removeRequest c =>
    obtain ⟨conn, p, -, -, rfl⟩ := removeRequest_eq_some hu
    exact .stays hb
  | pieceActor place ev =>
    obtain ⟨-, a, b', reply, ha, hstep, rfl⟩ := pieceEvent_eq_some hu
    refine .of_set ha (fun b hslot => ?_) hb
    cases hslot
    exact ⟨ev, reply, hstep⟩
  | pieceFinishBegin k =>
    obtain ⟨-, q, p, manager, last, -, -, rfl⟩ := pieceFinishBegin_event_eq_some hu
    exact .stays hb
  | flushRound io =>
    obtain ⟨p, job, disk, ended, job', result, -, -, -, -, rfl⟩ := flushRound_event_moves hu
    exact .stays hb
  | pieceFinishEnd =>
    obtain ⟨p, job, flushed, -, rfl⟩ := pieceFinishEnd_event_eq_some hu
    exact .stays hb

/-- INTERNAL: in every actor that lives the flags agree, after every step. -/
theorem flagsInv_systemStep {e : SystemEvent} {r : Unit}
    (hs : ∀ send a, s.pieceActor send = some a → FlagsInv sha1 a)
    (h : systemStep sha1 s e = some (t, r)) :
    ∀ send a, t.pieceActor send = some a → FlagsInv sha1 a := by
  intro send b hb
  cases pieceActor_of_systemStep h hb with
  | spawns pLen hash timeout hnew =>
    rw [hnew]
    exact flagsInv_new sha1 pLen hash timeout
  | stays ha => exact hs send b ha
  | steps a ev reply ha hstep => exact flagsInv_step (hs send a ha) hstep

/-! ## The news -/

/-- INTERNAL: what is announced stays announced, and an actor that is full was full before. -/
theorem AnnouncesFull.mono (h : AnnouncesFull s)
    (hactors : ∀ p mgr a, t.manager.activePiecesManager.lookup p = some mgr →
      t.pieceActor mgr.send = some a → Full a →
      s.manager.activePiecesManager.lookup p = some mgr ∧
        ∃ b, s.pieceActor mgr.send = some b ∧ Full b)
    (hannounced : ∀ p ∈ announced s, p ∈ t.manager.activePiecesManager → p ∈ announced t) :
    AnnouncesFull t := by
  intro p mgr a hmgr ha hfull
  obtain ⟨hold, b, hb, hbfull⟩ := hactors p mgr a hmgr ha hfull
  exact hannounced p (h p mgr b hold hb hbfull) (Finmap.mem_of_lookup_eq_some hmgr)

/-- INTERNAL: what is announced stays announced when a connection changes, unless it was announced
by the connection. -/
theorem announced_setConnection {c p : ℕ} {conn : Connection}
    (hc : s.connections[c]? = some conn) (hp : p ∈ announced s) (conn' : Connection) :
    p ∈ announced (s.setConnection c conn') ∨ matchedPiece conn.reader = some p := by
  rcases List.mem_append.mp hp with hp | hp
  · obtain ⟨old, hmem, hold⟩ := List.mem_filterMap.mp hp
    obtain ⟨k, hk⟩ := List.mem_iff_getElem?.mp hmem
    by_cases hkc : c = k
    · subst hkc
      rw [hc, Option.some.injEq] at hk
      exact Or.inr (hk ▸ hold)
    · left
      apply List.mem_append_left
      refine List.mem_filterMap.mpr ⟨old, List.mem_of_getElem? (i := k) ?_, hold⟩
      rw [← hk]
      exact List.getElem?_set_ne hkc
  · exact Or.inl (List.mem_append_right _ hp)

/-- INTERNAL: a connection that changes announces what its reader has matched. -/
theorem announced_of_matched {c p : ℕ} {conn conn' : Connection}
    (hc : s.connections[c]? = some conn) (hp : matchedPiece conn'.reader = some p) :
    p ∈ announced (s.setConnection c conn') := by
  have hlt := (List.getElem?_eq_some_iff.mp hc).1
  exact matchedPiece_mem_announced (List.getElem?_set_self hlt) hp

/-- INTERNAL: the news of a reader goes to the channel of the manager.
SOURCE: peer_protocol_state_machine.rs:350-366 -/
theorem announced_pieceFinish {c p q : ℕ} {conn : Connection} {tracked : Bool}
    (hc : s.connections[c]? = some conn) (hreader : conn.reader = .hashMatched p tracked)
    (hq : q ∈ announced s) (conn' : Connection) :
    q ∈ announced ({ s with
      pieceFinishes := s.pieceFinishes ++ [(conn.peerId, p)] }.setConnection c conn') := by
  have hsent := announced_setConnection hc hq conn'
  unfold announced at hsent ⊢
  change q ∈ _ ++ (s.pieceFinishes ++ [(conn.peerId, p)]).map Prod.snd
  rcases hsent with hq | hq
  · rw [List.map_append, ← List.append_assoc]
    exact List.mem_append_left _ hq
  · rw [hreader] at hq
    cases hq
    simp

/-- INTERNAL: a message that the manager takes is the news of its piece only. -/
theorem announced_eraseIdx {k p p' : ℕ} {q : String} (hk : s.pieceFinishes[k]? = some (q, p))
    (hp : p' ∈ announced s) (hne : p' ≠ p) :
    p' ∈ announced { s with pieceFinishes := s.pieceFinishes.eraseIdx k } := by
  unfold announced at hp ⊢
  rcases List.mem_append.mp hp with hp | hp
  · exact List.mem_append_left _ hp
  · apply List.mem_append_right
    obtain ⟨msg, hmsg, rfl⟩ := List.mem_map.mp hp
    refine List.mem_map.mpr ⟨msg, List.mem_eraseIdx_iff_getElem?.mpr ?_, rfl⟩
    obtain ⟨i, hi⟩ := List.mem_iff_getElem?.mp hmsg
    refine ⟨i, ?_, hi⟩
    rintro rfl
    rw [hk, Option.some.injEq] at hi
    exact hne (hi ▸ rfl)

/-- INTERNAL: what is announced stays announced when a connection keeps its news. -/
theorem announced_of_keeps {c p : ℕ} {conn conn' : Connection} (hp : p ∈ announced s)
    (hc : s.connections[c]? = some conn)
    (hmatched : ∀ p, matchedPiece conn.reader = some p → matchedPiece conn'.reader = some p) :
    p ∈ announced (s.setConnection c conn') := by
  rcases announced_setConnection hc hp conn' with hp | hp
  · exact hp
  · exact announced_of_matched hc (hmatched p hp)

/-- INTERNAL: a connection may go on to announce more. -/
theorem AnnouncesFull.setConnection (h : AnnouncesFull s) {c : ℕ} {conn conn' : Connection}
    (hc : s.connections[c]? = some conn)
    (hmatched : ∀ p, matchedPiece conn.reader = some p → matchedPiece conn'.reader = some p) :
    AnnouncesFull (s.setConnection c conn') := by
  exact h.mono (fun p mgr a hmgr ha hfull => ⟨hmgr, a, ha, hfull⟩)
    fun p hp _ => announced_of_keeps hp hc hmatched

/-- INTERNAL: an active piece has at least one byte. -/
theorem pieceLength_pos (hmeta : torrent.rawTorrent.WellSized)
    (hs : ManagerInv torrent options s.manager) {p : ℕ} {mgr : PieceRequestManager}
    (hmgr : s.manager.activePiecesManager.lookup p = some mgr) : 0 < mgr.pieceLength := by
  obtain ⟨hmanages, hlt, -⟩ := hs.active p mgr hmgr
  rw [hs.length_frequency hmeta] at hlt
  have hlength := hmanages.pieceLength_eq
  rw [MetaInfo.getPieceLength_eq hmeta hlt, Option.some.injEq] at hlength
  have hpos := hmeta.pieceLength_pos
  rw [MetaInfo.lt_pieceCount_iff hpos] at hlt
  unfold MetaInfo.pieceLen at hlength
  omega

/-- INTERNAL: the actor of an active piece has at least one block. -/
theorem SystemInv.data_pos (hmeta : torrent.rawTorrent.WellSized)
    (hs : SystemInv sha1 torrent options s) {p : ℕ} {mgr : PieceRequestManager}
    (hmgr : s.manager.activePiecesManager.lookup p = some mgr) {a : PieceRequestManagerActor}
    (ha : s.pieceActor mgr.send = some a) : 0 < a.data.length := by
  obtain ⟨slot, hslot, hserves⟩ := hs.served p mgr hmgr
  rw [getElem?_pieceActors ha, Option.some.injEq] at hslot
  rw [(hserves a hslot.symm).2]
  exact pieceLength_pos hmeta hs.manager hmgr

/-- INTERNAL: a manager that is active after a message was active before, or it is new and so is its
actor.
SOURCE: torrent_manager.rs:197-206, piece_manager.rs:242-252 -/
theorem active_handle {msg : TorrentManagerMessage} {env : Env} {reply : TorrentManagerReply}
    (hmsg : finishes msg = none) (ht : s.handle msg env = some (t, reply)) {p : ℕ}
    {mgr : PieceRequestManager} (hmgr : t.manager.activePiecesManager.lookup p = some mgr) :
    s.manager.activePiecesManager.lookup p = some mgr ∨
      ∃ timeout, t.pieceActor mgr.send = some (.new mgr.pieceLength mgr.sha1Hash timeout) := by
  obtain ⟨-, m, hstep, rfl⟩ := handle_eq_some ht
  rcases active_of_not_pieceFinish hstep hmsg with ⟨hsame, -⟩ | ⟨q, new, rfl, -, hnew, hinsert⟩
  · rw [hsame] at hmgr
    exact Or.inl hmgr
  · rw [hinsert, HashMap.lookup_insert_eq] at hmgr
    split_ifs at hmgr with hpq
    · cases hmgr
      subst hpq
      unfold ManagerOf at hnew
      split at hnew
      · next active hactive => exact Or.inl (by rw [hnew, hactive])
      · obtain ⟨sha1Hash, pieceLength, -, -, rfl⟩ := hnew
        refine Or.inr ⟨s.manager.peerOptions.blockRequestTimeout, ?_⟩
        simp [TorrentSystem.pieceActor, TorrentSystem.spawned]
    · exact Or.inl hmgr

/-- INTERNAL: a manager that becomes active has an actor that lacks its first block.
SOURCE: torrent_manager.rs:197-206, piece_manager.rs:26-52 -/
theorem announces_handle (hmeta : torrent.rawTorrent.WellSized)
    (hs : SystemInv sha1 torrent options s) (hchannels : Channels owner s) (h : AnnouncesFull s)
    {msg : TorrentManagerMessage} {env : Env} {reply : TorrentManagerReply}
    (hmsg : finishes msg = none) (ht : s.handle msg env = some (t, reply)) : AnnouncesFull t := by
  obtain ⟨hinv, -⟩ := hs.handle hmsg ht
  have hnew {p : ℕ} {mgr : PieceRequestManager} {a : PieceRequestManagerActor}
      (hmgr : t.manager.activePiecesManager.lookup p = some mgr)
      (ha : t.pieceActor mgr.send = some a) (hfull : Full a) :
      s.manager.activePiecesManager.lookup p = some mgr := by
    refine (active_handle hmsg ht hmgr).resolve_right ?_
    rintro ⟨timeout, hactor⟩
    rw [hactor, Option.some.injEq] at ha
    subst ha
    exact not_full_new _ _ (pieceLength_pos hmeta hinv.manager hmgr) hfull
  obtain ⟨-, m, -, rfl⟩ := handle_eq_some ht
  refine h.mono (fun p mgr a hmgr ha hfull => ?_) fun p hp _ => hp
  have hactive := hnew hmgr ha hfull
  have hold := pieceActor_of_spawned (hchannels p mgr (.active hactive)).2 reply
  exact ⟨hactive, a, hold.symm.trans ha, hfull⟩

/-- INTERNAL: an actor that a block makes full belongs to the piece of its channel, which the reader
then has to announce.
SOURCE: peer_protocol_state_machine.rs:337-366 -/
theorem announces_blockRecived (hmeta : torrent.rawTorrent.WellSized)
    (hs : SystemInv sha1 torrent options s) (hchannels : Channels owner s) (h : AnnouncesFull s)
    {c : ℕ} (ht : s.blockRecived sha1 c = some t) : AnnouncesFull t := by
  obtain ⟨conn, mgr, p, off, data, tracked, hc, hreader, hthen⟩ := blockRecived_event_eq_some ht
  have hkeeps (reader : Reader) (q : ℕ) (hq : matchedPiece conn.reader = some q) :
      matchedPiece reader = some q := by
    simp [hreader, matchedPiece] at hq
  rcases hthen with ⟨a, slot, reader, ha, hafter, rfl⟩ | ⟨-, rfl⟩
  · intro q mgr' b hmgr' hb hfull
    change s.manager.activePiecesManager.lookup q = some mgr' at hmgr'
    change ((s.pieceActors.set mgr.send slot)[mgr'.send]?).join = some b at hb
    by_cases hsend : mgr'.send = mgr.send
    · -- the actor that handled the block; by its channel it is that of the piece
      have hnow := pieceActor_set ha slot
      unfold TorrentSystem.pieceActor at hnow
      rw [hsend, hnow] at hb
      subst hb
      have hpos := hs.data_pos hmeta hmgr' (hsend ▸ ha)
      have hmatched := afterBlock_of_full hpos hafter hfull
      have hp := (hchannels p mgr (held_of_refers hc (.sending hreader))).1
      rw [← hsend, (hchannels q mgr' (.active hmgr')).1] at hp
      rw [hp]
      exact announced_of_matched hc (by rw [hmatched]; rfl)
    · rw [pieceActor_of_set slot hsend] at hb
      have hq := h q mgr' b hmgr' hb hfull
      rcases announced_setConnection hc hq { conn with reader := reader } with hq | hq
      · exact hq
      · exact announced_of_matched hc (hkeeps reader q hq)
  · exact h.setConnection hc (hkeeps .idle)

/-- INTERNAL: what a piece actor does without a block makes no actor full. -/
theorem announces_pieceActor (h : AnnouncesFull s) {send : ℕ} {e : PieceEvent}
    (ht : s.pieceEvent sha1 send e = some t) : AnnouncesFull t := by
  obtain ⟨hother, a, b, reply, ha, hstep, rfl⟩ := pieceEvent_eq_some ht
  have hblock : blockOf e = none := by
    cases hblock : blockOf e with
    | none => rfl
    | some i =>
      obtain ⟨off, data, clock, rfl, -⟩ := blockOf_eq_some hblock
      exact absurd rfl (hother off data clock)
  obtain ⟨hdata, -, hdownloaded, -⟩ := unchanged_of_pieceStep hblock hstep
  refine h.mono (fun p mgr a' hmgr ha' hfull => ⟨hmgr, ?_⟩) fun p hp _ => hp
  by_cases hsend : mgr.send = send
  · rw [hsend, pieceActor_set ha, Option.some.injEq] at ha'
    subst ha'
    refine ⟨a, hsend ▸ ha, ?_⟩
    unfold Full at hfull ⊢
    rwa [← hdata, ← hdownloaded]
  · exact ⟨a', (pieceActor_of_set (some b) hsend).symm.trans ha', hfull⟩

/-- INTERNAL: the news leaves the system where the manager of its piece is retired.
SOURCE: torrent_manager.rs:238-263 -/
theorem announces_pieceFinishBegin (hs : SystemInv sha1 torrent options s) (h : AnnouncesFull s)
    {k : ℕ} (ht : s.pieceFinishBegin k = some t) : AnnouncesFull t := by
  obtain ⟨-, q, p, manager, last, hk, hbegin, rfl⟩ := pieceFinishBegin_event_eq_some ht
  have hactive {p' : ℕ} {mgr : PieceRequestManager}
      (hmgr : manager.activePiecesManager.lookup p' = some mgr) :
      p' ≠ p ∧ s.manager.activePiecesManager.lookup p' = some mgr := by
    obtain ⟨-, ⟨hown, rfl, -⟩ | ⟨-, -, rfl⟩⟩ := pieceFinishBegin_eq_some hbegin
    · refine ⟨?_, hmgr⟩
      rintro rfl
      exact (hs.manager.active p' mgr hmgr).2.2 hown
    · dsimp only at hmgr
      rw [HashMap.lookup_erase_eq] at hmgr
      split_ifs at hmgr with hp
      exact ⟨hp, hmgr⟩
  refine h.mono (fun p' mgr a hmgr ha hfull => ⟨(hactive hmgr).2, a, ha, hfull⟩)
    fun p' hp hmem => ?_
  obtain ⟨mgr, hmgr⟩ := Finmap.mem_iff.mp hmem
  exact announced_eraseIdx hk hp (hactive hmgr).1

/-- INTERNAL: every step keeps complete pieces announced.
SOURCE: peer_protocol_state_machine.rs:337-393, torrent_manager.rs:238-263 -/
theorem announces_step (hmeta : torrent.rawTorrent.WellSized)
    (hs : SystemInv sha1 torrent options s) (hchannels : Channels owner s) (h : AnnouncesFull s)
    {e : SystemEvent} {r : Unit} (ht : systemStep sha1 s e = some (t, r)) : AnnouncesFull t := by
  obtain ⟨u, hu, heq⟩ := Option.map_eq_some_iff.mp ht
  cases heq
  cases e with
  | connect peerId env =>
    obtain ⟨v, reply, hv, rfl⟩ := connect_eq_some hu
    refine (announces_handle hmeta hs hchannels h rfl hv).mono
      (fun p mgr a hmgr ha hfull => ⟨hmgr, a, ha, hfull⟩) fun p hp _ => ?_
    unfold announced at hp ⊢
    simpa [Connection.new, matchedPiece] using hp
  | recv msg env =>
    obtain ⟨hmsg, reply, hv⟩ := recv_eq_some hu
    exact announces_handle hmeta hs hchannels h hmsg hv
  | getDataWithLength pieceIndex offset length io env =>
    obtain ⟨env', v, reply, ended, hv, -, rfl⟩ := getDataWithLength_event_eq_some hu
    have hnow := announces_handle hmeta hs hchannels h rfl hv
    exact hnow
  | requestPiece c env =>
    obtain ⟨conn, v, reply, hc, -, hv, hthen⟩ := requestPiece_eq_some hu
    have hnow := announces_handle hmeta hs hchannels h rfl hv
    rw [← (hs.handle rfl hv).2.1] at hc
    rcases hthen with ⟨req, -, rfl⟩ | rfl
    · exact hnow.setConnection hc fun _ hp => hp
    · exact hnow
  | insertRequest c =>
    obtain ⟨conn, req, hc, -, rfl⟩ := insertRequest_eq_some hu
    exact h.setConnection hc fun _ hp => hp
  | countActive c env =>
    obtain ⟨conn, v, reply, hc, -, hv, hthen⟩ := countActive_eq_some hu
    have hnow := announces_handle hmeta hs hchannels h rfl hv
    rw [← (hs.handle rfl hv).2.1] at hc
    rcases hthen with ⟨work, -, rfl⟩ | rfl
    · exact hnow.setConnection hc fun _ hp => hp
    · exact hnow
  | prune c =>
    obtain ⟨conn, stillActive, hc, -, rfl⟩ := prune_eq_some hu
    exact h.setConnection hc fun _ hp => hp
  | piece c p off data =>
    obtain ⟨conn, hc, hidle, ⟨mgr, -, rfl⟩ | ⟨-, rfl⟩⟩ := piece_eq_some hu
    · exact h.setConnection hc (by simp [hidle, matchedPiece])
    · exact h.setConnection hc (by simp [hidle, matchedPiece])
  | getPieceManager c env =>
    obtain ⟨conn, p, off, data, v, reply, hc, hreader, hv, hthen⟩ := getPieceManager_eq_some hu
    have hnow := announces_handle hmeta hs hchannels h rfl hv
    rw [← (hs.handle rfl hv).2.1] at hc
    rcases hthen with ⟨mgr, -, rfl⟩ | ⟨-, rfl⟩
    · exact hnow.setConnection hc (by simp [hreader, matchedPiece])
    · exact hnow.setConnection hc (by simp [hreader, matchedPiece])
  | blockRecived c => exact announces_blockRecived hmeta hs hchannels h hu
  | pieceFinish c =>
    obtain ⟨conn, p, tracked, hc, hreader, rfl⟩ := pieceFinish_event_eq_some hu
    refine h.mono (fun p mgr a hmgr ha hfull => ⟨hmgr, a, ha, hfull⟩) fun q hq _ => ?_
    exact announced_pieceFinish hc hreader hq _
  | removeRequest c =>
    obtain ⟨conn, p, hc, hreader, rfl⟩ := removeRequest_eq_some hu
    exact h.setConnection hc (by simp [hreader, matchedPiece])
  | pieceActor send e => exact announces_pieceActor h hu
  | pieceFinishBegin k => exact announces_pieceFinishBegin hs h hu
  | flushRound io =>
    obtain ⟨p, job, disk, ended, job', result, -, -, -, -, rfl⟩ := flushRound_event_moves hu
    exact h
  | pieceFinishEnd =>
    obtain ⟨p, job, flushed, -, rfl⟩ := pieceFinishEnd_event_eq_some hu
    cases flushed <;> exact h

theorem announces_new {fileSystem : FileSystem} {downloadPath : PathBuf}
    (h : TorrentSystem.new torrent options fileSystem downloadPath = some s) :
    AnnouncesFull s := by
  obtain ⟨manager, disk, diskEnded, hmanager, -, rfl⟩ := system_new_eq_some h
  intro p mgr a hmgr
  rw [lookup_active_new hmanager p] at hmgr
  cases hmgr

/-- INTERNAL: the news of a piece leave the system only when the piece becomes owned.
SOURCE: peer_protocol_state_machine.rs:337-393, torrent_manager.rs:238-263 -/
theorem news_step {e : SystemEvent} {r : Unit} (ht : systemStep sha1 s e = some (t, r)) {p : ℕ}
    (hp : p ∈ announced s) : p ∈ announced t ∨ Owned t.manager p := by
  have hhandle {u : TorrentSystem} {msg : TorrentManagerMessage} {env : Env}
      {reply : TorrentManagerReply} (hu : s.handle msg env = some (u, reply)) :
      u.connections = s.connections ∧ p ∈ announced u := by
    obtain ⟨-, m, -, rfl⟩ := handle_eq_some hu
    exact ⟨rfl, hp⟩
  obtain ⟨u, hu, heq⟩ := Option.map_eq_some_iff.mp ht
  cases heq
  cases e with
  | connect peerId env =>
    obtain ⟨v, reply, hv, rfl⟩ := connect_eq_some hu
    have hnow := (hhandle hv).2
    unfold announced at hnow ⊢
    left
    simpa [Connection.new, matchedPiece] using hnow
  | recv msg env =>
    obtain ⟨-, reply, hv⟩ := recv_eq_some hu
    exact Or.inl (hhandle hv).2
  | getDataWithLength pieceIndex offset length io env =>
    obtain ⟨env', v, reply, ended, hv, -, rfl⟩ := getDataWithLength_event_eq_some hu
    exact Or.inl (hhandle hv).2
  | requestPiece c env =>
    obtain ⟨conn, v, reply, hc, -, hv, ⟨req, -, rfl⟩ | rfl⟩ := requestPiece_eq_some hu
    · rw [← (hhandle hv).1] at hc
      exact Or.inl (announced_of_keeps (hhandle hv).2 hc fun _ hq => hq)
    · exact Or.inl (hhandle hv).2
  | insertRequest c =>
    obtain ⟨conn, req, hc, -, rfl⟩ := insertRequest_eq_some hu
    exact Or.inl (announced_of_keeps hp hc fun _ hq => hq)
  | countActive c env =>
    obtain ⟨conn, v, reply, hc, -, hv, ⟨work, -, rfl⟩ | rfl⟩ := countActive_eq_some hu
    · rw [← (hhandle hv).1] at hc
      exact Or.inl (announced_of_keeps (hhandle hv).2 hc fun _ hq => hq)
    · exact Or.inl (hhandle hv).2
  | prune c =>
    obtain ⟨conn, stillActive, hc, -, rfl⟩ := prune_eq_some hu
    exact Or.inl (announced_of_keeps hp hc fun _ hq => hq)
  | piece c p off data =>
    obtain ⟨conn, hc, hidle, ⟨mgr, -, rfl⟩ | ⟨-, rfl⟩⟩ := piece_eq_some hu
    · exact Or.inl (announced_of_keeps hp hc (by simp [hidle, matchedPiece]))
    · exact Or.inl (announced_of_keeps hp hc (by simp [hidle, matchedPiece]))
  | getPieceManager c env =>
    obtain ⟨conn, p, off, data, v, reply, hc, hreader, hv, ⟨mgr, -, rfl⟩ | ⟨-, rfl⟩⟩ :=
      getPieceManager_eq_some hu
    · rw [← (hhandle hv).1] at hc
      exact Or.inl (announced_of_keeps (hhandle hv).2 hc (by simp [hreader, matchedPiece]))
    · rw [← (hhandle hv).1] at hc
      exact Or.inl (announced_of_keeps (hhandle hv).2 hc (by simp [hreader, matchedPiece]))
  | blockRecived c =>
    obtain ⟨conn, mgr, p', off, data, tracked, hc, hreader, ⟨a, slot, reader, ha, hafter, rfl⟩ |
      ⟨-, rfl⟩⟩ := blockRecived_event_eq_some hu
    · exact Or.inl (announced_of_keeps
        (s := { s with pieceActors := s.pieceActors.set mgr.send slot }) hp hc
        (by simp [hreader, matchedPiece]))
    · exact Or.inl (announced_of_keeps hp hc (by simp [hreader, matchedPiece]))
  | pieceFinish c =>
    obtain ⟨conn, p', tracked, hc, hreader, rfl⟩ := pieceFinish_event_eq_some hu
    exact Or.inl (announced_pieceFinish hc hreader hp _)
  | removeRequest c =>
    obtain ⟨conn, p', hc, hreader, rfl⟩ := removeRequest_eq_some hu
    exact Or.inl (announced_of_keeps hp hc (by simp [hreader, matchedPiece]))
  | pieceActor send e =>
    obtain ⟨-, a, b, reply, -, -, rfl⟩ := pieceEvent_eq_some hu
    exact Or.inl hp
  | pieceFinishBegin k =>
    obtain ⟨-, q, p', manager, last, hk, hbegin, rfl⟩ := pieceFinishBegin_event_eq_some hu
    by_cases hne : p = p'
    · exact Or.inr (hne ▸ (pieceFinishBegin_owned hbegin).1)
    · exact Or.inl (announced_eraseIdx hk hp hne)
  | flushRound io =>
    obtain ⟨p', job, disk, ended, job', result, -, -, -, -, rfl⟩ := flushRound_event_moves hu
    exact Or.inl hp
  | pieceFinishEnd =>
    obtain ⟨p', job, flushed, -, rfl⟩ := pieceFinishEnd_event_eq_some hu
    exact Or.inl hp

end Fissure.Analysis
