import Fissure.Analysis.RequestWindow
import Fissure.Analysis.SystemInvariant

/-!
# Every request is legal

A `Request` is put together far from where its piece was chosen. The manager chooses the piece and
hands out its shared manager, the piece actor behind that cuts the blocks, and in between the shared
manager waits in the connection's map, which the watchdog prunes and the writer refills. What the
writer holds was assigned to the connection, manages a piece of the torrent and is served by the
actor of that piece (`Workable`); `RequestsInv` carries this through all steps, and with it that
every `Request` names an assigned piece and a block of it (`requests_legal`).
-/

set_option autoImplicit false

namespace Fissure.Analysis

open Fissure.Library Fissure.Model
open Fissure.Model.PieceRequestManagerActor

variable {torrent : ClientTorrentMetaInfo} {options : PeerOptions} {peerId : String}
variable {sha1 : Bytes → Bytes} {s t : PeerFsm} {H H' : ℕ → Prop}

/-! ## What is held and what is sent -/

/-- A request for a block of a piece of the torrent. -/
structure LegalRequest (m : MetaInfo) (pieceIndex blockOffset length : ℕ) : Prop where
  index_lt : pieceIndex < m.pieceCount
  length_pos : 0 < length
  length_le : length ≤ 16384
  offset_aligned : blockOffset % 16384 = 0
  inside : ∃ pieceLength, m.getPieceLength pieceIndex = some pieceLength ∧
    blockOffset + length ≤ pieceLength

/-- The manager answers the writer's `RequestWork` for peer `q` with piece `p`, which is in the
bitfield recorded for `q` and not owned. -/
def Assigns (q : String) (p : ℕ) (s : PeerFsm) (e : FsmEvent) : Prop :=
  Holds s.manager q p ∧ ¬ Owned s.manager p ∧ ∃ env rest manager mgr, e = .handle env ∧
    s.mailbox = ⟨.writer, .requestWork q⟩ :: rest ∧
    managerStep s.manager (.requestWork q, { env with fresh := s.pieceActors.length }) =
      some (manager, .work (some mgr)) ∧ mgr.index = p

/-- The shared managers that the writer holds outside of `active_requests`. -/
def heldBy : WriterTask → List PieceRequestManager
  | .granted _ req => [req]
  | .trying _ _ candidates => candidates
  | _ => []

/-- The messages that the writer has still to send for the blocks it was handed out. -/
def queued : WriterTask → List PeerMessage
  | .sending _ c reqPieces | .sent _ c reqPieces => reqPieces.map (PeerFsm.requestOf c)
  | _ => []

/-- The writer may take blocks from this manager: its piece was assigned, and the actor of the piece
serves it. -/
structure Workable (m : MetaInfo) (H : ℕ → Prop) (actors : List (Option PieceRequestManagerActor))
    (mgr : PieceRequestManager) : Prop where
  assigned : H mgr.index
  index_lt : mgr.index < m.pieceCount
  manages : ManagesPiece m mgr.index mgr
  served : ServedBy actors mgr

/-- The invariant of the requests of a connection. -/
structure RequestsInv (torrent : ClientTorrentMetaInfo) (options : PeerOptions) (peerId : String)
    (H : ℕ → Prop) (s : PeerFsm) : Prop where
  manager : ManagerInv torrent options s.manager
  peerId_eq : s.peerId = peerId
  mail : ∀ mail ∈ s.mailbox, mail.sender = .writer → mail.msg = .requestWork peerId
  active : ∀ p mgr, s.manager.activePiecesManager.lookup p = some mgr → ServedBy s.pieceActors mgr
  requests : ∀ p mgr, s.activeRequests.lookup p = some mgr →
    Workable torrent.rawTorrent H s.pieceActors mgr
  held : ∀ mgr ∈ heldBy s.writer, Workable torrent.rawTorrent H s.pieceActors mgr
  legal : ∀ i off len, PeerMessage.request i off len ∈ s.sent ++ queued s.writer →
    H i ∧ LegalRequest torrent.rawTorrent i off len

@[simp] theorem heldBy_returns (pass : TopOff) (progressed : Bool) :
    heldBy (pass.returns progressed) = [] := by
  unfold TopOff.returns
  split_ifs <;> rfl

@[simp] theorem queued_returns (pass : TopOff) (progressed : Bool) :
    queued (pass.returns progressed) = [] := by
  unfold TopOff.returns
  split_ifs <;> rfl

@[simp] theorem heldBy_tryNext (pass : TopOff) (availableWindow : ℕ)
    (candidates : List PieceRequestManager) :
    heldBy (pass.tryNext availableWindow candidates) = candidates := by
  cases candidates with
  | nil => simp [TopOff.tryNext]
  | cons c candidates => rfl

@[simp] theorem queued_tryNext (pass : TopOff) (availableWindow : ℕ)
    (candidates : List PieceRequestManager) :
    queued (pass.tryNext availableWindow candidates) = [] := by
  cases candidates with
  | nil => simp [TopOff.tryNext]
  | cons c candidates => rfl

@[simp] theorem heldBy_sendNext (pass : TopOff) (c : PieceRequestManager)
    (reqPieces : List (ℕ × ℕ)) : heldBy (pass.sendNext c reqPieces) = [] := by
  cases reqPieces with
  | nil => simp [TopOff.sendNext]
  | cons p reqPieces => rfl

@[simp] theorem queued_sendNext (pass : TopOff) (c : PieceRequestManager)
    (reqPieces : List (ℕ × ℕ)) :
    queued (pass.sendNext c reqPieces) = reqPieces.map (PeerFsm.requestOf c) := by
  cases reqPieces with
  | nil => simp [TopOff.sendNext]
  | cons p reqPieces => rfl

@[simp] theorem queued_receives (task : WriterTask) (sender : Sender)
    (reply : TorrentManagerReply) : queued (task.receives sender reply) = queued task := by
  unfold WriterTask.receives
  split <;> rfl

/-- INTERNAL: the writer gets a manager only in the answer to its own message. -/
theorem mem_heldBy_receives {task : WriterTask} {sender : Sender} {reply : TorrentManagerReply}
    {mgr : PieceRequestManager} (h : mgr ∈ heldBy (task.receives sender reply)) :
    mgr ∈ heldBy task ∨ sender = .writer ∧ reply = .work (some mgr) := by
  unfold WriterTask.receives at h
  split at h
  · cases h
  · rw [List.mem_singleton.mp h]
    exact Or.inr ⟨rfl, rfl⟩
  · cases h
  · exact Or.inl h

/-! ## Piece actors -/

theorem getElem?_of_pieceActor {send : ℕ} {a : PieceRequestManagerActor}
    (h : s.pieceActor send = some a) : s.pieceActors[send]? = some (some a) := by
  unfold PeerFsm.pieceActor at h
  rwa [Option.join_eq_some_iff] at h

theorem ServedBy.spawned {mgr : PieceRequestManager} (h : ServedBy s.pieceActors mgr)
    (reply : TorrentManagerReply) : ServedBy (s.spawned reply) mgr := by
  unfold PeerFsm.spawned
  split
  · split_ifs
    · exact h.append _
    · exact h
  · exact h

/-- INTERNAL: a block that is handed out lies in the piece.
SOURCE: piece_manager.rs:28-33, piece_manager.rs:77-97 -/
theorem block_inside {a a' : PieceRequestManagerActor} {k : ℕ} {clock : ℕ → Instant}
    {reqPieces : List (ℕ × ℕ)} (h : a.blocksToRequest k clock = (a', reqPieces)) {off len : ℕ}
    (hmem : (off, len) ∈ reqPieces) :
    0 < len ∧ len ≤ 16384 ∧ off % 16384 = 0 ∧ off + len ≤ a.data.length := by
  have hout := (handedOut_blocksToRequest a k clock).2
  rw [h] at hout
  rw [show reqPieces = _ from hout] at hmem
  obtain ⟨i, hi, heq⟩ := List.mem_map.mp hmem
  obtain ⟨rfl, rfl⟩ := Prod.mk.inj heq
  have hlt := lt_of_requestable (requestable_of_mem_blocksHandedOut hi)
  have hinside := lt_noOfBlocks_iff.mp hlt
  have hnext : i + 1 < noOfBlocks a.data.length ↔ (i + 1) * 16384 < a.data.length :=
    lt_noOfBlocks_iff
  unfold blockLength convertBlockIndexToOffset blockSize
  rw [a.length_required, a.lastPieceSize_eq]
  split_ifs with hlast
  · -- the last block: the next one would begin at or beyond the end
    unfold lastBlockSize
    split_ifs <;> omega
  · omega

theorem hash_length_of_blocksToRequest {a a' : PieceRequestManagerActor} {k : ℕ}
    {clock : ℕ → Instant} {reqPieces : List (ℕ × ℕ)}
    (h : a.blocksToRequest k clock = (a', reqPieces)) :
    a'.hash = a.hash ∧ a'.data.length = a.data.length := by
  have hout := (handedOut_blocksToRequest a k clock).1
  rw [h] at hout
  exact ⟨hout.hash, by rw [hout.data]⟩

theorem hash_length_of_afterBlock {a a' : PieceRequestManagerActor} {i off : ℕ} {data : Bytes}
    {tracked : Bool} {reader : ReaderTask}
    (h : PeerFsm.afterBlock sha1 a i off data tracked = (some a', reader)) :
    a'.hash = a.hash ∧ a'.data.length = a.data.length := by
  have hkeeps {b : PieceRequestManagerActor} {outcome : BlockOutcome}
      (hb : a.blockRecived sha1 off data = some (b, outcome)) :
      b.hash = a.hash ∧ b.data.length = a.data.length := by
    obtain ⟨hdata, hhash⟩ := (blockRecived_eq_some hb).2.data_eq
    exact ⟨hhash, by rw [hdata, length_storedData]⟩
  unfold PeerFsm.afterBlock at h
  split at h
  · next hb =>
    cases h
    exact hkeeps hb
  · next hb =>
    cases h
    exact hkeeps hb
  · cases h

/-- INTERNAL: a shared manager stays served by the actor of its piece. -/
theorem servedBy_step {mgr : PieceRequestManager} {e : FsmEvent} {r : Unit}
    (h : ServedBy s.pieceActors mgr) (hstep : fsmStep sha1 s e = some (t, r)) :
    ServedBy t.pieceActors mgr := by
  cases fsmMove hstep with
  | register | elsewhere => exact h
  | handle => exact h.spawned _
  | @pieceActor k e a ha =>
    apply h.set (getElem?_of_pieceActor ha)
    intro a' ha'
    obtain ⟨⟨b, r⟩, hb, rfl⟩ := Option.map_eq_some_iff.mp ha'
    exact hash_length_of_pieceStep hb
  | writer hmove =>
    cases hmove with
    | noBlocks hw ha hblocks | blocks hw ha hblocks =>
      apply h.set (getElem?_of_pieceActor ha)
      rintro _ ⟨⟩
      exact hash_length_of_blocksToRequest hblocks
    | _ => exact h
  | reader hmove =>
    cases hmove with
    | delivered hr ha hafter =>
      apply h.set (getElem?_of_pieceActor ha)
      rintro a' rfl
      exact hash_length_of_afterBlock hafter
    | _ => exact h
  | watchdog hmove => cases hmove <;> exact h

/-- INTERNAL: the active managers are served by the actors of their pieces, those that the manager
makes included.
SOURCE: torrent_manager.rs:197-216, piece_manager.rs:252-262 -/
theorem served_managerStep {msg : TorrentManagerMessage} {env : Env}
    {manager : TorrentManagerActor} {reply : TorrentManagerReply}
    (h : ∀ p mgr, s.manager.activePiecesManager.lookup p = some mgr → ServedBy s.pieceActors mgr)
    (hmanager : managerStep s.manager (msg, { env with fresh := s.pieceActors.length }) =
      some (manager, reply)) {p : ℕ} {mgr : PieceRequestManager}
    (hmgr : manager.activePiecesManager.lookup p = some mgr) : ServedBy (s.spawned reply) mgr := by
  cases managerEffect hmanager with
  | registered | announced | had | expired => exact (h p mgr hmgr).spawned _
  | unchanged => exact (h p mgr hmgr).spawned _
  | @finished q p' =>
    change (s.manager.activePiecesManager.erase p').lookup p = some mgr at hmgr
    rw [HashMap.lookup_erase_eq] at hmgr
    split_ifs at hmgr
    exact (h p mgr hmgr).spawned _
  | @assigned q b p' count work m hb hfind hcount hwork hm =>
    change (s.manager.activePiecesManager.insert p' m).lookup p = some mgr at hmgr
    rw [HashMap.lookup_insert_eq] at hmgr
    split_ifs at hmgr with hp
    · cases hmgr
      unfold ManagerOf at hm
      split at hm
      · next active hactive =>
        rw [hm]
        exact (h p' active hactive).spawned _
      · obtain ⟨sha1Hash, pieceLength, -, -, rfl⟩ := hm
        have hsend : (⟨p', sha1Hash, pieceLength, s.pieceActors.length⟩ : PieceRequestManager).send =
            s.pieceActors.length := rfl
        unfold PeerFsm.spawned
        dsimp only
        rw [if_pos rfl]
        exact servedBy_append_new hsend _
    · exact (h p mgr hmgr).spawned _

/-! ## The invariant -/

theorem Workable.mono {m : MetaInfo} {actors actors' : List (Option PieceRequestManagerActor)}
    {mgr : PieceRequestManager} (h : Workable m H actors mgr) (hH : ∀ p, H p → H' p)
    (hactors : ServedBy actors' mgr) : Workable m H' actors' mgr :=
  ⟨hH _ h.assigned, h.index_lt, h.manages, hactors⟩

/-- INTERNAL: the only message of the writer to the manager is its `RequestWork`.
SOURCE: peer_protocol_state_machine.rs:132 -/
theorem mail_step {e : FsmEvent} {r : Unit} (hstep : fsmStep sha1 s e = some (t, r))
    (h : ∀ mail ∈ s.mailbox, mail.sender = .writer → mail.msg = .requestWork s.peerId) :
    t.peerId = s.peerId ∧
      ∀ mail ∈ t.mailbox, mail.sender = .writer → mail.msg = .requestWork s.peerId := by
  have hsend (sender : Sender) (msg : TorrentManagerMessage)
      (hmsg : sender = .writer → msg = .requestWork s.peerId) :
      ∀ mail ∈ s.mailbox ++ [⟨sender, msg⟩],
        mail.sender = .writer → mail.msg = .requestWork s.peerId := by
    intro mail hmail hwriter
    rcases List.mem_append.mp hmail with hmail | hmail
    · exact h mail hmail hwriter
    · rw [List.mem_singleton.mp hmail] at hwriter ⊢
      exact hmsg hwriter
  cases fsmMove hstep with
  | register | elsewhere => exact ⟨rfl, hsend _ _ nofun⟩
  | handle hmail =>
    refine ⟨rfl, fun mail hmem => h mail ?_⟩
    rw [hmail]
    exact List.mem_cons_of_mem _ hmem
  | pieceActor => exact ⟨rfl, h⟩
  | writer hmove =>
    cases hmove with
    | asks => exact ⟨rfl, hsend _ _ fun _ => rfl⟩
    | _ => exact ⟨rfl, h⟩
  | reader hmove =>
    cases hmove with
    | had | bitfield | askUseful | untracked | pieceFinish => exact ⟨rfl, hsend _ _ nofun⟩
    | _ => exact ⟨rfl, h⟩
  | watchdog hmove =>
    cases hmove with
    | tick => exact ⟨rfl, hsend _ _ nofun⟩
    | _ => exact ⟨rfl, h⟩

/-- INTERNAL: what is inserted into `active_requests` was granted to the writer.
SOURCE: peer_protocol_state_machine.rs:132-134, peer_protocol_state_machine.rs:203 -/
theorem requests_step {e : FsmEvent} {r : Unit} (hstep : fsmStep sha1 s e = some (t, r)) {p : ℕ}
    {mgr : PieceRequestManager} (h : t.activeRequests.lookup p = some mgr) :
    s.activeRequests.lookup p = some mgr ∨
      p = mgr.index ∧ ∃ isChoked, s.writer = .granted isChoked mgr := by
  cases fsmMove hstep with
  | writer hmove =>
    cases hmove with
    | @insertRequest isChoked req hw =>
      change (s.activeRequests.insert req.index req).lookup p = some mgr at h
      rw [HashMap.lookup_insert_eq] at h
      split_ifs at h with hp
      · cases h
        exact Or.inr ⟨hp, isChoked, hw⟩
      · exact Or.inl h
    | _ => exact Or.inl h
  | reader hmove =>
    cases hmove with
    | @removes i =>
      change (s.activeRequests.erase i).lookup p = some mgr at h
      rw [HashMap.lookup_erase_eq] at h
      split_ifs at h
      exact Or.inl h
    | _ => exact Or.inl h
  | watchdog hmove =>
    cases hmove with
    | @prune active =>
      change (PeerFsm.retainActive s.activeRequests active).lookup p = some mgr at h
      rw [lookup_retainActive] at h
      split_ifs at h
      exact Or.inl h
    | _ => exact Or.inl h
  | _ => exact Or.inl h

/-- INTERNAL: the candidates of the writer are taken from `active_requests`.
SOURCE: peer_protocol_state_machine.rs:47-60 -/
theorem heldBy_writer {a : WriterAct} (hmove : WriterTaskMove s a t) {mgr : PieceRequestManager}
    (h : mgr ∈ heldBy t.writer) :
    mgr ∈ heldBy s.writer ∨ ∃ p, s.activeRequests.lookup p = some mgr := by
  cases hmove with
  | @pick pass availableWindow order =>
    rw [heldBy_tryNext, List.mem_filterMap] at h
    obtain ⟨p, -, hp⟩ := h
    exact Or.inr ⟨p, hp⟩
  | noBlocks hw | gone hw =>
    rw [heldBy_tryNext] at h
    rw [hw]
    exact Or.inl (List.mem_cons_of_mem _ h)
  | windowShut => simp at h
  | countRequest => simp at h
  | _ => cases h

/-- INTERNAL: a message that the writer has to send or has sent was so before, or it asks for a
block of the candidate that it was just handed out.
SOURCE: peer_protocol_state_machine.rs:60-78 -/
theorem sent_writer {a : WriterAct} (hmove : WriterTaskMove s a t) {i off len : ℕ}
    (h : PeerMessage.request i off len ∈ t.sent ++ queued t.writer) :
    PeerMessage.request i off len ∈ s.sent ++ queued s.writer ∨
      ∃ c a a' k clock reqPieces, c ∈ heldBy s.writer ∧ c.index = i ∧
        s.pieceActor c.send = some a ∧ a.blocksToRequest k clock = (a', reqPieces) ∧
        (off, len) ∈ reqPieces := by
  cases hmove with
  | @blocks pass availableWindow c candidates clock a a' reqPieces hw ha hblocks hne =>
    rcases List.mem_append.mp h with h | h
    · exact Or.inl (List.mem_append_left _ h)
    · obtain ⟨⟨off', len'⟩, hmem, heq⟩ := List.mem_map.mp h
      unfold PeerFsm.requestOf at heq
      cases heq
      right
      rw [hw]
      exact ⟨c, a, a', _, clock, reqPieces, List.mem_cons_self, rfl, ha, hblocks, hmem⟩
  | sendBitfield hw | sendInterested hw =>
    left
    simpa [queued, hw] using h
  | sendRequest hw =>
    left
    simpa [queued, hw] using h
  | countRequest hw =>
    rw [queued_sendNext] at h
    rw [hw]
    exact Or.inl h
  | windowShut hw =>
    rw [queued_returns, List.append_nil] at h
    exact Or.inl (List.mem_append_left _ h)
  | pick hw | noBlocks hw | gone hw =>
    rw [queued_tryNext, List.append_nil] at h
    exact Or.inl (List.mem_append_left _ h)
  | fails => exact Or.inl (List.mem_append_left _ (by simpa [queued] using h))
  | _ hw =>
    left
    simpa [queued, hw] using h

/-- INTERNAL: what is not the manager's answer keeps the invariant.
SOURCE: peer_protocol_state_machine.rs:30-148, peer_protocol_state_machine.rs:180-210 -/
theorem RequestsInv.keeps {e : FsmEvent} {r : Unit}
    (h : RequestsInv torrent options peerId H s) (hstep : fsmStep sha1 s e = some (t, r))
    (hmanager : t.manager = s.manager)
    (hheld : ∀ mgr ∈ heldBy t.writer,
      mgr ∈ heldBy s.writer ∨ ∃ p, s.activeRequests.lookup p = some mgr)
    (hlegal : ∀ i off len, PeerMessage.request i off len ∈ t.sent ++ queued t.writer →
      PeerMessage.request i off len ∈ s.sent ++ queued s.writer ∨
        H i ∧ LegalRequest torrent.rawTorrent i off len) :
    RequestsInv torrent options peerId H t := by
  have hmail := h.mail
  rw [← h.peerId_eq] at hmail
  obtain ⟨hpeer, hmail⟩ := mail_step hstep hmail
  rw [h.peerId_eq] at hpeer hmail
  have hworkable (mgr : PieceRequestManager)
      (hmgr : mgr ∈ heldBy s.writer ∨ ∃ p, s.activeRequests.lookup p = some mgr) :
      Workable torrent.rawTorrent H t.pieceActors mgr := by
    have hold : Workable torrent.rawTorrent H s.pieceActors mgr := by
      rcases hmgr with hmgr | ⟨p, hmgr⟩
      · exact h.held mgr hmgr
      · exact h.requests p mgr hmgr
    exact hold.mono (fun _ hp => hp) (servedBy_step hold.served hstep)
  refine ⟨hmanager ▸ h.manager, hpeer, hmail, ?_, ?_, ?_, ?_⟩
  · intro p mgr hmgr
    rw [hmanager] at hmgr
    exact servedBy_step (h.active p mgr hmgr) hstep
  · intro p mgr hmgr
    rcases requests_step hstep hmgr with hmgr | ⟨-, isChoked, hw⟩
    · exact hworkable mgr (Or.inr ⟨p, hmgr⟩)
    · exact hworkable mgr (Or.inl (by simp [hw, heldBy]))
  · intro mgr hmgr
    exact hworkable mgr (hheld mgr hmgr)
  · intro i off len hmem
    rcases hlegal i off len hmem with hold | hnew
    · exact h.legal i off len hold
    · exact hnew

/-- INTERNAL: the blocks of a candidate are blocks of a piece that was assigned. -/
theorem Workable.legalRequest {m : MetaInfo} {c : PieceRequestManager}
    (h : Workable m H s.pieceActors c) {a a' : PieceRequestManagerActor} {k : ℕ}
    {clock : ℕ → Instant} {reqPieces : List (ℕ × ℕ)} (ha : s.pieceActor c.send = some a)
    (hblocks : a.blocksToRequest k clock = (a', reqPieces)) {off len : ℕ}
    (hmem : (off, len) ∈ reqPieces) : H c.index ∧ LegalRequest m c.index off len := by
  obtain ⟨hpos, hle, haligned, hinside⟩ := block_inside hblocks hmem
  obtain ⟨slot, hslot, hserves⟩ := h.served
  rw [getElem?_of_pieceActor ha, Option.some.injEq] at hslot
  rw [(hserves a hslot.symm).2] at hinside
  exact ⟨h.assigned, h.index_lt, hpos, hle, haligned, _, h.manages.pieceLength_eq, hinside⟩

/-- INTERNAL: the piece that the writer is granted was assigned to it, and its manager is served.
SOURCE: torrent_manager.rs:127-228 -/
theorem RequestsInv.granted {env : Env} {msg : TorrentManagerMessage} {mailbox : List Mail}
    {manager : TorrentManagerActor} {mgr : PieceRequestManager}
    (hmeta : torrent.rawTorrent.Consistent) (h : RequestsInv torrent options peerId H s)
    (hhead : s.mailbox = ⟨.writer, msg⟩ :: mailbox)
    (hmanager : managerStep s.manager (msg, { env with fresh := s.pieceActors.length }) =
      some (manager, .work (some mgr))) :
    Workable torrent.rawTorrent (fun p => Assigns peerId p s (.handle env))
      (s.spawned (.work (some mgr))) mgr := by
  have hmsg : msg = .requestWork peerId := by
    apply h.mail ⟨.writer, msg⟩ _ rfl
    rw [hhead]
    exact List.mem_cons_self
  subst hmsg
  have hinv := managerInv_step h.manager hmanager
  have hserved (p : ℕ) (hp : manager.activePiecesManager.lookup p = some mgr) :
      ServedBy (s.spawned (.work (some mgr))) mgr := served_managerStep h.active hmanager hp
  have hstep := hmanager
  cases managerEffect hmanager with
  | unchanged _ _ hr => exact absurd rfl (hr mgr)
  | @assigned q b p count work m hb hfind hcount hwork hm =>
    have hsel := selectable_iff.mp (List.find?_some hfind)
    have hlookup : (s.manager.activePiecesManager.insert p mgr).lookup p = some mgr :=
      Finmap.lookup_insert _
    obtain ⟨hmanages, hlt, -⟩ := hinv.active p mgr hlookup
    have hcount := hinv.length_frequency hmeta.toWellSized
    rw [hcount] at hlt
    have hindex := hmanages.index_eq
    subst hindex
    exact ⟨⟨⟨b, hb, hsel.held⟩, ne_true_of_eq_false hsel.unowned, env, mailbox, _, mgr, rfl, hhead,
      hstep, rfl⟩, hlt, hmanages, hserved _ hlookup⟩

/-- INTERNAL: the manager's answer keeps the invariant, and what it grants the writer is assigned.
SOURCE: torrent_manager.rs:127-228 -/
theorem RequestsInv.handle {env : Env} {r : Unit} (hmeta : torrent.rawTorrent.Consistent)
    (h : RequestsInv torrent options peerId H s)
    (hstep : fsmStep sha1 s (.handle env) = some (t, r)) :
    RequestsInv torrent options peerId (fun p => H p ∨ Assigns peerId p s (.handle env)) t := by
  have hmail := h.mail
  rw [← h.peerId_eq] at hmail
  obtain ⟨hpeer, hmail⟩ := mail_step hstep hmail
  rw [h.peerId_eq] at hpeer hmail
  have hworkable (mgr : PieceRequestManager)
      (hold : Workable torrent.rawTorrent H s.pieceActors mgr) :
      Workable torrent.rawTorrent (fun p => H p ∨ Assigns peerId p s (.handle env)) t.pieceActors
        mgr := hold.mono (fun _ => Or.inl) (servedBy_step hold.served hstep)
  cases fsmMove hstep with
  | @handle _ sender msg mailbox manager reply hhead hmanager =>
    have hinv := managerInv_step h.manager hmanager
    refine ⟨hinv, hpeer, hmail, fun p mgr hmgr => served_managerStep h.active hmanager hmgr,
      fun p mgr hmgr => hworkable mgr (h.requests p mgr hmgr), ?_, ?_⟩
    · intro mgr hmgr
      rcases mem_heldBy_receives hmgr with hmgr | ⟨rfl, rfl⟩
      · exact hworkable mgr (h.held mgr hmgr)
      · have hgranted := h.granted hmeta hhead hmanager
        exact hgranted.mono (fun _ => Or.inr) hgranted.served
    · intro i off len hmem
      change PeerMessage.request i off len ∈ s.sent ++ queued (s.writer.receives sender reply)
        at hmem
      rw [queued_receives] at hmem
      obtain ⟨hassigned, hlegal⟩ := h.legal i off len hmem
      exact ⟨Or.inl hassigned, hlegal⟩

theorem RequestsInv.mono (h : RequestsInv torrent options peerId H s) (hH : ∀ p, H p → H' p) :
    RequestsInv torrent options peerId H' s where
  manager := h.manager
  peerId_eq := h.peerId_eq
  mail := h.mail
  active := h.active
  requests p mgr hmgr := (h.requests p mgr hmgr).mono hH (h.requests p mgr hmgr).served
  held mgr hmgr := (h.held mgr hmgr).mono hH (h.held mgr hmgr).served
  legal i off len hmem := (h.legal i off len hmem).imp_left (hH i)

/-- INTERNAL: every step keeps the invariant. -/
theorem requestsInv_step {e : FsmEvent} {r : Unit} (hmeta : torrent.rawTorrent.Consistent)
    (h : RequestsInv torrent options peerId H s) (hstep : fsmStep sha1 s e = some (t, r)) :
    RequestsInv torrent options peerId (fun p => H p ∨ Assigns peerId p s e) t := by
  have hsame (hmanager : t.manager = s.manager) (hwriter : t.writer = s.writer)
      (hsent : t.sent = s.sent) : RequestsInv torrent options peerId H t := by
    apply h.keeps hstep hmanager
    · intro mgr hmgr
      exact Or.inl (hwriter ▸ hmgr)
    · intro i off len hmem
      rw [hwriter, hsent] at hmem
      exact Or.inl hmem
  have hmove := fsmMove hstep
  cases e with
  | handle env => exact h.handle hmeta hstep
  | writer a =>
    cases hmove with
    | writer hmove =>
      refine (h.keeps hstep (manager_writer hmove) ?_ ?_).mono fun _ => Or.inl
      · intro mgr hmgr
        exact heldBy_writer hmove hmgr
      · intro i off len hmem
        refine (sent_writer hmove hmem).imp_right ?_
        rintro ⟨c, a, a', k, clock, reqPieces, hc, rfl, ha, hblocks, hmem⟩
        exact (h.held c hc).legalRequest ha hblocks hmem
  | reader a =>
    cases hmove with
    | reader hmove =>
      obtain ⟨hmanager, hwriter, hsent⟩ := rest_reader hmove
      exact (hsame hmanager hwriter hsent).mono fun _ => Or.inl
  | watchdog a =>
    cases hmove with
    | watchdog hmove =>
      obtain ⟨hmanager, hwriter, hsent⟩ := rest_watchdog hmove
      exact (hsame hmanager hwriter hsent).mono fun _ => Or.inl
  | register =>
    cases hmove with
    | register hw =>
      refine (h.keeps hstep rfl nofun ?_).mono fun _ => Or.inl
      intro i off len hmem
      rw [hw]
      exact Or.inl hmem
  | elsewhere msg =>
    cases hmove
    exact (hsame rfl rfl rfl).mono fun _ => Or.inl
  | pieceActor k e =>
    cases hmove
    exact (hsame rfl rfl rfl).mono fun _ => Or.inl

theorem requestsInv_new (h : PeerFsm.new torrent options peerId = some s) :
    RequestsInv torrent options peerId (fun _ => False) s := by
  obtain ⟨manager, hmanager, rfl⟩ := fsm_new_eq_some h
  refine ⟨managerInv_new hmanager, rfl, nofun, ?_, ?_, nofun, nofun⟩
  · intro p mgr hmgr
    rw [lookup_active_new hmanager] at hmgr
    cases hmgr
  · intro p mgr hmgr
    rw [Finmap.lookup_empty] at hmgr
    cases hmgr

/-- **Every `Request` sent is a legal one.** Let the metainfo be consistent, with a piece length and a
number of pieces of at most `2 ^ 32`. In every run of a connection, each `Request` that the writer
has sent names a piece that the manager assigned to it in the run, when the bitfield recorded for
the peer had the piece and the piece was not owned; and it asks for at most 16384 bytes, at least
one, at a multiple of 16384, that lie within the piece, in fields of 32 bits.
SOURCE: peer_protocol_state_machine.rs:30-148, torrent_manager.rs:127-228, piece_manager.rs:77-97,
torrent_meta.rs:98-126 -/
theorem requests_legal (hmeta : torrent.rawTorrent.Consistent)
    (hlength : torrent.rawTorrent.info.pieceLength ≤ 2 ^ 32)
    (hnumber : torrent.rawTorrent.pieceCount ≤ 2 ^ 32) {start : PeerFsm}
    (hstart : PeerFsm.new torrent options peerId = some start) {es : List FsmEvent}
    (hrun : run (fsmStep sha1) start es = some s) {i off len : ℕ}
    (hsent : PeerMessage.request i off len ∈ s.sent) :
    Occurs (fsmStep sha1) (Assigns peerId i) start es ∧
      LegalRequest torrent.rawTorrent i off len ∧ i < 2 ^ 32 ∧ off < 2 ^ 32 ∧ len < 2 ^ 32 := by
  have hinv := run_history (RequestsInv torrent options peerId)
    (fun H _ _ _ _ h hstep => requestsInv_step hmeta h hstep) (requestsInv_new hstart) hrun
  obtain ⟨hassigned, hlegal⟩ := hinv.legal i off len (List.mem_append_left _ hsent)
  refine ⟨hassigned.resolve_left id, hlegal, hlegal.index_lt.trans_le hnumber, ?_, ?_⟩
  · obtain ⟨pieceLength, hpiece, hinside⟩ := hlegal.inside
    rw [MetaInfo.getPieceLength_eq hmeta.toWellSized hlegal.index_lt] at hpiece
    have hle : torrent.rawTorrent.pieceLen i ≤ torrent.rawTorrent.info.pieceLength :=
      Nat.min_le_left _ _
    have hpos := hlegal.length_pos
    cases hpiece
    omega
  · have hle := hlegal.length_le
    omega

/-- The block of the one piece is asked for. -/
def requestRun : List FsmEvent := askForPiece ++ [.writer (.sendRequest true)]

/-- The state after that. -/
def requestSent : PeerFsm := (run (fsmStep fun _ => []) fsmStart requestRun).get (by decide +kernel)

/-- The `Request` for the block. -/
theorem requests_legal_one_piece :
    Occurs (fsmStep fun _ => []) (Assigns "peer" 0) fsmStart requestRun ∧
      LegalRequest (byteTorrent 1 (List.replicate 20 0)).rawTorrent 0 0 1 ∧
      0 < 2 ^ 32 ∧ 0 < 2 ^ 32 ∧ 1 < 2 ^ 32 := by
  have hrun : run (fsmStep fun _ => []) fsmStart requestRun = some requestSent :=
    (Option.some_get _).symm
  exact requests_legal (consistent_byteTorrent (by decide) (by decide)) (by decide)
    (by decide +kernel) new_fsmStart hrun (by decide +kernel)

end Fissure.Analysis
