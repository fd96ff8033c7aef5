import Fissure.Analysis.VerifiedPersistence

/-!
# One buffer for each piece

A book records for each piece the one manager that was ever made for it. The active managers, the
requests of the connections, the answers under way and the flush in progress all refer to what is
in the book (`OneBuffer`), and a step only adds to it, for a wanted piece that has no manager yet
(`oneBuffer_step`). So two references to managers of the same piece are the same, wherever they
are held and however many steps lie between them (`one_buffer_per_piece`).
-/

set_option autoImplicit false

namespace Fissure.Analysis

open Fissure.Library Fissure.Model
open Fissure.Model.TorrentSystem

/-- The manager made for each piece, if one was. -/
abbrev Book := ℕ → Option PieceRequestManager

/-- The second book has all that is in the first one. -/
def Extends (book book' : Book) : Prop := ∀ p mgr, book p = some mgr → book' p = some mgr

/-- What a connection refers to as the manager of piece `p`. -/
inductive Refers (conn : Connection) : ℕ → PieceRequestManager → Prop
  | request {p : ℕ} {mgr : PieceRequestManager} (h : conn.activeRequests.lookup p = some mgr) :
    Refers conn p mgr
  | granted {mgr : PieceRequestManager} (h : conn.granted = some mgr) : Refers conn mgr.index mgr
  | sending {mgr : PieceRequestManager} {p blockOffset : ℕ} {data : Bytes} {tracked : Bool}
    (h : conn.reader = .sending mgr p blockOffset data tracked) : Refers conn p mgr

/-- What is referred to anywhere in the system as the manager of piece `p`. -/
inductive Held (s : TorrentSystem) : ℕ → PieceRequestManager → Prop
  | active {p : ℕ} {mgr : PieceRequestManager}
    (h : s.manager.activePiecesManager.lookup p = some mgr) : Held s p mgr
  | connection {conn : Connection} {p : ℕ} {mgr : PieceRequestManager}
    (hconn : conn ∈ s.connections) (h : Refers conn p mgr) : Held s p mgr
  | finishing {f : PieceFinishing} (h : s.finishing = some f) : Held s f.index f.job.pieceManager

/-- The book has every manager that is referred to, under the piece it stands for, and it has
one for every piece actor. -/
def InBook (book : Book) (s : TorrentSystem) : Prop :=
  (∀ p mgr, Held s p mgr → mgr.index = p ∧ book p = some mgr) ∧
    ∀ send < s.pieceActors.length, ∃ p mgr, book p = some mgr ∧ mgr.send = send

/-- The active managers are in the book, and it has none for a wanted piece that is not active. -/
structure Stocked (book : Book) (s : TorrentManagerActor) : Prop where
  active : ∀ p mgr, s.activePiecesManager.lookup p = some mgr → book p = some mgr
  fresh : ∀ p, ¬ Owned s p → s.activePiecesManager.lookup p = none → book p = none

/-- All managers that a connection refers to are in the book. -/
def Booked (book : Book) (conn : Connection) : Prop :=
  ∀ p mgr, Refers conn p mgr → book p = some mgr

/-- The book has the managers of the piece actors, and no others. -/
structure Spawned (book : Book) (actors : List (Option PieceRequestManagerActor)) : Prop where
  index_eq : ∀ p mgr, book p = some mgr → mgr.index = p ∧ mgr.send < actors.length
  made : ∀ send < actors.length, ∃ p mgr, book p = some mgr ∧ mgr.send = send

/-- All managers that anyone in the system refers to are in the book. -/
structure OneBuffer (torrent : ClientTorrentMetaInfo) (options : PeerOptions) (book : Book)
    (s : TorrentSystem) : Prop where
  manager : ManagerInv torrent options s.manager
  stocked : Stocked book s.manager
  connections : ∀ conn ∈ s.connections, Booked book conn
  finishing : ∀ f, s.finishing = some f → book f.index = some f.job.pieceManager
  spawned : Spawned book s.pieceActors

theorem Extends.refl (book : Book) : Extends book book := fun _ _ h => h

theorem Extends.trans {book book' book'' : Book} (h : Extends book book')
    (h' : Extends book' book'') : Extends book book'' := fun p mgr hp => h' p mgr (h p mgr hp)

theorem extends_update {book : Book} {mgr : PieceRequestManager} (h : book mgr.index = none) :
    Extends book (Function.update book mgr.index (some mgr)) := by
  intro p mgr' hp
  rw [Function.update_of_ne]
  · exact hp
  · rintro rfl
    rw [h] at hp
    cases hp

theorem Booked.extends {book book' : Book} {conn : Connection} (h : Booked book conn)
    (hbook : Extends book book') : Booked book' conn := fun p mgr hmgr =>
  hbook p mgr (h p mgr hmgr)

theorem booked_new (book : Book) (peerId : String) : Booked book (.new peerId) := by
  rintro p mgr (h | h | h)
  · change (∅ : HashMap ℕ PieceRequestManager).lookup p = _ at h
    rw [Finmap.lookup_empty] at h
    cases h
  · cases h
  · cases h

variable {sha1 : Bytes → Bytes} {torrent : ClientTorrentMetaInfo} {options : PeerOptions}
  {book : Book} {s t : TorrentSystem}

theorem OneBuffer.held {p : ℕ} {mgr : PieceRequestManager}
    (h : OneBuffer torrent options book s) (hmgr : Held s p mgr) : book p = some mgr := by
  cases hmgr with
  | active hmgr => exact h.stocked.active p mgr hmgr
  | connection hconn hmgr => exact h.connections _ hconn p mgr hmgr
  | finishing hf => exact h.finishing _ hf

theorem OneBuffer.inBook {book' : Book} (h : OneBuffer torrent options book s)
    (hbook : Extends book book') : InBook book' s := by
  constructor
  · intro p mgr hmgr
    have hp := h.held hmgr
    exact ⟨(h.spawned.index_eq p mgr hp).1, hbook p mgr hp⟩
  · intro send hsend
    obtain ⟨p, mgr, hp, heq⟩ := h.spawned.made send hsend
    exact ⟨p, mgr, hbook p mgr hp, heq⟩

/-! ## The manager -/

/-- INTERNAL: a message other than `PieceFinish` hands out a manager in the book, or it makes the
first one of a wanted piece.
SOURCE: torrent_manager.rs:197-206 -/
theorem stocked_step {m m' : TorrentManagerActor} {msg : TorrentManagerMessage} {env : Env}
    {reply : TorrentManagerReply} (hinv : ManagerInv torrent options m) (hm : Stocked book m)
    (hmsg : finishes msg = none) (h : managerStep m (msg, env) = some (m', reply)) :
    (Stocked book m' ∧ ∀ mgr, reply = .work (some mgr) → book mgr.index = some mgr) ∨
      ∃ mgr, reply = .work (some mgr) ∧ mgr.send = env.fresh ∧ book mgr.index = none ∧
        Stocked (Function.update book mgr.index (some mgr)) m' := by
  obtain ⟨hlocal, -⟩ := owned_log_of_not_pieceFinish h hmsg
  have howned (p : ℕ) : Owned m' p ↔ Owned m p := by unfold Owned; rw [hlocal]
  rcases active_of_not_pieceFinish h hmsg with ⟨hactive, hreply⟩ |
    ⟨p, mgr, rfl, hnot, hof, hactive⟩
  · refine Or.inl ⟨⟨?_, ?_⟩, fun mgr hmgr => absurd hmgr (hreply mgr)⟩
    · rw [hactive]
      exact hm.active
    · intro p hp
      rw [hactive]
      exact hm.fresh p (mt (howned p).mpr hp)
  · unfold ManagerOf at hof
    cases hold : m.activePiecesManager.lookup p with
    | some active =>
      -- the piece has a manager, which is handed out again
      rw [hold] at hof
      subst hof
      rw [HashMap.insert_lookup_self hold] at hactive
      refine Or.inl ⟨⟨?_, ?_⟩, ?_⟩
      · rw [hactive]
        exact hm.active
      · intro p' hp'
        rw [hactive]
        exact hm.fresh p' (mt (howned p').mpr hp')
      · rintro _ ⟨⟩
        rw [(hinv.active p mgr hold).1.index_eq]
        exact hm.active p mgr hold
    | none =>
      rw [hold] at hof
      obtain ⟨sha1Hash, pieceLength, -, -, rfl⟩ := hof
      refine Or.inr ⟨_, rfl, rfl, hm.fresh p hnot hold, ⟨?_, ?_⟩⟩
      · intro p' mgr hp'
        rw [hactive, HashMap.lookup_insert_eq] at hp'
        rw [Function.update_apply]
        split_ifs at hp' ⊢
        · exact hp'
        · exact hm.active p' mgr hp'
      · intro p' hp' hnone
        rw [hactive, HashMap.lookup_insert_eq] at hnone
        split_ifs at hnone with hpp
        rw [Function.update_of_ne hpp]
        exact hm.fresh p' (mt (howned p').mpr hp') hnone

/-- INTERNAL: the beginning of a `PieceFinish` takes a manager out of the active ones, for a piece
that is not wanted any more.
SOURCE: torrent_manager.rs:238-263 -/
theorem stocked_pieceFinishBegin {m m' : TorrentManagerActor} {p : ℕ}
    {last : Option PieceRequestManager} (hm : Stocked book m)
    (h : m.pieceFinishBegin p = some (m', last)) :
    Stocked book m' ∧ ∀ mgr, last = some mgr → book p = some mgr := by
  obtain ⟨hown, howned, hactive⟩ := pieceFinishBegin_owned h
  obtain ⟨-, ⟨-, rfl, rfl⟩ | ⟨-, rfl, rfl⟩⟩ := pieceFinishBegin_eq_some h
  · exact ⟨hm, nofun⟩
  refine ⟨⟨?_, ?_⟩, hm.active p⟩
  · intro p' mgr hp'
    rw [HashMap.lookup_erase_eq] at hp'
    split_ifs at hp'
    exact hm.active p' mgr hp'
  · intro p' hp' hnone
    have hne : p' ≠ p := fun e : p' = p => hp' (e ▸ hown)
    rw [hactive p' hne] at hnone
    exact hm.fresh p' (mt (howned p') hp') hnone

/-! ## Steps of the system -/

theorem Spawned.of_length_eq {actors actors' : List (Option PieceRequestManagerActor)}
    (h : Spawned book actors) (hlength : actors'.length = actors.length) :
    Spawned book actors' where
  index_eq := by
    rw [hlength]
    exact h.index_eq
  made := by
    rw [hlength]
    exact h.made

/-- INTERNAL: an actor that is spawned for a new manager is the last one. -/
theorem Spawned.update {actors : List (Option PieceRequestManagerActor)} (h : Spawned book actors)
    {mgr : PieceRequestManager} (hnone : book mgr.index = none) (hsend : mgr.send = actors.length)
    (a : Option PieceRequestManagerActor) :
    Spawned (Function.update book mgr.index (some mgr)) (actors ++ [a]) := by
  constructor
  · intro p mgr' hp
    rw [List.length_append, List.length_singleton]
    rw [Function.update_apply] at hp
    split_ifs at hp with heq
    · cases hp
      exact ⟨heq.symm, by omega⟩
    · obtain ⟨hindex, hlt⟩ := h.index_eq p mgr' hp
      exact ⟨hindex, by omega⟩
  · intro send hlt
    rw [List.length_append, List.length_singleton] at hlt
    by_cases hlast : send = actors.length
    · exact ⟨mgr.index, mgr, Function.update_self .., by rw [hsend, hlast]⟩
    · obtain ⟨p, mgr', hp, heq⟩ := h.made send (by omega)
      exact ⟨p, mgr', extends_update hnone p mgr' hp, heq⟩

theorem OneBuffer.setConnection (h : OneBuffer torrent options book s) (c : ℕ)
    {conn : Connection} (hconn : Booked book conn) :
    OneBuffer torrent options book (s.setConnection c conn) where
  manager := h.manager
  stocked := h.stocked
  connections := by
    intro conn' hmem
    rcases List.mem_or_eq_of_mem_set hmem with hmem | rfl
    · exact h.connections conn' hmem
    · exact hconn
  finishing := h.finishing
  spawned := h.spawned

/-- INTERNAL: a manager that is handed out again spawns no actor.
SOURCE: torrent_manager.rs:197-206 -/
theorem spawned_of_booked {reply : TorrentManagerReply} (h : Spawned book s.pieceActors)
    (hreply : ∀ mgr, reply = .work (some mgr) → book mgr.index = some mgr) :
    s.spawned reply = s.pieceActors := by
  unfold TorrentSystem.spawned
  split
  · next mgr =>
    obtain ⟨-, hlt⟩ := h.index_eq mgr.index mgr (hreply mgr rfl)
    rw [if_neg (by omega)]
  · rfl

theorem OneBuffer.handle {msg : TorrentManagerMessage} {env : Env} {reply : TorrentManagerReply}
    (h : OneBuffer torrent options book s) (hmsg : finishes msg = none)
    (ht : s.handle msg env = some (t, reply)) :
    ∃ book', Extends book book' ∧ OneBuffer torrent options book' t ∧
      t.connections = s.connections ∧ ∀ mgr, reply = .work (some mgr) →
        book' mgr.index = some mgr := by
  obtain ⟨hidle, m, hstep, rfl⟩ := handle_eq_some ht
  have hm := managerInv_step h.manager hstep
  rcases stocked_step h.manager h.stocked hmsg hstep with ⟨hstocked, hreply⟩ |
    ⟨mgr, rfl, hsend, hnone, hstocked⟩
  · refine ⟨book, .refl book, ⟨hm, hstocked, h.connections, h.finishing, ?_⟩, rfl, hreply⟩
    dsimp only
    rw [spawned_of_booked h.spawned hreply]
    exact h.spawned
  · have hbook := extends_update hnone
    refine ⟨_, hbook, ⟨hm, hstocked, ?_, ?_, ?_⟩, rfl, ?_⟩
    · exact fun conn hconn => (h.connections conn hconn).extends hbook
    · exact fun f hf => hbook _ _ (h.finishing f hf)
    · dsimp only [TorrentSystem.spawned]
      rw [if_pos hsend]
      exact h.spawned.update hnone hsend _
    · rintro _ ⟨⟩
      exact Function.update_self ..

/-- INTERNAL: a connection that makes a step on its own goes on referring to what is in the
book. -/
theorem OneBuffer.ownStep (h : OneBuffer torrent options book s) {c : ℕ} {conn conn' : Connection}
    (hc : s.connections[c]? = some conn)
    (hrefers : ∀ p mgr, Refers conn' p mgr → Refers conn p mgr) :
    OneBuffer torrent options book (s.setConnection c conn') :=
  h.setConnection c fun p mgr hmgr =>
    h.connections conn (List.mem_of_getElem? hc) p mgr (hrefers p mgr hmgr)

theorem OneBuffer.setPieceActors (h : OneBuffer torrent options book s)
    {actors : List (Option PieceRequestManagerActor)}
    (hlength : actors.length = s.pieceActors.length) :
    OneBuffer torrent options book { s with pieceActors := actors } :=
  ⟨h.manager, h.stocked, h.connections, h.finishing, h.spawned.of_length_eq hlength⟩

theorem oneBuffer_flushRound {io : IoOutcome} (h : OneBuffer torrent options book s)
    (ht : s.flushRound io = some t) : OneBuffer torrent options book t := by
  obtain ⟨p, job, disk, ended, job', result, hf, hjob, -, -, rfl⟩ := flushRound_event_moves ht
  refine ⟨h.manager, h.stocked, h.connections, ?_, h.spawned⟩
  rintro _ ⟨⟩
  dsimp only
  rw [hjob]
  exact h.finishing _ hf

theorem oneBuffer_pieceFinishBegin {k : ℕ} (h : OneBuffer torrent options book s)
    (ht : s.pieceFinishBegin k = some t) : OneBuffer torrent options book t := by
  obtain ⟨-, q, p, manager, last, -, hbegin, rfl⟩ := pieceFinishBegin_event_eq_some ht
  obtain ⟨hstocked, hlast⟩ := stocked_pieceFinishBegin h.stocked hbegin
  have hmanager := managerInv_pieceFinishBegin h.manager hbegin
  refine ⟨hmanager, hstocked, h.connections, ?_, h.spawned⟩
  intro f hf
  obtain ⟨mgr, hmgr, rfl⟩ := Option.map_eq_some_iff.mp hf
  exact hlast mgr hmgr

theorem oneBuffer_pieceFinishEnd (h : OneBuffer torrent options book s)
    (ht : s.pieceFinishEnd = some t) : OneBuffer torrent options book t := by
  obtain ⟨p, job, flushed, -, rfl⟩ := pieceFinishEnd_event_eq_some ht
  have hmanager := managerInv_pieceFinishEnd p job.pieceManager.pieceLength flushed h.manager
  cases flushed with
  | false => exact ⟨hmanager, h.stocked, h.connections, nofun, h.spawned⟩
  | true =>
    exact ⟨hmanager, ⟨h.stocked.active, h.stocked.fresh⟩, h.connections, nofun, h.spawned⟩

theorem oneBuffer_connect {peerId : String} {env : Env} (h : OneBuffer torrent options book s)
    (ht : s.connect peerId env = some t) :
    ∃ book', Extends book book' ∧ OneBuffer torrent options book' t := by
  obtain ⟨u, reply, hu, rfl⟩ := connect_eq_some ht
  obtain ⟨book', hbook, hinv, -, -⟩ := h.handle rfl hu
  refine ⟨book', hbook, hinv.manager, hinv.stocked, ?_, hinv.finishing, hinv.spawned⟩
  intro conn hconn
  rcases List.mem_append.mp hconn with hconn | hconn
  · exact hinv.connections conn hconn
  · rw [List.mem_singleton.mp hconn]
    exact booked_new book' peerId

/-- INTERNAL: a manager that is granted is in the book by then. -/
theorem oneBuffer_requestPiece {c : ℕ} {env : Env} (h : OneBuffer torrent options book s)
    (ht : s.requestPiece c env = some t) :
    ∃ book', Extends book book' ∧ OneBuffer torrent options book' t := by
  obtain ⟨conn, u, reply, hc, -, hu, hthen⟩ := requestPiece_eq_some ht
  obtain ⟨book', hbook, hinv, hconns, hreply⟩ := h.handle rfl hu
  refine ⟨book', hbook, ?_⟩
  rcases hthen with ⟨req, rfl, rfl⟩ | rfl
  · apply hinv.setConnection
    have hold := hinv.connections conn (by rw [hconns]; exact List.mem_of_getElem? hc)
    rintro p mgr (hmgr | ⟨⟨⟩⟩ | hmgr)
    · exact hold p mgr (.request hmgr)
    · exact hreply req rfl
    · exact hold p mgr (.sending hmgr)
  · exact hinv

theorem oneBuffer_insertRequest {c : ℕ} (h : OneBuffer torrent options book s)
    (ht : s.insertRequest c = some t) : OneBuffer torrent options book t := by
  obtain ⟨conn, req, hc, hreq, rfl⟩ := insertRequest_eq_some ht
  apply h.ownStep hc
  rintro p mgr (hmgr | ⟨⟨⟩⟩ | hmgr)
  · rw [HashMap.lookup_insert_eq] at hmgr
    split_ifs at hmgr with hp
    · cases hmgr
      rw [hp]
      exact .granted hreq
    · exact .request hmgr
  · exact .sending hmgr

theorem oneBuffer_countActive {c : ℕ} {env : Env} (h : OneBuffer torrent options book s)
    (ht : s.countActive c env = some t) :
    ∃ book', Extends book book' ∧ OneBuffer torrent options book' t := by
  obtain ⟨conn, u, reply, hc, -, hu, hthen⟩ := countActive_eq_some ht
  obtain ⟨book', hbook, hinv, hconns, -⟩ := h.handle rfl hu
  refine ⟨book', hbook, ?_⟩
  rcases hthen with ⟨work, -, rfl⟩ | rfl
  · rw [← hconns] at hc
    apply hinv.ownStep hc
    rintro p mgr (hmgr | hmgr | hmgr)
    · exact .request hmgr
    · exact .granted hmgr
    · exact .sending hmgr
  · exact hinv

/-- INTERNAL: the watchdog only drops references.
SOURCE: peer_protocol_state_machine.rs:195-208 -/
theorem oneBuffer_prune {c : ℕ} (h : OneBuffer torrent options book s)
    (ht : s.prune c = some t) : OneBuffer torrent options book t := by
  obtain ⟨conn, stillActive, hc, -, rfl⟩ := prune_eq_some ht
  apply h.ownStep hc
  rintro p mgr (hmgr | hmgr | hmgr)
  · apply Refers.request
    rw [HashMap.lookup_filterMapVals] at hmgr
    obtain ⟨req, hreq, hkept⟩ := Option.bind_eq_some_iff.mp hmgr
    split_ifs at hkept
    cases hkept
    exact hreq
  · exact .granted hmgr
  · exact .sending hmgr

theorem oneBuffer_piece {c p blockOffset : ℕ} {data : Bytes}
    (h : OneBuffer torrent options book s) (ht : s.piece c p blockOffset data = some t) :
    OneBuffer torrent options book t := by
  obtain ⟨conn, hc, -, ⟨mgr, hmgr, rfl⟩ | ⟨-, rfl⟩⟩ := piece_eq_some ht
  · apply h.ownStep hc
    rintro p' mgr' (hmgr' | hmgr' | ⟨⟨⟩⟩)
    · exact .request hmgr'
    · exact .granted hmgr'
    · exact .request hmgr
  · apply h.ownStep hc
    rintro p' mgr' (hmgr' | hmgr' | ⟨⟨⟩⟩)
    · exact .request hmgr'
    · exact .granted hmgr'

/-- INTERNAL: the manager that `get_piece_manager` falls back on is the active one.
SOURCE: peer_protocol_state_machine.rs:367-391 -/
theorem oneBuffer_getPieceManager {c : ℕ} {env : Env} (h : OneBuffer torrent options book s)
    (ht : s.getPieceManager c env = some t) :
    ∃ book', Extends book book' ∧ OneBuffer torrent options book' t := by
  obtain ⟨conn, p, blockOffset, data, u, reply, hc, -, hu, hthen⟩ := getPieceManager_eq_some ht
  obtain ⟨book', hbook, hinv, hconns, -⟩ := h.handle rfl hu
  refine ⟨book', hbook, ?_⟩
  have hold := hinv.connections conn (by rw [hconns]; exact List.mem_of_getElem? hc)
  rcases hthen with ⟨mgr, hmgr, rfl⟩ | ⟨-, rfl⟩
  · apply hinv.setConnection
    rintro p' mgr' (hmgr' | hmgr' | ⟨⟨⟩⟩)
    · exact hold p' mgr' (.request hmgr')
    · exact hold _ mgr' (.granted hmgr')
    · exact hbook p mgr (h.stocked.active p mgr hmgr)
  · apply hinv.setConnection
    rintro p' mgr' (hmgr' | hmgr' | ⟨⟨⟩⟩)
    · exact hold p' mgr' (.request hmgr')
    · exact hold _ mgr' (.granted hmgr')

theorem oneBuffer_blockRecived {c : ℕ} (h : OneBuffer torrent options book s)
    (ht : s.blockRecived sha1 c = some t) : OneBuffer torrent options book t := by
  obtain ⟨conn, mgr, p, blockOffset, data, tracked, hc, -, hthen⟩ := blockRecived_event_eq_some ht
  -- the reader goes on with something else than a block
  have hreader {reader : Reader}
      (hreader : reader = .idle ∨ reader = .hashMatched p tracked) (p' : ℕ)
      (mgr' : PieceRequestManager) (hmgr' : Refers { conn with reader := reader } p' mgr') :
      Refers conn p' mgr' := by
    rcases hmgr' with hmgr' | hmgr' | hmgr'
    · exact .request hmgr'
    · exact .granted hmgr'
    · rcases hreader with rfl | rfl <;> cases hmgr'
  rcases hthen with ⟨a, slot, reader, ha, hafter, rfl⟩ | ⟨-, rfl⟩
  · have hafterwards : reader = .idle ∨ reader = .hashMatched p tracked := by
      rcases afterBlock_cases sha1 a p blockOffset data tracked with
        ⟨b, reader', heq, -, -, hend | ⟨hend, -⟩⟩ | ⟨-, heq⟩
      · rw [hafter] at heq
        cases heq
        exact Or.inl hend
      · rw [hafter] at heq
        cases heq
        exact Or.inr hend
      · rw [hafter] at heq
        cases heq
        exact Or.inl rfl
    have hlength : (s.pieceActors.set mgr.send slot).length = s.pieceActors.length :=
      List.length_set
    have hs := h.setPieceActors hlength
    exact hs.ownStep hc (hreader hafterwards)
  · exact h.ownStep hc (hreader (Or.inl rfl))

theorem oneBuffer_pieceFinish {c : ℕ} (h : OneBuffer torrent options book s)
    (ht : s.pieceFinish c = some t) : OneBuffer torrent options book t := by
  obtain ⟨conn, p, tracked, hc, -, rfl⟩ := pieceFinish_event_eq_some ht
  have hs : OneBuffer torrent options book
      { s with pieceFinishes := s.pieceFinishes ++ [(conn.peerId, p)] } :=
    ⟨h.manager, h.stocked, h.connections, h.finishing, h.spawned⟩
  apply hs.ownStep hc
  rintro p' mgr (hmgr | hmgr | hmgr)
  · exact .request hmgr
  · exact .granted hmgr
  · dsimp only at hmgr
    split_ifs at hmgr

theorem oneBuffer_removeRequest {c : ℕ} (h : OneBuffer torrent options book s)
    (ht : s.removeRequest c = some t) : OneBuffer torrent options book t := by
  obtain ⟨conn, p, hc, -, rfl⟩ := removeRequest_eq_some ht
  apply h.ownStep hc
  rintro p' mgr (hmgr | hmgr | ⟨⟨⟩⟩)
  · rw [HashMap.lookup_erase_eq] at hmgr
    split_ifs at hmgr
    exact .request hmgr
  · exact .granted hmgr

/-- INTERNAL: every step keeps the book, or adds to it. -/
theorem oneBuffer_step {e : SystemEvent} {r : Unit} (h : OneBuffer torrent options book s)
    (hstep : systemStep sha1 s e = some (t, r)) :
    ∃ book', Extends book book' ∧ OneBuffer torrent options book' t := by
  have hsame (ht : OneBuffer torrent options book t) :
      ∃ book', Extends book book' ∧ OneBuffer torrent options book' t := ⟨book, .refl book, ht⟩
  obtain ⟨u, hu, heq⟩ := Option.map_eq_some_iff.mp hstep
  cases heq
  cases e with
  | connect peerId env => exact oneBuffer_connect h hu
  | recv msg env =>
    obtain ⟨hmsg, reply, hhandle⟩ := recv_eq_some hu
    obtain ⟨book', hbook, ht, -, -⟩ := h.handle hmsg hhandle
    exact ⟨book', hbook, ht⟩
  | getDataWithLength pieceIndex offset length io env =>
    obtain ⟨env', v, reply, ended, hv, -, rfl⟩ := getDataWithLength_event_eq_some hu
    obtain ⟨book', hbook, ht, -, -⟩ := h.handle rfl hv
    exact ⟨book', hbook, ht.manager, ht.stocked, ht.connections, ht.finishing, ht.spawned⟩
  | requestPiece c env => exact oneBuffer_requestPiece h hu
  | insertRequest c => exact hsame (oneBuffer_insertRequest h hu)
  | countActive c env => exact oneBuffer_countActive h hu
  | prune c => exact hsame (oneBuffer_prune h hu)
  | piece c pieceIndex blockOffset data => exact hsame (oneBuffer_piece h hu)
  | getPieceManager c env => exact oneBuffer_getPieceManager h hu
  | blockRecived c => exact hsame (oneBuffer_blockRecived h hu)
  | pieceFinish c => exact hsame (oneBuffer_pieceFinish h hu)
  | removeRequest c => exact hsame (oneBuffer_removeRequest h hu)
  | pieceActor send e =>
    obtain ⟨-, a, b, r, -, -, rfl⟩ := pieceEvent_eq_some hu
    exact hsame (h.setPieceActors (List.length_set ..))
  | pieceFinishBegin k => exact hsame (oneBuffer_pieceFinishBegin h hu)
  | flushRound io => exact hsame (oneBuffer_flushRound h hu)
  | pieceFinishEnd => exact hsame (oneBuffer_pieceFinishEnd h hu)

/-! ## Runs -/

/-- INTERNAL: the first state of the system, with nothing in the book. -/
theorem oneBuffer_new {fileSystem : FileSystem} {downloadPath : PathBuf}
    (h : TorrentSystem.new torrent options fileSystem downloadPath = some s) :
    OneBuffer torrent options (fun _ => none) s := by
  obtain ⟨manager, disk, diskEnded, hmanager, -, rfl⟩ := system_new_eq_some h
  refine ⟨managerInv_new hmanager, ⟨?_, fun _ _ _ => rfl⟩, nofun, nofun, nofun, nofun⟩
  intro p mgr hmgr
  rw [lookup_active_new hmanager p] at hmgr
  cases hmgr

/-- INTERNAL: what is in the book stays there, so the last book of a run serves all its states. -/
theorem oneBuffer_run (h : OneBuffer torrent options book s) (es : List SystemEvent) :
    ∃ book', Extends book book' ∧ AllStates (systemStep sha1) (InBook book') s es := by
  induction es generalizing s book with
  | nil => exact ⟨book, .refl book, h.inBook (.refl book)⟩
  | cons e es ih =>
    cases hstep : systemStep sha1 s e with
    | none => exact ⟨book, .refl book, h.inBook (.refl book), by simp [hstep]⟩
    | some next =>
      obtain ⟨t, r⟩ := next
      obtain ⟨book₁, hbook₁, ht⟩ := oneBuffer_step h hstep
      obtain ⟨book₂, hbook₂, hrest⟩ := ih ht
      refine ⟨book₂, hbook₁.trans hbook₂, h.inBook (hbook₁.trans hbook₂), ?_⟩
      rintro t' r' heq
      rw [hstep] at heq
      cases heq
      exact hrest

/-- **One buffer for each piece.** For every run of the actors of a torrent, whatever becomes of the
disk actor in it, there is one book of managers, at most one for each piece, with every piece actor
that is ever spawned and every manager that anyone refers to at any time of the run. So the blocks of
a piece go to one actor, whether a connection found it in its own requests or asked for it, and that
is the active one as long as the piece is active.
SOURCE: torrent_manager.rs:187-276, torrent_manager.rs:345-350,
peer_protocol_state_machine.rs:337-393 -/
theorem one_buffer_per_piece {fileSystem : FileSystem} {downloadPath : PathBuf}
    {start : TorrentSystem}
    (hstart : TorrentSystem.new torrent options fileSystem downloadPath = some start)
    (es : List SystemEvent) :
    ∃ book : Book, AllStates (systemStep sha1) (InBook book) start es := by
  obtain ⟨book, -, hstates⟩ := oneBuffer_run (oneBuffer_new hstart) es
  exact ⟨book, hstates⟩

/-- One peer is assigned the piece and has a block of it, another one sends a block without having
asked for any. -/
def twoRoutesRun : List SystemEvent :=
  [.connect "first" .quiet, .connect "second" .quiet, .recv (.addBitFeild "first" [true]) .quiet,
    .requestPiece 0 .quiet, .insertRequest 0, .piece 0 0 0 [1], .piece 1 0 0 [2],
    .getPieceManager 1 .quiet]

/-- Both blocks are on their way to the same actor. -/
theorem one_buffer_per_piece_two_routes :
    ((run (systemStep toySha1) oneByteStart twoRoutesRun).map fun s =>
        s.connections.map fun conn =>
          match conn.reader with
          | .sending mgr _ _ _ tracked => some (mgr.send, tracked)
          | _ => none) = some [some (0, true), some (0, false)] ∧
      ∃ book : Book, AllStates (systemStep toySha1) (InBook book) oneByteStart twoRoutesRun :=
  ⟨by decide +kernel, one_buffer_per_piece (Option.some_get _).symm twoRoutesRun⟩

end Fissure.Analysis
