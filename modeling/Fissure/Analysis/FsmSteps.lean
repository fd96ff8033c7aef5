import Fissure.Model.PeerFsm

/-!
# What one step of a connection does

`FsmMove` says for each event of a connection which state it leads to; the steps of the writer, the
reader and the watchdog have a relation of their own. Later modules go through the cases of these
and do not look at `fsmStep` again.
-/

set_option autoImplicit false

namespace Fissure.Analysis

open Fissure.Library Fissure.Model

/-- What a step of the writer does. -/
inductive WriterTaskMove (s : PeerFsm) : WriterAct → PeerFsm → Prop
  | sendBitfield {b : Bitfield} (hw : s.writer = .starting b) :
      WriterTaskMove s (.sendBitfield true)
        { s with writer := .passing, sent := s.sent ++ [.bitfield b] }
  | fails {a : WriterAct}
      (h : a = .sendBitfield false ∧ (∃ b, s.writer = .starting b) ∨
        a = .sendInterested false ∧ (∃ isChoked, s.writer = .interesting isChoked) ∨
        a = .sendRequest false ∧ ∃ pass c reqPieces, s.writer = .sending pass c reqPieces) :
      WriterTaskMove s a { s with writer := .ended }
  | beginPass (hw : s.writer = .waiting) : WriterTaskMove s .beginPass { s with writer := .passing }
  | beginTopOff (hw : s.writer = .waiting) :
      WriterTaskMove s .beginTopOff { s with writer := .toppingOff ⟨false, s.peerChoking, false⟩ }
  | interest (hw : s.writer = .passing) (huseful : s.hasUsefulPieces = true)
      (hnot : s.amInterested = false) :
      WriterTaskMove s .sample { s with writer := .interesting s.peerChoking }
  | noInterest (hw : s.writer = .passing)
      (h : s.hasUsefulPieces = false ∨ s.amInterested = true) :
      WriterTaskMove s .sample { s with writer := .counting s.peerChoking }
  | sendInterested {isChoked : Bool} (hw : s.writer = .interesting isChoked) :
      WriterTaskMove s (.sendInterested true)
        { s with writer := .interested isChoked, sent := s.sent ++ [.interested] }
  | setInterested {isChoked : Bool} (hw : s.writer = .interested isChoked) :
      WriterTaskMove s .setInterested
        { s with writer := .counting isChoked, amInterested := true }
  | asks (hw : s.writer = .counting false)
      (hlt : s.pendingActiveRequestCount < s.peerOptions.perPeerActiveRequestCount) :
      WriterTaskMove s .loadCount
        { s with
          writer := .requesting false
          mailbox := s.mailbox ++ [⟨.writer, .requestWork s.peerId⟩] }
  | skips {isChoked : Bool} (hw : s.writer = .counting isChoked)
      (h : isChoked = true ∨
        s.peerOptions.perPeerActiveRequestCount ≤ s.pendingActiveRequestCount) :
      WriterTaskMove s .loadCount { s with writer := .toppingOff ⟨true, isChoked, false⟩ }
  | insertRequest {isChoked : Bool} {req : PieceRequestManager}
      (hw : s.writer = .granted isChoked req) :
      WriterTaskMove s .insertRequest
        { s with
          writer := .inserted isChoked req
          activeRequests := s.activeRequests.insert req.index req }
  | countPiece {isChoked : Bool} {req : PieceRequestManager}
      (hw : s.writer = .inserted isChoked req) :
      WriterTaskMove s .countPiece
        { s with
          writer := .toppingOff ⟨true, isChoked, true⟩
          pendingActiveRequestCount := u64Add s.pendingActiveRequestCount 1 }
  | windowShut {pass : TopOff} (hw : s.writer = .toppingOff pass)
      (h : pass.isChoked = true ∨ s.peerOptions.perPeerInflightCount ≤ s.inflightMessages) :
      WriterTaskMove s .loadInflight { s with writer := pass.returns false }
  | windowOpen {pass : TopOff} (hw : s.writer = .toppingOff pass) (hchoked : pass.isChoked = false)
      (hlt : s.inflightMessages < s.peerOptions.perPeerInflightCount) :
      WriterTaskMove s .loadInflight
        { s with
          writer := .picking pass (s.peerOptions.perPeerInflightCount - s.inflightMessages) }
  | pick {pass : TopOff} {availableWindow : ℕ} {order : List ℕ}
      (hw : s.writer = .picking pass availableWindow)
      (horder : (order : Multiset ℕ) = s.activeRequests.keys.val) :
      WriterTaskMove s (.pick order)
        { s with
          writer := pass.tryNext availableWindow (order.filterMap s.activeRequests.lookup) }
  | noBlocks {pass : TopOff} {availableWindow : ℕ} {c : PieceRequestManager}
      {candidates : List PieceRequestManager} {clock : ℕ → Instant}
      {a a' : PieceRequestManagerActor}
      (hw : s.writer = .trying pass availableWindow (c :: candidates))
      (ha : s.pieceActor c.send = some a)
      (h : a.blocksToRequest (availableWindow % 2 ^ 32) clock = (a', [])) :
      WriterTaskMove s (.requestBlock clock)
        { s with
          pieceActors := s.pieceActors.set c.send (some a')
          writer := pass.tryNext availableWindow candidates }
  | blocks {pass : TopOff} {availableWindow : ℕ} {c : PieceRequestManager}
      {candidates : List PieceRequestManager} {clock : ℕ → Instant}
      {a a' : PieceRequestManagerActor} {reqPieces : List (ℕ × ℕ)}
      (hw : s.writer = .trying pass availableWindow (c :: candidates))
      (ha : s.pieceActor c.send = some a)
      (h : a.blocksToRequest (availableWindow % 2 ^ 32) clock = (a', reqPieces))
      (hne : reqPieces ≠ []) :
      WriterTaskMove s (.requestBlock clock)
        { s with
          pieceActors := s.pieceActors.set c.send (some a')
          writer := .sending pass c reqPieces }
  | gone {pass : TopOff} {availableWindow : ℕ} {c : PieceRequestManager}
      {candidates : List PieceRequestManager} {clock : ℕ → Instant}
      (hw : s.writer = .trying pass availableWindow (c :: candidates))
      (ha : s.pieceActor c.send = none) :
      WriterTaskMove s (.requestBlock clock)
        { s with writer := pass.tryNext availableWindow candidates }
  | sendRequest {pass : TopOff} {c : PieceRequestManager} {p : ℕ × ℕ} {reqPieces : List (ℕ × ℕ)}
      (hw : s.writer = .sending pass c (p :: reqPieces)) :
      WriterTaskMove s (.sendRequest true)
        { s with writer := .sent pass c reqPieces, sent := s.sent ++ [PeerFsm.requestOf c p] }
  | countRequest {pass : TopOff} {c : PieceRequestManager} {reqPieces : List (ℕ × ℕ)}
      (hw : s.writer = .sent pass c reqPieces) :
      WriterTaskMove s .countRequest
        { s with
          writer := pass.sendNext c reqPieces
          inflightMessages := u64Add s.inflightMessages 1 }

/-- INTERNAL: everything a step of the writer does.
SOURCE: peer_protocol_state_machine.rs:30-148 -/
theorem writerTaskMove {s t : PeerFsm} {a : WriterAct} (h : s.writerStep a = some t) :
    WriterTaskMove s a t := by
  unfold PeerFsm.writerStep at h
  split at h
  · next hw =>
    cases h
    exact .sendBitfield hw
  · next hw =>
    cases h
    exact .fails (Or.inl ⟨rfl, _, hw⟩)
  · next hw =>
    cases h
    exact .beginPass hw
  · next hw =>
    cases h
    exact .beginTopOff hw
  · next hw =>
    cases h
    split_ifs with hinterest
    · rw [Bool.and_eq_true, Bool.not_eq_true'] at hinterest
      exact .interest hw hinterest.1 hinterest.2
    · refine .noInterest hw ?_
      simpa [Bool.and_eq_true, or_iff_not_imp_left] using hinterest
  · next hw =>
    cases h
    exact .sendInterested hw
  · next hw =>
    cases h
    exact .fails (Or.inr (Or.inl ⟨rfl, _, hw⟩))
  · next hw =>
    cases h
    exact .setInterested hw
  · next isChoked hw =>
    split_ifs at h with hasks
    · rw [Bool.and_eq_true, Bool.not_eq_true', decide_eq_true_eq] at hasks
      obtain ⟨rfl, hlt⟩ := hasks
      cases h
      exact .asks hw hlt
    · cases h
      refine .skips hw ?_
      simpa [or_iff_not_imp_left] using hasks
  · next hw =>
    cases h
    exact .insertRequest hw
  · next hw =>
    cases h
    exact .countPiece hw
  · next hw =>
    dsimp only at h
    split_ifs at h with hshut
    · cases h
      refine .windowShut hw ?_
      simpa using hshut
    · cases h
      rw [Bool.or_eq_true, not_or, decide_eq_true_eq, Bool.not_eq_true, not_le] at hshut
      exact .windowOpen hw hshut.1 hshut.2
  · next hw =>
    split_ifs at h with horder
    cases h
    exact .pick hw horder
  · next c candidates clock hw =>
    split at h
    · next a ha =>
      generalize hblocks : a.blocksToRequest (_ % 2 ^ 32) clock = result at h
      obtain ⟨a', reqPieces⟩ := result
      cases h
      cases reqPieces with
      | nil => exact .noBlocks hw ha hblocks
      | cons p reqPieces => exact .blocks hw ha hblocks (List.cons_ne_nil _ _)
    · next ha =>
      cases h
      exact .gone hw ha
  · next hw =>
    cases h
    exact .sendRequest hw
  · next hw =>
    cases h
    exact .fails (Or.inr (Or.inr ⟨rfl, _, _, _, hw⟩))
  · next hw =>
    cases h
    exact .countRequest hw
  · cases h

/-- What a step of the reader does. -/
inductive ReaderTaskMove (sha1 : Bytes → Bytes) (s : PeerFsm) : ReaderAct → PeerFsm → Prop
  | choke (hr : s.reader = .idle) :
      ReaderTaskMove sha1 s (.take .choke) { s with reader := .choking, peerChoking := true }
  | unchoke (hr : s.reader = .idle) :
      ReaderTaskMove sha1 s (.take .unchoke) { s with peerChoking := false }
  | peerInterest {msg : PeerMessage} (hr : s.reader = .idle) (interested : Bool)
      (hmsg : msg = if interested then .interested else .notInterested) :
      ReaderTaskMove sha1 s (.take msg) { s with peerInterested := interested }
  | had {p : ℕ} (hr : s.reader = .idle) :
      ReaderTaskMove sha1 s (.take (.have p))
        { s with mailbox := s.mailbox ++ [⟨.reader, .updateBitField s.peerId p⟩] }
  | bitfield {b : Bitfield} (hr : s.reader = .idle) :
      ReaderTaskMove sha1 s (.take (.bitfield b))
        { s with
          reader := .recorded false
          mailbox := s.mailbox ++ [⟨.reader, .addBitFeild s.peerId b⟩] }
  | piece {i off : ℕ} {data : Bytes} (hr : s.reader = .idle) :
      ReaderTaskMove sha1 s (.take (.piece i off data))
        { s with
          reader := .locating i off data
          inflightMessages := s.inflightMessages - 1 }
  | ignored {msg : PeerMessage} (hr : s.reader = .idle)
      (hmsg : msg ≠ .choke ∧ msg ≠ .unchoke ∧ ∀ i off data, msg ≠ .piece i off data) :
      ReaderTaskMove sha1 s (.take msg) s
  | ends (hr : s.reader = .idle) : ReaderTaskMove sha1 s .ends { s with reader := .ended }
  | resetInflight (hr : s.reader = .choking) :
      ReaderTaskMove sha1 s .resetInflight { s with reader := .idle, inflightMessages := 0 }
  | askUseful {again : Bool} (hr : s.reader = .recorded again) :
      ReaderTaskMove sha1 s .askUseful
        { s with
          reader := .askingUseful again
          mailbox := s.mailbox ++ [⟨.reader, .hasUsefulPieces s.peerId⟩] }
  | setUseful {hasUseful : Bool} (hr : s.reader = .useful hasUseful) :
      ReaderTaskMove sha1 s .setUseful { s with reader := .idle, hasUsefulPieces := hasUseful }
  | tracked {i off : ℕ} {data : Bytes} {mgr : PieceRequestManager}
      (hr : s.reader = .locating i off data) (hmgr : s.activeRequests.lookup i = some mgr) :
      ReaderTaskMove sha1 s .locate { s with reader := .sending mgr i off data true }
  | untracked {i off : ℕ} {data : Bytes} (hr : s.reader = .locating i off data)
      (hmgr : s.activeRequests.lookup i = none) :
      ReaderTaskMove sha1 s .locate
        { s with
          reader := .asking i off data
          mailbox := s.mailbox ++ [⟨.reader, .getPieceManager i⟩] }
  | delivered {mgr : PieceRequestManager} {i off : ℕ} {data : Bytes} {tracked : Bool}
      {a : PieceRequestManagerActor} {a' : Option PieceRequestManagerActor} {reader : ReaderTask}
      (hr : s.reader = .sending mgr i off data tracked) (ha : s.pieceActor mgr.send = some a)
      (h : PeerFsm.afterBlock sha1 a i off data tracked = (a', reader)) :
      ReaderTaskMove sha1 s .blockRecvied
        { s with pieceActors := s.pieceActors.set mgr.send a', reader := reader }
  | lost {mgr : PieceRequestManager} {i off : ℕ} {data : Bytes} {tracked : Bool}
      (hr : s.reader = .sending mgr i off data tracked) (ha : s.pieceActor mgr.send = none) :
      ReaderTaskMove sha1 s .blockRecvied { s with reader := .idle }
  | pieceFinish {i : ℕ} {tracked : Bool} (hr : s.reader = .hashMatched i tracked) :
      ReaderTaskMove sha1 s .pieceFinish
        { s with
          reader := if tracked then .finished i else .idle
          mailbox := s.mailbox ++ [⟨.reader, .pieceFinish s.peerId i⟩] }
  | removes {i : ℕ} (hr : s.reader = .finished i) (hmem : i ∈ s.activeRequests) :
      ReaderTaskMove sha1 s .removeRequest
        { s with reader := .removed i, activeRequests := s.activeRequests.erase i }
  | pruned {i : ℕ} (hr : s.reader = .finished i) (hnot : i ∉ s.activeRequests) :
      ReaderTaskMove sha1 s .removeRequest { s with reader := .idle }
  | releasePiece {i : ℕ} (hr : s.reader = .removed i) :
      ReaderTaskMove sha1 s .releasePiece
        { s with
          reader := .idle
          pendingActiveRequestCount := s.pendingActiveRequestCount - 1 }

/-- INTERNAL: everything the taking of a message does.
SOURCE: peer_protocol_state_machine.rs:298-395 -/
theorem takeMove {sha1 : Bytes → Bytes} {s : PeerFsm} (hr : s.reader = .idle) (msg : PeerMessage) :
    ReaderTaskMove sha1 s (.take msg) (s.takeMessage msg) := by
  cases msg with
  | choke => exact .choke hr
  | unchoke => exact .unchoke hr
  | interested => exact .peerInterest hr true rfl
  | notInterested => exact .peerInterest hr false rfl
  | «have» p => exact .had hr
  | bitfield b => exact .bitfield hr
  | piece i off data => exact .piece hr
  | keepAlive | request | cancel | port => exact .ignored hr ⟨nofun, nofun, nofun⟩

/-- INTERNAL: everything a step of the reader does.
SOURCE: peer_protocol_state_machine.rs:287-405 -/
theorem readerTaskMove {sha1 : Bytes → Bytes} {s t : PeerFsm} {a : ReaderAct}
    (h : s.readerStep sha1 a = some t) : ReaderTaskMove sha1 s a t := by
  unfold PeerFsm.readerStep at h
  split at h
  · next hr =>
    cases h
    exact takeMove hr _
  · next hr =>
    cases h
    exact .ends hr
  · next hr =>
    cases h
    exact .resetInflight hr
  · next hr =>
    cases h
    exact .askUseful hr
  · next hr =>
    cases h
    exact .setUseful hr
  · next hr =>
    split at h
    · next hmgr =>
      cases h
      exact .tracked hr hmgr
    · next hmgr =>
      cases h
      exact .untracked hr hmgr
  · next mgr i off data tracked hr =>
    split at h
    · next a ha =>
      generalize hafter : PeerFsm.afterBlock sha1 a i off data tracked = result at h
      obtain ⟨a', reader⟩ := result
      cases h
      exact .delivered hr ha hafter
    · next ha =>
      cases h
      exact .lost hr ha
  · next hr =>
    cases h
    exact .pieceFinish hr
  · next hr =>
    split_ifs at h with hmem
    · cases h
      exact .removes hr hmem
    · cases h
      exact .pruned hr hmem
  · next hr =>
    cases h
    exact .releasePiece hr
  · cases h

/-- What a step of the watchdog does. -/
inductive WatchdogTaskMove (s : PeerFsm) : WatchdogAct → PeerFsm → Prop
  | tick (hd : s.watchdog = .sleeping) :
      WatchdogTaskMove s .tick
        { s with
          watchdog := .asking
          mailbox := s.mailbox ++ [⟨.watchdog, .updateAndGetActiveRequestCount s.peerId⟩] }
  | storeCount {active : List (ℕ × Instant)} (hd : s.watchdog = .answered active) :
      WatchdogTaskMove s .storeCount
        { s with watchdog := .pruning active, pendingActiveRequestCount := active.length }
  | prune {active : List (ℕ × Instant)} (hd : s.watchdog = .pruning active) :
      WatchdogTaskMove s .prune
        { s with
          watchdog := .sleeping
          activeRequests := PeerFsm.retainActive s.activeRequests active }

/-- INTERNAL: everything a step of the watchdog does.
SOURCE: peer_protocol_state_machine.rs:180-210 -/
theorem watchdogTaskMove {s t : PeerFsm} {a : WatchdogAct} (h : s.watchdogStep a = some t) :
    WatchdogTaskMove s a t := by
  unfold PeerFsm.watchdogStep at h
  split at h
  · next hd =>
    cases h
    exact .tick hd
  · next hd =>
    cases h
    exact .storeCount hd
  · next hd =>
    cases h
    exact .prune hd
  · cases h

/-- What an event of the connection does. -/
inductive FsmMove (sha1 : Bytes → Bytes) (s : PeerFsm) : FsmEvent → PeerFsm → Prop
  | register (hw : s.writer = .unregistered) :
      FsmMove sha1 s .register
        { s with
          writer := .registering
          mailbox := s.mailbox ++ [⟨.connection, .addPeer s.peerId []⟩] }
  | handle {env : Env} {sender : Sender} {msg : TorrentManagerMessage} {mailbox : List Mail}
      {manager : TorrentManagerActor} {reply : TorrentManagerReply}
      (hmail : s.mailbox = ⟨sender, msg⟩ :: mailbox)
      (h : managerStep s.manager (msg, { env with fresh := s.pieceActors.length }) =
        some (manager, reply)) :
      FsmMove sha1 s (.handle env)
        { s with
          manager := manager
          mailbox := mailbox
          pieceActors := s.spawned reply
          writer := s.writer.receives sender reply
          reader := s.reader.receives sender reply
          watchdog := s.watchdog.receives sender reply }
  | elsewhere {msg : TorrentManagerMessage} :
      FsmMove sha1 s (.elsewhere msg) { s with mailbox := s.mailbox ++ [⟨.elsewhere, msg⟩] }
  | pieceActor {k : ℕ} {e : PieceEvent} {a : PieceRequestManagerActor}
      (ha : s.pieceActor k = some a) :
      FsmMove sha1 s (.pieceActor k e)
        { s with pieceActors := s.pieceActors.set k ((pieceStep sha1 a e).map Prod.fst) }
  | writer {a : WriterAct} {t : PeerFsm} (h : WriterTaskMove s a t) : FsmMove sha1 s (.writer a) t
  | reader {a : ReaderAct} {t : PeerFsm} (h : ReaderTaskMove sha1 s a t) :
      FsmMove sha1 s (.reader a) t
  | watchdog {a : WatchdogAct} {t : PeerFsm} (h : WatchdogTaskMove s a t) :
      FsmMove sha1 s (.watchdog a) t

/-- INTERNAL: everything a step of the connection does. -/
theorem fsmMove {sha1 : Bytes → Bytes} {s t : PeerFsm} {e : FsmEvent} {r : Unit}
    (h : fsmStep sha1 s e = some (t, r)) : FsmMove sha1 s e t := by
  obtain ⟨u, hu, heq⟩ := Option.map_eq_some_iff.mp h
  cases heq
  cases e with
  | register =>
    change s.register = some t at hu
    unfold PeerFsm.register at hu
    split at hu
    · next hw =>
      cases hu
      exact .register hw
    · cases hu
  | handle env =>
    change s.handle env = some t at hu
    unfold PeerFsm.handle at hu
    split at hu
    · cases hu
    · next hmail =>
      simp only [Option.bind_eq_bind, Option.bind_eq_some_iff, Option.some.injEq] at hu
      obtain ⟨⟨manager, reply⟩, hmanager, rfl⟩ := hu
      exact .handle hmail hmanager
  | elsewhere msg =>
    cases hu
    exact .elsewhere
  | pieceActor k e =>
    change s.pieceEvent sha1 k e = some t at hu
    unfold PeerFsm.pieceEvent at hu
    simp only [Option.bind_eq_bind, Option.bind_eq_some_iff, Option.some.injEq] at hu
    obtain ⟨a, ha, rfl⟩ := hu
    exact .pieceActor ha
  | writer a => exact .writer (writerTaskMove hu)
  | reader a => exact .reader (readerTaskMove hu)
  | watchdog a => exact .watchdog (watchdogTaskMove hu)

theorem lookup_retainActive (activeRequests : HashMap ℕ PieceRequestManager)
    (active : List (ℕ × Instant)) (p : ℕ) :
    (PeerFsm.retainActive activeRequests active).lookup p =
      if active.any fun w => w.1 == p then activeRequests.lookup p else none := by
  unfold PeerFsm.retainActive
  rw [HashMap.lookup_filterMapVals]
  cases activeRequests.lookup p with
  | none => split_ifs <;> rfl
  | some mgr => rfl

/-! ## Where the loops of the writer go on -/

/-- The writer is at the head of one of its loops, or waits. -/
def atHead : WriterTask → Bool
  | .waiting | .passing | .toppingOff _ | .trying .. | .sending .. => true
  | _ => false

@[simp] theorem atHead_returns (pass : TopOff) (progressed : Bool) :
    atHead (pass.returns progressed) = true := by
  unfold TopOff.returns
  split_ifs <;> rfl

@[simp] theorem atHead_tryNext (pass : TopOff) (availableWindow : ℕ)
    (candidates : List PieceRequestManager) :
    atHead (pass.tryNext availableWindow candidates) = true := by
  cases candidates with
  | nil => simp [TopOff.tryNext]
  | cons c candidates => rfl

@[simp] theorem atHead_sendNext (pass : TopOff) (c : PieceRequestManager)
    (reqPieces : List (ℕ × ℕ)) : atHead (pass.sendNext c reqPieces) = true := by
  cases reqPieces with
  | nil => simp [TopOff.sendNext]
  | cons p reqPieces => rfl

/-! ## What is left alone -/

theorem manager_writer {s t : PeerFsm} {a : WriterAct} (hmove : WriterTaskMove s a t) :
    t.manager = s.manager := by
  cases hmove <;> rfl

/-- INTERNAL: the reader touches neither the manager nor the writer. -/
theorem rest_reader {sha1 : Bytes → Bytes} {s t : PeerFsm} {a : ReaderAct}
    (hmove : ReaderTaskMove sha1 s a t) :
    t.manager = s.manager ∧ t.writer = s.writer ∧ t.sent = s.sent := by
  cases hmove <;> exact ⟨rfl, rfl, rfl⟩

/-- INTERNAL: the watchdog touches neither the manager nor the writer. -/
theorem rest_watchdog {s t : PeerFsm} {a : WatchdogAct} (hmove : WatchdogTaskMove s a t) :
    t.manager = s.manager ∧ t.writer = s.writer ∧ t.sent = s.sent := by
  cases hmove <;> exact ⟨rfl, rfl, rfl⟩

/-! ## The start -/

theorem fsm_new_eq_some {torrent : ClientTorrentMetaInfo} {options : PeerOptions}
    {peerId : String} {s : PeerFsm} (h : PeerFsm.new torrent options peerId = some s) :
    ∃ manager, TorrentManagerActor.new torrent options = some manager ∧
      s = {
        manager := manager
        mailbox := []
        pieceActors := []
        peerId := peerId
        peerChoking := true
        peerInterested := false
        amInterested := false
        hasUsefulPieces := true
        pendingActiveRequestCount := 0
        inflightMessages := 0
        activeRequests := ∅
        writer := .unregistered
        reader := .unstarted
        watchdog := .unstarted
        sent := [] } := by
  obtain ⟨manager, hmanager, heq⟩ := Option.bind_eq_some_iff.mp h
  exact ⟨manager, hmanager, (Option.some.inj heq).symm⟩

end Fissure.Analysis
