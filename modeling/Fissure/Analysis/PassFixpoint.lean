import Fissure.Analysis.SoloPass
import Fissure.Analysis.Addressing

/-!
# A pass runs to a fixpoint and stops

Each round of a pass that makes progress raises the count of active pieces or the count of messages
in flight, which are both capped, so a pass that nothing interrupts returns. What made its last
round end without progress still holds when it does: a candidate without blocks does not end the
search, and a manager that declines once declines again (`pass_reaches_fixpoint`).
-/

set_option autoImplicit false

namespace Fissure.Analysis

open Fissure.Library Fissure.Model
open Fissure.Model.PieceRequestManagerActor

variable {s t : PeerFsm}

/-! ## The steps of the writer -/

section Writer

variable {full : Bool} {a : WriterAct} {u : PeerFsm} {x : Pass}

/-- INTERNAL: an over full window stays as it is, and another one is kept.
SOURCE: peer_protocol_state_machine.rs:40-83 -/
theorem keepsWindow_writer (hoptions : t.peerOptions = s.peerOptions) (h : KeepsWindow s t)
    (hmove : WriterTaskMove t a u) : KeepsWindow s u := by
  rcases h with h | ⟨hover, hsame, hzero⟩
  · exact Or.inl (window_writer (by rw [hoptions]) h hmove)
  · have hnothing {n : ℕ} (hle : n ≤ allowance t.writer) : n = 0 := Nat.le_zero.mp (hzero ▸ hle)
    cases hmove with
    | windowShut => exact Or.inr ⟨hover, hsame, allowance_returns _ _⟩
    | windowOpen hw hchoked hlt =>
      rw [hoptions] at hlt
      omega
    | pick hw | noBlocks hw | gone hw =>
      rw [hw] at hnothing
      exact Or.inr ⟨hover, hsame, hnothing (allowance_tryNext_le _ _ _)⟩
    | blocks hw ha hblocks =>
      rw [hw] at hnothing
      exact Or.inr ⟨hover, hsame,
        hnothing ((length_blocksToRequest_le hblocks).trans (Nat.mod_le _ _))⟩
    | sendRequest hw =>
      rw [hw] at hzero
      exact Or.inr ⟨hover, hsame, hzero⟩
    | countRequest hw =>
      rw [hw] at hzero
      cases hzero
    | _ => exact Or.inr ⟨hover, hsame, rfl⟩

/-- INTERNAL: while it waits for an answer, the writer does nothing. -/
theorem not_requesting_of_move (hmove : WriterTaskMove t a u) (isChoked : Bool) :
    t.writer ≠ .requesting isChoked := by
  intro hasks
  cases hmove with
  | fails h =>
    rcases h with ⟨-, b, hw⟩ | ⟨-, c, hw⟩ | ⟨-, pass, c, reqPieces, hw⟩ <;>
      exact nomatch hasks.symm.trans hw
  | _ hw => exact nomatch hasks.symm.trans hw

theorem asks_writer (h : Asks t) (hmove : WriterTaskMove t a u) : Asks u := by
  have hquiet := h.quiet (not_requesting_of_move hmove)
  have hhead {task : WriterTask} (htask : atHead task = true) (isChoked : Bool) :
      task ≠ .requesting isChoked := by
    rintro rfl
    cases htask
  cases hmove with
  | asks => exact ⟨fun hnot => absurd rfl (hnot false), fun _ _ => ⟨t.mailbox, rfl, hquiet⟩⟩
  | windowShut => exact ⟨fun _ => hquiet, fun _ hw => absurd hw (hhead (atHead_returns _ _) _)⟩
  | pick | noBlocks | gone =>
    exact ⟨fun _ => hquiet, fun _ hw => absurd hw (hhead (atHead_tryNext _ _ _) _)⟩
  | countRequest =>
    exact ⟨fun _ => hquiet, fun _ hw => absurd hw (hhead (atHead_sendNext _ _ _) _)⟩
  | _ => exact ⟨fun _ => hquiet, nofun⟩

theorem peerOptions_writer (hmove : WriterTaskMove t a u) : u.peerOptions = t.peerOptions := by
  unfold PeerFsm.peerOptions
  rw [manager_writer hmove]

theorem peerChoking_writer (hmove : WriterTaskMove t a u) : u.peerChoking = t.peerChoking := by
  cases hmove <;> rfl

/-- INTERNAL: a candidate that gives no block has none to give afterwards.
SOURCE: piece_manager.rs:81-92 -/
theorem not_requestable_of_noBlocks {b b' : PieceRequestManagerActor} {k : ℕ}
    {clock : ℕ → Instant} (hk : k ≠ 0) (h : b.blocksToRequest k clock = (b', [])) (i : ℕ) :
    ¬ b'.requestable i = true := by
  obtain ⟨hout, hreply⟩ := handedOut_blocksToRequest b k clock
  rw [h] at hout hreply
  have hnone : blocksHandedOut b k = [] := by simpa using hreply.symm
  have hleft := requestables_step hout
  intro hi
  have hmem : i ∈ requestables b := by
    rw [hleft, hnone, List.nil_append, requestables, List.mem_filter, List.mem_range,
      b'.length_required]
    exact ⟨lt_of_requestable hi, hi⟩
  exact blocksToRequest_ne_nil hk (List.mem_filter.mp hmem).2 h

/-- INTERNAL: `top_off_inflight_window` has found nothing to send.
SOURCE: peer_protocol_state_machine.rs:95-100, peer_protocol_state_machine.rs:139-147 -/
theorem stage_returns {actors : List (Option PieceRequestManagerActor)} {pass : TopOff}
    (h : OfPass full s x pass)
    (hexhausted : s.peerChoking = false →
      Exhausted s ⟨{ x.fsm with pieceActors := actors }, x.managerStopped⟩) :
    Stage full s
      ⟨{ x.fsm with pieceActors := actors, writer := pass.returns false }, x.managerStopped⟩
      (pass.returns false) := by
  have hfull := h.full_eq
  unfold TopOff.returns
  cases hpass : pass.full with
  | false =>
    intro hunchoked
    refine ⟨hexhausted hunchoked, fun heq => ?_⟩
    rw [← hfull, hpass] at heq
    cases heq
  | true =>
    cases hmade : pass.madeProgress with
    | false =>
      intro hunchoked
      exact ⟨hexhausted hunchoked, fun heq => h.declined heq hmade hunchoked⟩
    | true => exact hfull.symm.trans hpass

/-- INTERNAL: the loop over the candidates goes on, or no active piece has a requestable block.
SOURCE: peer_protocol_state_machine.rs:56-82 -/
theorem stage_tryNext {actors : List (Option PieceRequestManagerActor)} {pass : TopOff}
    {availableWindow : ℕ} {candidates : List PieceRequestManager} (h : OfPass full s x pass)
    (hwindow : availableWindow % 2 ^ 32 ≠ 0)
    (hcandidates : ∀ p mgr, x.fsm.activeRequests.lookup p = some mgr →
      mgr ∈ candidates ∨ ¬ Offers { x.fsm with pieceActors := actors } mgr) :
    Stage full s
      ⟨{ x.fsm with pieceActors := actors, writer := pass.tryNext availableWindow candidates },
        x.managerStopped⟩
      (pass.tryNext availableWindow candidates) := by
  cases candidates with
  | nil =>
    refine stage_returns h fun _ => Or.inr (Or.inr ?_)
    rintro ⟨p, mgr, hmgr, hoffers⟩
    exact (hcandidates p mgr hmgr).resolve_left List.not_mem_nil hoffers
  | cons c candidates => exact ⟨⟨h.full_eq, h.isChoked_eq, h.declined⟩, hwindow, nofun, hcandidates⟩

/-- INTERNAL: a candidate that is passed over has no blocks to give; the others are as they were. -/
theorem candidates_rest {c mgr : PieceRequestManager} {candidates : List PieceRequestManager}
    {b' : PieceRequestManagerActor} (hnone : ∀ i, ¬ b'.requestable i = true)
    (h : mgr ∈ c :: candidates ∨ ¬ Offers t mgr) :
    mgr ∈ candidates ∨
      ¬ Offers { t with pieceActors := t.pieceActors.set c.send (some b') } mgr := by
  by_cases hsend : c.send = mgr.send
  · right
    rintro ⟨b, i, hb, hi⟩
    unfold PeerFsm.pieceActor at hb
    rw [← hsend, List.getElem?_set_self'] at hb
    cases hold : t.pieceActors[c.send]? with
    | none =>
      rw [hold] at hb
      cases hb
    | some a =>
      rw [hold] at hb
      cases hb
      exact hnone i hi
  · rcases h with hmem | hnot
    · exact Or.inl (mem_rest hmem hsend)
    · right
      rintro ⟨b, i, hb, hi⟩
      rw [pieceActor_set_of_ne (some b') hsend] at hb
      exact hnot ⟨b, i, hb, hi⟩

/-- INTERNAL: a step of the writer keeps what holds where it stands.
SOURCE: peer_protocol_state_machine.rs:30-148 -/
theorem stage_writer (h : PassInv full s x) (hwindow : s.peerOptions.perPeerInflightCount < 2 ^ 32)
    (hwaits : x.fsm.writer ≠ .waiting) (hsends : failsToSend a = false)
    (hmove : WriterTaskMove x.fsm a u) : Stage full s ⟨u, x.managerStopped⟩ u.writer := by
  have hstage := h.stage
  have hoptions : x.fsm.peerOptions.perPeerInflightCount = s.peerOptions.perPeerInflightCount := by
    rw [h.options]
  cases hmove with
  | sendBitfield hw =>
    rw [hw] at hstage
    exact hstage.elim
  | fails hfails => rcases hfails with ⟨rfl, -⟩ | ⟨rfl, -⟩ | ⟨rfl, -⟩ <;> cases hsends
  | beginPass hw | beginTopOff hw => exact absurd hw hwaits
  | interest hw | noInterest hw =>
    rw [hw] at hstage
    exact ⟨hstage, h.peerChoking⟩
  | sendInterested hw | setInterested hw | insertRequest hw =>
    rw [hw] at hstage
    exact hstage
  | asks hw hlt =>
    rw [hw] at hstage
    exact ⟨hstage.1, hstage.2, hlt⟩
  | skips hw hcap =>
    rw [hw] at hstage
    refine ⟨hstage.1.symm, hstage.2, fun _ _ hunchoked => Or.inl (hcap.resolve_left ?_)⟩
    rw [hstage.2, hunchoked]
    exact Bool.false_ne_true
  | countPiece hw =>
    rw [hw] at hstage
    exact ⟨hstage.1.symm, hstage.2.1, fun _ hmade => absurd hmade (Bool.noConfusion)⟩
  | @windowShut pass hw hshut =>
    have hkept := h.window
    unfold KeepsWindow at hkept
    rw [hw] at hstage hkept
    refine stage_returns hstage fun hunchoked => ?_
    rw [hstage.isChoked_eq, hunchoked, hoptions, or_iff_right Bool.false_ne_true] at hshut
    rcases hkept with hle | ⟨hover, hsame, -⟩
    · exact Or.inl (Nat.le_antisymm hle hshut)
    · exact Or.inr (Or.inl (hsame ▸ hover))
  | windowOpen hw hunchoked hlt =>
    rw [hw] at hstage
    refine ⟨⟨hstage.full_eq, hstage.isChoked_eq, hstage.declined⟩, ?_⟩
    rw [Nat.mod_eq_of_lt (by omega)]
    omega
  | pick hw horder =>
    rw [hw] at hstage
    exact stage_tryNext hstage.1 hstage.2 fun p mgr hmgr =>
      Or.inl (HashMap.mem_filterMap_lookup horder hmgr)
  | noBlocks hw ha hblocks =>
    rw [hw] at hstage
    obtain ⟨hpass, hopen, -, hcandidates⟩ := hstage
    exact stage_tryNext hpass hopen fun p mgr hmgr =>
      candidates_rest (not_requestable_of_noBlocks hopen hblocks) (hcandidates p mgr hmgr)
  | blocks hw _ _ hne =>
    rw [hw] at hstage
    exact ⟨hne, hstage.1.full_eq, hstage.1.isChoked_eq⟩
  | gone hw ha =>
    rw [hw] at hstage
    obtain ⟨hpass, hopen, -, hcandidates⟩ := hstage
    refine stage_tryNext hpass hopen fun p mgr hmgr => ?_
    rcases hcandidates p mgr hmgr with hmem | hnot
    · rcases List.mem_cons.mp hmem with rfl | hmem
      · refine Or.inr fun hoffers => ?_
        obtain ⟨b, i, hb, -⟩ := hoffers
        exact nomatch hb.symm.trans ha
      · exact Or.inl hmem
    · exact Or.inr hnot
  | sendRequest hw =>
    rw [hw] at hstage
    exact hstage.2
  | @countRequest pass c reqPieces hw =>
    rw [hw] at hstage
    obtain ⟨hfull, hchoked⟩ := hstage
    cases reqPieces with
    | cons p reqPieces => exact ⟨nofun, hfull, hchoked⟩
    | nil =>
      cases hpass : pass.full with
      | true =>
        have hnext : pass.sendNext c [] = .passing := by
          simp [TopOff.sendNext, TopOff.returns, hpass]
        rw [hnext]
        exact hfull.symm.trans hpass
      | false =>
        have hnext : pass.sendNext c [] = .toppingOff pass := by
          simp [TopOff.sendNext, TopOff.returns, hpass]
        rw [hnext]
        refine ⟨hfull, hchoked, fun heq => ?_⟩
        rw [heq, hpass] at hfull
        cases hfull

/-- INTERNAL: a step of the writer keeps where a pass can be. -/
theorem passInv_writer (h : PassInv full s x)
    (hwindow : s.peerOptions.perPeerInflightCount < 2 ^ 32)
    (hwaits : x.fsm.writer ≠ .waiting) (hsends : failsToSend a = false)
    (hmove : WriterTaskMove x.fsm a u) : PassInv full s ⟨u, x.managerStopped⟩ := by
  obtain ⟨blocks, hledger⟩ := h.ledger
  refine ⟨(peerChoking_writer hmove).trans h.peerChoking,
    (peerOptions_writer hmove).trans h.options, fun hlive => asks_writer (h.mail hlive) hmove, ?_,
    keepsWindow_writer h.options h.window hmove, stage_writer h hwindow hwaits hsends hmove⟩
  refine ledger_writer hledger hsends ?_ hmove
  rcases h.window with hle | ⟨-, -, hzero⟩
  · exact Or.inl (by omega)
  · exact Or.inr hzero

end Writer

/-! ## The answers of the manager -/

theorem peerOptions_managerStep {m m' : TorrentManagerActor} {msg : TorrentManagerMessage}
    {env : Env} {r : TorrentManagerReply} (h : managerStep m (msg, env) = some (m', r)) :
    m'.peerOptions = m.peerOptions := by
  cases managerEffect h <;> rfl

/-- INTERNAL: a manager that finds no piece for a peer finds none in any order.
SOURCE: torrent_manager.rs:127-195 -/
theorem requestWork_none {m m' : TorrentManagerActor} {q : String} {env : Env}
    (h : m.requestWork q env = some (m', none)) :
    m' = m ∧ ∀ env, m.requestWork q env = some (m, none) := by
  rcases requestWork_eq_some h with ⟨-, rfl, hnone⟩ | ⟨b, p, mgr, -, -, -, hmgr⟩
  · refine ⟨rfl, fun env' => ?_⟩
    unfold TorrentManagerActor.requestWork
    cases hb : m'.peerBitfields.lookup q with
    | none => rfl
    | some b =>
      have hfind : (m'.bucketsInOrder env'.order).find? (m'.selectable q b) = none := by
        refine List.find?_eq_none.mpr fun p hp => ?_
        have hp' : p ∈ m'.bucketsInOrder env.order :=
          mem_bucketsInOrder.mpr (mem_bucketsInOrder.mp hp)
        exact ne_true_of_eq_false (hnone b hb p hp')
      simp only [hfind]
  · cases hmgr

section Manager

variable {full : Bool} {u : PeerFsm} {x : Pass} {isChoked : Bool}

/-- INTERNAL: with an empty mailbox a writer that does not wait for an answer asks for nothing. -/
theorem asks_of_nil (hmail : u.mailbox = []) (hw : ∀ isChoked, u.writer ≠ .requesting isChoked) :
    Asks u :=
  ⟨fun _ => by simp [hmail], fun isChoked h => absurd h (hw isChoked)⟩

/-- INTERNAL: while the writer waits, the manager answers someone before it, or has no piece for
it, or grants it one.
SOURCE: torrent_manager.rs:127-228, torrent_manager.rs:472-480 -/
theorem answer_cases {env : Env} (hw : t.writer = .requesting isChoked) (hasks : Asks t)
    (h : t.handle env = some u) :
    Asks u ∧ (u.writer = .requesting isChoked ∨
      u.writer = .toppingOff ⟨true, isChoked, false⟩ ∧ NoPiece ⟨u, false⟩ ∨
        ∃ req, u.writer = .granted isChoked req) := by
  obtain ⟨earlier, hbox, hearlier⟩ := hasks.asking isChoked hw
  have hstep : fsmStep (fun _ => []) t (.handle env) = some (u, ()) := by simp [fsmStep, h]
  cases fsmMove hstep with
  | @handle _ sender msg mailbox manager reply hmail hmanager =>
    rw [hbox] at hmail
    cases earlier with
    | nil =>
      cases hmail
      obtain ⟨⟨m, work⟩, hwork, heq⟩ := Option.map_eq_some_iff.mp hmanager
      cases heq
      cases work with
      | none =>
        obtain ⟨rfl, hnone⟩ := requestWork_none hwork
        have hnext : t.writer.receives .writer (.work none) =
            .toppingOff ⟨true, isChoked, false⟩ := by
          rw [hw]
          rfl
        exact ⟨asks_of_nil rfl (by simp [hnext]),
          Or.inr (Or.inl ⟨hnext, Or.inr hnone⟩)⟩
      | some req =>
        have hnext : t.writer.receives .writer (.work (some req)) = .granted isChoked req := by
          rw [hw]
          rfl
        exact ⟨asks_of_nil rfl (by simp [hnext]),
          Or.inr (Or.inr ⟨req, hnext⟩)⟩
    | cons mail earlier =>
      rw [List.forall_mem_cons] at hearlier
      obtain ⟨rfl, rfl⟩ := List.cons.inj hmail
      have hnext : t.writer.receives sender reply = .requesting isChoked := by
        rw [hw]
        cases sender with
        | writer => exact absurd rfl hearlier.1
        | _ => rfl
      refine ⟨⟨fun hnot => absurd hnext (hnot _), fun _ _ => ⟨earlier, rfl, hearlier.2⟩⟩, ?_⟩
      exact Or.inl hnext

/-- INTERNAL: an answer leaves what the pass has asked for and counted as it was. -/
theorem handle_frame {env : Env} (h : t.handle env = some u) :
    u.peerChoking = t.peerChoking ∧ u.peerOptions = t.peerOptions ∧ u.sent = t.sent ∧
      u.inflightMessages = t.inflightMessages ∧
      u.pendingActiveRequestCount = t.pendingActiveRequestCount ∧
      allowance u.writer = allowance t.writer ∧ ∀ place, InFlight u place ↔ InFlight t place := by
  have hstep : fsmStep (fun _ => []) t (.handle env) = some (u, ()) := by simp [fsmStep, h]
  cases fsmMove hstep with
  | handle hmail hmanager =>
    exact ⟨rfl, peerOptions_managerStep hmanager, rfl, rfl, rfl, allowance_receives _ _ _,
      fun _ => inFlight_spawned⟩

/-- INTERNAL: the manager's answers keep where a pass can be. -/
theorem passInv_handle {env : Env} (h : PassInv full s x) (hw : x.fsm.writer = .requesting isChoked)
    (hlive : x.managerStopped = false) (hhandle : x.fsm.handle env = some u) :
    PassInv full s ⟨u, false⟩ := by
  obtain ⟨hchoking, hoptions, hsent, hinflight, hpending, hallowance, hinFlight⟩ :=
    handle_frame hhandle
  obtain ⟨hasks, hanswer⟩ := answer_cases hw (h.mail hlive) hhandle
  obtain ⟨blocks, hledger⟩ := h.ledger
  have hstage := h.stage
  rw [hw] at hstage
  obtain ⟨hfull, hchoked, hroom⟩ := hstage
  rw [← hpending, ← hoptions] at hroom
  have hcountedAll : AllCounted u.writer := by
    rcases hanswer with hnext | ⟨hnext, -⟩ | ⟨req, hnext⟩ <;> rw [hnext] <;> exact ⟨rfl, rfl⟩
  refine ⟨hchoking.trans h.peerChoking, hoptions.trans h.options, fun _ => hasks,
    ⟨blocks, hledger.congr hinFlight hsent hinflight (hw ▸ ⟨rfl, rfl⟩) hcountedAll⟩, ?_, ?_⟩
  · unfold KeepsWindow
    rw [hinflight, hallowance]
    exact h.window
  · change Stage full s ⟨u, false⟩ u.writer
    rcases hanswer with hnext | ⟨hnext, hnone⟩ | ⟨req, hnext⟩ <;> rw [hnext]
    · exact ⟨hfull, hchoked, hroom⟩
    · exact ⟨hfull.symm, hchoked, fun _ _ _ => Or.inr hnone⟩
    · exact ⟨hfull, hchoked, hroom⟩

end Manager

/-! ## How far a pass is from its end -/

/-- Progress that the round will end with. -/
def progressMade : WriterTask → ℕ
  | .toppingOff pass | .picking pass _ | .trying pass _ _ | .sending pass _ _ | .sent pass _ _ =>
    if pass.madeProgress then 1 else 0
  | _ => 0

/-- How much room is left for active pieces and messages in flight; progress that was made in this
round is not used up before its end. -/
def room (t : PeerFsm) : ℕ :=
  (t.peerOptions.perPeerActiveRequestCount - t.pendingActiveRequestCount) +
    (t.peerOptions.perPeerInflightCount - t.inflightMessages) + progressMade t.writer

/-- How far a pass is from its end. -/
def passDistance (x : Pass) : ℕ ×ₗ (ℕ ×ₗ ℕ) := toLex (room x.fsm, distance x.fsm)

section Distance

variable {full : Bool} {a : WriterAct} {u : PeerFsm} {x y : Pass}

theorem passDistance_lt_of_room (h : room y.fsm < room x.fsm) : passDistance y < passDistance x :=
  Prod.Lex.toLex_lt_toLex.mpr (Or.inl h)

theorem passDistance_lt_of_distance (hroom : room y.fsm = room x.fsm)
    (h : distance y.fsm < distance x.fsm) : passDistance y < passDistance x :=
  Prod.Lex.toLex_lt_toLex.mpr (Or.inr ⟨hroom, h⟩)

/-- INTERNAL: a round without a `Request` ends the pass, or uses up the progress that was made. -/
theorem passDistance_returns {actors : List (Option PieceRequestManagerActor)} {pass : TopOff}
    {stopped : Bool}
    (hmade : progressMade x.fsm.writer = if pass.madeProgress then 1 else 0)
    (hdistance : toLex (0, 0) < distance x.fsm) :
    passDistance ⟨{ x.fsm with pieceActors := actors, writer := pass.returns false }, stopped⟩ <
      passDistance x := by
  have hnone : progressMade (pass.returns false) = 0 := by
    unfold TopOff.returns
    cases pass.full <;> cases hmade : pass.madeProgress <;> simp [progressMade]
  cases hprogress : pass.madeProgress with
  | true =>
    apply passDistance_lt_of_room
    rw [hprogress, if_pos rfl] at hmade
    unfold room
    rw [hnone, hmade]
    exact Nat.lt_succ_self _
  | false =>
    have hends : pass.returns false = .waiting := by
      unfold TopOff.returns
      cases pass.full <;> simp [hprogress]
    rw [hprogress, if_neg Bool.false_ne_true] at hmade
    apply passDistance_lt_of_distance
    · unfold room
      rw [hnone, hmade]
      rfl
    · unfold distance
      simp only [hends]
      exact hdistance

/-- INTERNAL: the loop over the candidates comes to an end. -/
theorem passDistance_tryNext {actors : List (Option PieceRequestManagerActor)} {pass : TopOff}
    {availableWindow : ℕ} {candidates : List PieceRequestManager} {stopped : Bool}
    (hmade : progressMade x.fsm.writer = if pass.madeProgress then 1 else 0)
    (hdistance : toLex (2, candidates.length) < distance x.fsm) :
    passDistance
        ⟨{ x.fsm with pieceActors := actors, writer := pass.tryNext availableWindow candidates },
          stopped⟩ <
      passDistance x := by
  cases candidates with
  | nil =>
    refine passDistance_returns hmade (lt_of_le_of_lt ?_ hdistance)
    simp [Prod.Lex.toLex_le_toLex]
  | cons c candidates =>
    apply passDistance_lt_of_distance
    · unfold room
      rw [hmade]
      rfl
    · exact hdistance

/-- INTERNAL: every step of the writer comes closer to the end of the pass.
SOURCE: peer_protocol_state_machine.rs:30-148 -/
theorem passDistance_writer (h : PassInv full s x)
    (hcount : s.peerOptions.perPeerActiveRequestCount < 2 ^ 64)
    (hwindow : s.peerOptions.perPeerInflightCount < 2 ^ 32)
    (hwaits : x.fsm.writer ≠ .waiting) (hsends : failsToSend a = false)
    (hmove : WriterTaskMove x.fsm a u) : passDistance ⟨u, x.managerStopped⟩ < passDistance x := by
  have hstage := h.stage
  cases hmove with
  | sendBitfield hw =>
    rw [hw] at hstage
    exact hstage.elim
  | fails hfails => rcases hfails with ⟨rfl, -⟩ | ⟨rfl, -⟩ | ⟨rfl, -⟩ <;> cases hsends
  | beginPass hw | beginTopOff hw => exact absurd hw hwaits
  | countPiece hw =>
    rw [hw] at hstage
    have hlt := hstage.2.2
    have hsum : u64Add x.fsm.pendingActiveRequestCount 1 =
        x.fsm.pendingActiveRequestCount + 1 := by
      rw [h.options] at hlt
      exact Nat.mod_eq_of_lt (by omega)
    apply passDistance_lt_of_distance
    · simp only [room, hw, progressMade, hsum, if_true, PeerFsm.peerOptions] at hlt ⊢
      omega
    · simp [distance, hw, Prod.Lex.toLex_lt_toLex]
  | windowShut hw =>
    apply passDistance_returns
    · rw [hw]
      rfl
    · simp [distance, hw, Prod.Lex.toLex_lt_toLex]
  | pick hw | noBlocks hw | gone hw =>
    apply passDistance_tryNext
    · rw [hw]
      rfl
    · simp [distance, hw, Prod.Lex.toLex_lt_toLex]
  | @countRequest pass c reqPieces hw =>
    have hkept := h.window
    unfold KeepsWindow at hkept
    rw [hw] at hkept
    have hroom : x.fsm.inflightMessages + (reqPieces.length + 1) ≤
        s.peerOptions.perPeerInflightCount := by
      rcases hkept with hle | ⟨-, -, hzero⟩
      · exact hle
      · cases hzero
    have hsum : u64Add x.fsm.inflightMessages 1 = x.fsm.inflightMessages + 1 :=
      Nat.mod_eq_of_lt (by omega)
    have hprogress : progressMade (pass.sendNext c reqPieces) ≤ progressMade x.fsm.writer := by
      rw [hw]
      cases reqPieces with
      | nil =>
        unfold TopOff.sendNext TopOff.returns
        cases pass.full <;> simp [progressMade]
      | cons p reqPieces => exact le_rfl
    apply passDistance_lt_of_room
    rw [← h.options] at hroom
    simp only [room, hsum, PeerFsm.peerOptions] at hroom ⊢
    omega
  | _ hw =>
    apply passDistance_lt_of_distance
    · simp [room, hw, progressMade, PeerFsm.peerOptions]
    · simp [distance, hw, Prod.Lex.toLex_lt_toLex]

/-- INTERNAL: an answer of the manager comes closer to the end of the pass. -/
theorem passDistance_handle {env : Env} {isChoked : Bool} (h : PassInv full s x)
    (hw : x.fsm.writer = .requesting isChoked) (hlive : x.managerStopped = false)
    (hhandle : x.fsm.handle env = some u) : passDistance ⟨u, false⟩ < passDistance x := by
  obtain ⟨-, hoptions, -, hinflight, hpending, -⟩ := handle_frame hhandle
  have hshorter : u.mailbox.length < x.fsm.mailbox.length := by
    have hstep : fsmStep (fun _ => []) x.fsm (.handle env) = some (u, ()) := by
      simp [fsmStep, hhandle]
    cases fsmMove hstep with
    | handle hmail =>
      rw [hmail]
      exact Nat.lt_succ_self _
  apply passDistance_lt_of_distance
  · rcases (answer_cases hw (h.mail hlive) hhandle).2 with hnext | ⟨hnext, -⟩ | ⟨req, hnext⟩ <;>
      simp [room, hw, hnext, progressMade, hoptions, hinflight, hpending]
  · rcases (answer_cases hw (h.mail hlive) hhandle).2 with hnext | ⟨hnext, -⟩ | ⟨req, hnext⟩ <;>
      simp [distance, hw, hnext, Prod.Lex.toLex_lt_toLex, hshorter]

theorem goes_of_isSome {e : PassEvent} (h : (passStep x e).isSome = true) :
    ∃ e t r, passStep x e = some (t, r) := by
  obtain ⟨⟨t, r⟩, ht⟩ := Option.isSome_iff_exists.mp h
  exact ⟨e, t, r, ht⟩

/-- INTERNAL: a pass that has not returned goes on.
SOURCE: peer_protocol_state_machine.rs:30-148, torrent_manager.rs:472-480 -/
theorem pass_goes (h : PassInv full s x) (hwaits : x.fsm.writer ≠ .waiting) :
    ∃ e t r, passStep x e = some (t, r) := by
  have hstage := h.stage
  cases hw : x.fsm.writer with
  | passing =>
    apply goes_of_isSome (e := .writer .sample)
    simp [passStep, hw, failsToSend, PeerFsm.writerStep]
  | interesting isChoked =>
    apply goes_of_isSome (e := .writer (.sendInterested true))
    simp [passStep, hw, failsToSend, PeerFsm.writerStep]
  | interested isChoked =>
    apply goes_of_isSome (e := .writer .setInterested)
    simp [passStep, hw, failsToSend, PeerFsm.writerStep]
  | counting isChoked =>
    apply goes_of_isSome (e := .writer .loadCount)
    simp only [passStep, hw, failsToSend, PeerFsm.writerStep, Bool.false_eq_true, if_false,
      Option.isSome_map]
    split <;> rfl
  | requesting isChoked =>
    cases hstopped : x.managerStopped with
    | true =>
      apply goes_of_isSome (e := .noAnswer)
      simp [passStep, hw, hstopped]
    | false =>
      obtain ⟨earlier, hbox, -⟩ := (h.mail hstopped).asking isChoked hw
      apply goes_of_isSome (e := .handle .quiet)
      simp only [passStep, hw, hstopped, hbox]
      cases x.fsm.handle .quiet <;> simp
  | granted isChoked req =>
    apply goes_of_isSome (e := .writer .insertRequest)
    simp [passStep, hw, failsToSend, PeerFsm.writerStep]
  | inserted isChoked req =>
    apply goes_of_isSome (e := .writer .countPiece)
    simp [passStep, hw, failsToSend, PeerFsm.writerStep]
  | toppingOff pass =>
    apply goes_of_isSome (e := .writer .loadInflight)
    simp only [passStep, hw, failsToSend, PeerFsm.writerStep, Bool.false_eq_true, if_false,
      Option.isSome_map]
    split <;> rfl
  | picking pass availableWindow =>
    obtain ⟨order, horder⟩ := Quot.exists_rep x.fsm.activeRequests.keys.val
    apply goes_of_isSome (e := .writer (.pick order))
    simp only [passStep, hw, failsToSend, PeerFsm.writerStep]
    rw [if_pos (show (order : Multiset ℕ) = _ from horder)]
    rfl
  | trying pass availableWindow candidates =>
    rw [hw] at hstage
    cases candidates with
    | nil => exact absurd rfl hstage.2.2.1
    | cons c candidates =>
      apply goes_of_isSome (e := .writer (.requestBlock fun _ => 0))
      simp only [passStep, hw, failsToSend, PeerFsm.writerStep]
      cases x.fsm.pieceActor c.send <;> rfl
  | sending pass c reqPieces =>
    rw [hw] at hstage
    cases reqPieces with
    | nil => exact absurd rfl hstage.1
    | cons p reqPieces =>
      apply goes_of_isSome (e := .writer (.sendRequest true))
      simp [passStep, hw, failsToSend, PeerFsm.writerStep]
  | sent pass c reqPieces =>
    apply goes_of_isSome (e := .writer .countRequest)
    simp [passStep, hw, failsToSend, PeerFsm.writerStep]
  | waiting => exact absurd hw hwaits
  | _ =>
    rw [hw] at hstage
    exact hstage.elim

/-- INTERNAL: every step of a pass keeps where it can be and comes closer to its end. -/
theorem passInv_step {e : PassEvent} {r : Unit}
    (hcount : s.peerOptions.perPeerActiveRequestCount < 2 ^ 64)
    (hwindow : s.peerOptions.perPeerInflightCount < 2 ^ 32) (h : PassInv full s x)
    (hstep : passStep x e = some (y, r)) : PassInv full s y ∧ passDistance y < passDistance x := by
  cases passMove hstep with
  | writer hwaits hsends hmove =>
    exact ⟨passInv_writer h hwindow hwaits hsends hmove,
      passDistance_writer h hcount hwindow hwaits hsends hmove⟩
  | handle hw hlive hhandle =>
    exact ⟨passInv_handle h hw hlive hhandle, passDistance_handle h hw hlive hhandle⟩
  | stops hw hmail =>
    obtain ⟨blocks, hledger⟩ := h.ledger
    refine ⟨⟨h.peerChoking, h.options, by simp, ⟨blocks, hledger.congr (fun _ => Iff.rfl) rfl rfl
      (hw ▸ ⟨rfl, rfl⟩) (hw ▸ ⟨rfl, rfl⟩)⟩, h.window, ?_⟩, ?_⟩
    · have hstage := h.stage
      change Stage full s _ x.fsm.writer
      rw [hw] at hstage ⊢
      exact hstage
    · apply passDistance_lt_of_distance
      · rfl
      · simp [distance, hw, Prod.Lex.toLex_lt_toLex, List.length_pos_iff.mpr hmail]
  | noAnswer hw =>
    obtain ⟨blocks, hledger⟩ := h.ledger
    have hkept := h.window
    have hstage := h.stage
    unfold KeepsWindow at hkept
    rw [hw] at hkept hstage
    refine ⟨⟨h.peerChoking, h.options, by simp, ⟨blocks, hledger.congr (fun _ => Iff.rfl) rfl rfl
      (hw ▸ ⟨rfl, rfl⟩) ⟨rfl, rfl⟩⟩, hkept, ?_⟩, ?_⟩
    · exact ⟨hstage.1.symm, hstage.2.1, fun _ _ _ => Or.inr (Or.inl rfl)⟩
    · apply passDistance_lt_of_distance
      · simp [room, hw, progressMade, PeerFsm.peerOptions]
      · simp [distance, hw, Prod.Lex.toLex_lt_toLex]

end Distance

/-! ## Between passes -/

/-- How many messages of the writer are in the manager's channel. -/
def writerMail (t : PeerFsm) : ℕ := t.mailbox.countP fun mail => mail.sender = .writer

/-- The writer has at most one message in the channel, and none unless it waits for the answer. -/
structure WaitsForAnswer (t : PeerFsm) : Prop where
  one : writerMail t ≤ 1
  quiet : (∀ isChoked, t.writer ≠ .requesting isChoked) → writerMail t = 0

theorem writerMail_append {mailbox : List Mail} {mail : Mail} (h : mail.sender ≠ .writer) :
    (mailbox ++ [mail]).countP (fun mail => mail.sender = .writer) =
      mailbox.countP fun mail => mail.sender = .writer := by
  simp [List.countP_append, h]

/-- INTERNAL: every step keeps that the writer waits for each answer.
SOURCE: torrent_manager.rs:472-480 -/
theorem waitsForAnswer_step {sha1 : Bytes → Bytes} {u : PeerFsm} {e : FsmEvent} {r : Unit}
    (h : WaitsForAnswer t) (hstep : fsmStep sha1 t e = some (u, r)) : WaitsForAnswer u := by
  have hsame (hcount : writerMail u = writerMail t) (hwriter : u.writer = t.writer) :
      WaitsForAnswer u := by
    refine ⟨hcount ▸ h.one, fun hnot => ?_⟩
    rw [hwriter] at hnot
    exact hcount ▸ h.quiet hnot
  cases fsmMove hstep with
  | register hw =>
    have hzero := h.quiet fun _ hasks => nomatch hw.symm.trans hasks
    have hcount : writerMail (t.send .connection (.addPeer t.peerId [])) = writerMail t :=
      writerMail_append nofun
    exact ⟨hcount.trans_le h.one, fun _ => hcount.trans hzero⟩
  | elsewhere => exact hsame (writerMail_append nofun) rfl
  | pieceActor => exact hsame rfl rfl
  | @handle _ sender msg mailbox manager reply hmail hmanager =>
    have hcount : writerMail t = mailbox.countP (fun mail => mail.sender = .writer) +
        if sender = .writer then 1 else 0 := by
      unfold writerMail
      rw [hmail, List.countP_cons]
      simp
    have hone := h.one
    have hquiet := h.quiet
    rw [hcount] at hone hquiet
    refine ⟨(Nat.le_add_right _ _).trans hone, fun hnot => ?_⟩
    change mailbox.countP (fun mail => mail.sender = .writer) = 0
    by_cases hsender : sender = .writer
    · rw [if_pos hsender] at hone
      omega
    · rw [if_neg hsender] at hquiet
      refine hquiet fun isChoked hasks => hnot isChoked ?_
      change t.writer.receives sender reply = .requesting isChoked
      rw [hasks]
      cases sender with
      | writer => exact absurd rfl hsender
      | _ => rfl
  | writer hmove =>
    have hzero := h.quiet (not_requesting_of_move hmove)
    cases hmove with
    | asks =>
      refine ⟨?_, fun hnot => absurd rfl (hnot false)⟩
      unfold writerMail at hzero ⊢
      rw [List.countP_append, hzero]
      simp
    | _ => exact ⟨hzero.trans_le (Nat.zero_le _), fun _ => hzero⟩
  | reader hmove =>
    cases hmove with
    | had | bitfield | askUseful | untracked | pieceFinish =>
      exact hsame (writerMail_append nofun) rfl
    | _ => exact hsame rfl rfl
  | watchdog hmove =>
    cases hmove with
    | tick => exact hsame (writerMail_append nofun) rfl
    | _ => exact hsame rfl rfl

/-- INTERNAL: in every state that a run reaches, a writer that does not wait for an answer has no
message in the manager's channel.
SOURCE: torrent_manager.rs:472-480 -/
theorem quiet_of_run {torrent : ClientTorrentMetaInfo} {options : PeerOptions} {peerId : String}
    {sha1 : Bytes → Bytes} (hstart : PeerFsm.new torrent options peerId = some s)
    {es : List FsmEvent} (hrun : run (fsmStep sha1) s es = some t)
    (hw : ∀ isChoked, t.writer ≠ .requesting isChoked) :
    ∀ mail ∈ t.mailbox, mail.sender ≠ .writer := by
  have hinv : WaitsForAnswer t := by
    refine run_invariant (fun _ _ _ _ h he => waitsForAnswer_step h he) ?_ hrun
    obtain ⟨manager, -, rfl⟩ := fsm_new_eq_some hstart
    exact ⟨Nat.zero_le _, fun _ => rfl⟩
  intro mail hmail
  simpa using List.countP_eq_zero.mp (hinv.quiet hw) mail hmail

/-! ## The fixpoint -/

/-- INTERNAL: a pass that has returned is at a fixpoint. -/
theorem PassInv.fixpoint {full : Bool} {x : Pass} (h : PassInv full s x)
    (hw : x.fsm.writer = .waiting) : Fixpoint full s x := by
  obtain ⟨blocks, hledger⟩ := h.ledger
  have hsent := hledger.sent
  have hcounted := hledger.counted
  have hstage := h.stage
  rw [hw] at hsent hcounted hstage
  obtain ⟨msgs, hmsgs, hrequests⟩ := hsent
  refine ⟨hw, ⟨blocks, hledger.newly, ⟨msgs, hmsgs, ?_⟩, hcounted⟩,
    fun hunchoked => (hstage hunchoked).1, fun hfull hunchoked => (hstage hunchoked).2 hfull⟩
  rw [← hrequests]
  exact (List.append_nil _).symm

/-- Where a pass begins: at the head of `run_full_pass`, or in `run_window_topoff` once it has
sampled the choke flag. -/
def passBegins (full : Bool) (s : PeerFsm) : PeerFsm :=
  { s with writer := if full then .passing else .toppingOff ⟨false, s.peerChoking, false⟩ }

/-- A connection that may ask for the piece its peer has. -/
def mayAsk : PeerFsm :=
  (run (fsmStep fun _ => []) fsmStart (askForPiece.take 11)).get (by decide +kernel)

end Fissure.Analysis
