import Fissure.Analysis.FullPass

/-!
# A pass that nothing interrupts

`run_full_pass` and `run_window_topoff` loop for as long as they make progress. `passStep` is such a
pass with no other task in between: the writer goes on, and the manager handles messages while the
writer waits for it. `Fixpoint` is what a pass comes to, `PassInv` is where it can be before that.
Its ledger holds the blocks that went in flight, each once, with the `Request`s for them
(`ledger_writer`).
-/

set_option autoImplicit false

namespace Fissure.Analysis

open Fissure.Library Fissure.Model
open Fissure.Model.PieceRequestManagerActor

/-! ## A pass that nothing interrupts -/

/-- A connection in a pass; the manager may have stopped. -/
structure Pass where
  fsm : PeerFsm
  managerStopped : Bool

/-- What happens in a pass that no other task interrupts. -/
inductive PassEvent
  | writer (a : WriterAct)
  /-- the manager, for which the writer waits, handles the next message -/
  | handle (env : Env)
  /-- the manager has stopped, and `request_piece` gets no answer -/
  | noAnswer

/-- A message to the peer cannot be sent. -/
def failsToSend : WriterAct → Bool
  | .sendBitfield ok | .sendInterested ok | .sendRequest ok => !ok
  | _ => false

/-- One step of a pass in which every message to the peer is sent, `none` once the pass has
returned. A manager that does not survive a message drops those that it has.
SOURCE: peer_protocol_state_machine.rs:30-148, torrent_manager.rs:472-480 -/
def passStep (s : Pass) (e : PassEvent) : Option (Pass × Unit) :=
  match s.fsm.writer, e with
  | .waiting, _ => none
  | .requesting _, .handle env =>
    if s.managerStopped || s.fsm.mailbox.isEmpty then none
    else match s.fsm.handle env with
      | some t => some (⟨t, false⟩, ())
      | none => some (⟨{ s.fsm with mailbox := [] }, true⟩, ())
  | .requesting isChoked, .noAnswer =>
    if s.managerStopped then
      some (⟨{ s.fsm with mailbox := [], writer := .toppingOff ⟨true, isChoked, false⟩ }, true⟩, ())
    else none
  | _, .writer a =>
    if failsToSend a then none else (s.fsm.writerStep a).map fun t => (⟨t, s.managerStopped⟩, ())
  | _, _ => none

/-- What a step of a pass does. -/
inductive PassMove (s : Pass) : Pass → Prop
  | writer {a : WriterAct} {t : PeerFsm} (hwaits : s.fsm.writer ≠ .waiting)
      (hsends : failsToSend a = false) (hmove : WriterTaskMove s.fsm a t) :
      PassMove s ⟨t, s.managerStopped⟩
  | handle {env : Env} {isChoked : Bool} {t : PeerFsm} (hw : s.fsm.writer = .requesting isChoked)
      (hlive : s.managerStopped = false) (h : s.fsm.handle env = some t) : PassMove s ⟨t, false⟩
  | stops {isChoked : Bool} (hw : s.fsm.writer = .requesting isChoked)
      (hmail : s.fsm.mailbox ≠ []) : PassMove s ⟨{ s.fsm with mailbox := [] }, true⟩
  | noAnswer {isChoked : Bool} (hw : s.fsm.writer = .requesting isChoked) :
      PassMove s
        ⟨{ s.fsm with mailbox := [], writer := .toppingOff ⟨true, isChoked, false⟩ }, true⟩

/-- INTERNAL: everything a step of a pass does. -/
theorem passMove {s t : Pass} {e : PassEvent} {r : Unit} (h : passStep s e = some (t, r)) :
    PassMove s t := by
  unfold passStep at h
  split at h
  · cases h
  · next hw =>
    split_ifs at h with hmail
    rw [Bool.or_eq_true, not_or, Bool.not_eq_true, List.isEmpty_iff] at hmail
    split at h
    · next hhandle =>
      cases h
      exact .handle hw hmail.1 hhandle
    · cases h
      exact .stops hw hmail.2
  · next hw =>
    split_ifs at h
    cases h
    exact .noAnswer hw
  · next a hwaits =>
    split_ifs at h with hsends
    obtain ⟨u, hu, heq⟩ := Option.map_eq_some_iff.mp h
    cases heq
    exact .writer hwaits (eq_false_of_ne_true hsends) (writerTaskMove hu)
  · cases h

/-! ## What a pass comes to -/

/-- A block that was asked for: the manager of its piece, its index and its length. -/
structure AskedBlock where
  mgr : PieceRequestManager
  index : ℕ
  length : ℕ

/-- The channel of the piece actor, and the index of the block there. -/
def AskedBlock.place (b : AskedBlock) : ℕ × ℕ := (b.mgr.send, b.index)

/-- The `Request` for the block. -/
def AskedBlock.request (b : AskedBlock) : PeerMessage :=
  PeerFsm.requestOf b.mgr (convertBlockIndexToOffset b.index, b.length)

/-- The block is in flight. -/
def InFlight (s : PeerFsm) (place : ℕ × ℕ) : Prop :=
  ∃ a, s.pieceActor place.1 = some a ∧ a.blocksInFlight.getD place.2 false = true

/-- From `s` to `t` just these blocks went in flight, each once. -/
structure NewlyInFlight (s t : PeerFsm) (blocks : List AskedBlock) : Prop where
  nodup : (blocks.map AskedBlock.place).Nodup
  fresh : ∀ b ∈ blocks, ¬ InFlight s b.place
  marked : ∀ place, InFlight t place ↔ InFlight s place ∨ place ∈ blocks.map AskedBlock.place

/-- From `s` to `t` one `Request` was sent for each block that went in flight, and counted. -/
structure RequestsMatch (s t : PeerFsm) (blocks : List AskedBlock) : Prop where
  newly : NewlyInFlight s t blocks
  sent : ∃ msgs, t.sent = s.sent ++ msgs ∧ msgs.filter isRequest = blocks.map AskedBlock.request
  counted : t.inflightMessages = s.inflightMessages + blocks.length

/-- The manager has no piece for the peer, in whichever order it looks for one. -/
def NoPiece (t : Pass) : Prop :=
  t.managerStopped = true ∨
    ∀ env, t.fsm.manager.requestWork t.fsm.peerId env = some (t.fsm.manager, none)

/-- There is no room for another active piece, or none to be had. -/
def Declined (t : Pass) : Prop :=
  t.fsm.peerOptions.perPeerActiveRequestCount ≤ t.fsm.pendingActiveRequestCount ∨ NoPiece t

/-- The window is full, or it was over full before, or no active piece has a requestable block. -/
def Exhausted (s : PeerFsm) (t : Pass) : Prop :=
  t.fsm.inflightMessages = s.peerOptions.perPeerInflightCount ∨
    s.peerOptions.perPeerInflightCount < s.inflightMessages ∨ ¬ HasRequestable t.fsm

/-- A pass that began in `s` has returned true in `t`, at a fixpoint; `full` says which one. -/
structure Fixpoint (full : Bool) (s : PeerFsm) (t : Pass) : Prop where
  returned : t.fsm.writer = .waiting
  requests : ∃ blocks, RequestsMatch s t.fsm blocks
  window : s.peerChoking = false → Exhausted s t
  pieces : full = true → s.peerChoking = false → Declined t

/-! ## The blocks in flight -/

variable {s t : PeerFsm}

/-- INTERNAL: a piece actor that has just started has nothing in flight. -/
theorem inFlight_spawned {reply : TorrentManagerReply} {place : ℕ × ℕ} :
    InFlight { s with pieceActors := s.spawned reply } place ↔ InFlight s place := by
  unfold InFlight PeerFsm.pieceActor PeerFsm.spawned
  dsimp only
  split
  · split_ifs
    · rcases lt_trichotomy place.1 s.pieceActors.length with hlt | heq | hgt
      · rw [List.getElem?_append_left hlt]
      · rw [heq, List.getElem?_concat_length, List.getElem?_eq_none le_rfl]
        simp [PieceRequestManagerActor.new, Bitfield.zeros]
      · rw [List.getElem?_eq_none (by simp; omega), List.getElem?_eq_none hgt.le]
    · rfl
  · rfl

/-- INTERNAL: what a piece actor hands out goes in flight, and nothing else does.
SOURCE: piece_manager.rs:77-97 -/
theorem inFlight_handedOut {a a' : PieceRequestManagerActor} {k : ℕ} {hs : List ℕ}
    {clock : ℕ → Instant} (ha : s.pieceActor k = some a) (h : HandedOut a a' hs clock)
    (place : ℕ × ℕ) :
    InFlight { s with pieceActors := s.pieceActors.set k (some a') } place ↔
      InFlight s place ∨ place.1 = k ∧ place.2 ∈ hs := by
  by_cases hk : place.1 = k
  · have ha' : ({ s with pieceActors := s.pieceActors.set k (some a') } : PeerFsm).pieceActor k =
        some a' := by
      unfold PeerFsm.pieceActor at ha ⊢
      have hlt : k < s.pieceActors.length := by
        by_contra hge
        simp [List.getElem?_eq_none (not_lt.mp hge)] at ha
      simp [List.getElem?_set_self hlt]
    unfold InFlight
    rw [hk, ha', ha]
    simp only [Option.some.injEq, exists_eq_left', h.inFlight, Bool.or_eq_true, decide_eq_true_eq,
      true_and]
    exact or_comm
  · unfold InFlight
    rw [pieceActor_set_of_ne (some a') (Ne.symm hk)]
    simp [hk]

/-! ## Where a pass stands -/

/-- The `Request`s for blocks in flight that are still to be sent. -/
def unsent : WriterTask → List PeerMessage
  | .sending _ c reqPieces | .sent _ c reqPieces => reqPieces.map (PeerFsm.requestOf c)
  | _ => []

/-- How many blocks in flight are still to be counted. -/
def notCounted : WriterTask → ℕ
  | .sending _ _ reqPieces => reqPieces.length
  | .sent _ _ reqPieces => reqPieces.length + 1
  | _ => 0

/-- All blocks in flight are sent and counted. -/
def AllCounted (w : WriterTask) : Prop := unsent w = [] ∧ notCounted w = 0

/-- From `s` to `t` the blocks went in flight; those that are not sent or counted yet are the
writer's. -/
structure Ledger (s t : PeerFsm) (blocks : List AskedBlock) : Prop where
  newly : NewlyInFlight s t blocks
  sent : ∃ msgs, t.sent = s.sent ++ msgs ∧
    msgs.filter isRequest ++ unsent t.writer = blocks.map AskedBlock.request
  counted : t.inflightMessages + notCounted t.writer = s.inflightMessages + blocks.length

/-- Only a writer that waits for an answer has a message in the channel, and then it is the last. -/
structure Asks (t : PeerFsm) : Prop where
  quiet : (∀ isChoked, t.writer ≠ .requesting isChoked) →
    ∀ mail ∈ t.mailbox, mail.sender ≠ .writer
  asking : ∀ isChoked, t.writer = .requesting isChoked →
    ∃ earlier, t.mailbox = earlier ++ [⟨.writer, .requestWork t.peerId⟩] ∧
      ∀ mail ∈ earlier, mail.sender ≠ .writer

/-- The window is kept, or it was over full before and nothing was asked for. -/
def KeepsWindow (s t : PeerFsm) : Prop :=
  t.inflightMessages + allowance t.writer ≤ s.peerOptions.perPeerInflightCount ∨
    s.peerOptions.perPeerInflightCount < t.inflightMessages ∧
      t.inflightMessages = s.inflightMessages ∧ allowance t.writer = 0

/-- A run of `top_off_inflight_window` in a pass that began in `s`: one without progress before was
declined a piece. -/
structure OfPass (full : Bool) (s : PeerFsm) (t : Pass) (pass : TopOff) : Prop where
  full_eq : pass.full = full
  isChoked_eq : pass.isChoked = s.peerChoking
  declined : full = true → pass.madeProgress = false → s.peerChoking = false → Declined t

/-- What holds where the writer stands in a pass that began in `s`. -/
def Stage (full : Bool) (s : PeerFsm) (t : Pass) : WriterTask → Prop
  | .passing => full = true
  | .interesting isChoked | .interested isChoked | .counting isChoked =>
    full = true ∧ isChoked = s.peerChoking
  | .requesting isChoked | .granted isChoked _ | .inserted isChoked _ =>
    full = true ∧ isChoked = s.peerChoking ∧
      t.fsm.pendingActiveRequestCount < t.fsm.peerOptions.perPeerActiveRequestCount
  | .toppingOff pass => OfPass full s t pass
  | .picking pass availableWindow => OfPass full s t pass ∧ availableWindow % 2 ^ 32 ≠ 0
  | .trying pass availableWindow candidates =>
    OfPass full s t pass ∧ availableWindow % 2 ^ 32 ≠ 0 ∧ candidates ≠ [] ∧
      ∀ p mgr, t.fsm.activeRequests.lookup p = some mgr → mgr ∈ candidates ∨ ¬ Offers t.fsm mgr
  | .sending pass _ reqPieces =>
    reqPieces ≠ [] ∧ pass.full = full ∧ pass.isChoked = s.peerChoking
  | .sent pass _ _ => pass.full = full ∧ pass.isChoked = s.peerChoking
  | .waiting => s.peerChoking = false → Exhausted s t ∧ (full = true → Declined t)
  | _ => False

/-- Where a pass that began in `s` can be. -/
structure PassInv (full : Bool) (s : PeerFsm) (t : Pass) : Prop where
  peerChoking : t.fsm.peerChoking = s.peerChoking
  options : t.fsm.peerOptions = s.peerOptions
  mail : t.managerStopped = false → Asks t.fsm
  ledger : ∃ blocks, Ledger s t.fsm blocks
  window : KeepsWindow s t.fsm
  stage : Stage full s t t.fsm.writer

/-! ## The ledger -/

theorem newlyInFlight_refl : NewlyInFlight s s [] :=
  ⟨List.nodup_nil, nofun, fun _ => by simp⟩

theorem NewlyInFlight.congr {u : PeerFsm} {blocks : List AskedBlock} (h : NewlyInFlight s t blocks)
    (hsame : ∀ place, InFlight u place ↔ InFlight t place) : NewlyInFlight s u blocks :=
  ⟨h.nodup, h.fresh, fun place => (hsame place).trans (h.marked place)⟩

/-- INTERNAL: the ledger is kept where nothing is handed out, sent or counted. -/
theorem Ledger.congr {u : PeerFsm} {blocks : List AskedBlock} (h : Ledger s t blocks)
    (hinFlight : ∀ place, InFlight u place ↔ InFlight t place) (hsent : u.sent = t.sent)
    (hcount : u.inflightMessages = t.inflightMessages) (hbefore : AllCounted t.writer)
    (hafter : AllCounted u.writer) : Ledger s u blocks := by
  refine ⟨h.newly.congr hinFlight, ?_, ?_⟩
  · rw [hsent, hafter.1, ← hbefore.1]
    exact h.sent
  · rw [hcount, hafter.2, ← hbefore.2]
    exact h.counted

/-- The blocks of a piece that its actor hands out. -/
def askedBlocks (c : PieceRequestManager) (a : PieceRequestManagerActor) (k : ℕ) :
    List AskedBlock :=
  (blocksHandedOut a k).map fun i => ⟨c, i, a.blockLength i⟩

theorem mem_askedBlocks {c : PieceRequestManager} {a : PieceRequestManagerActor} {k : ℕ}
    {place : ℕ × ℕ} :
    place ∈ (askedBlocks c a k).map AskedBlock.place ↔
      place.1 = c.send ∧ place.2 ∈ blocksHandedOut a k := by
  unfold askedBlocks AskedBlock.place
  rw [List.map_map, List.mem_map]
  constructor
  · rintro ⟨i, hi, rfl⟩
    exact ⟨rfl, hi⟩
  · rintro ⟨hsend, hi⟩
    exact ⟨place.2, hi, Prod.ext hsend.symm rfl⟩

/-- INTERNAL: the blocks that an actor hands out go in flight with those before.
SOURCE: piece_manager.rs:77-97 -/
theorem NewlyInFlight.handOut {blocks : List AskedBlock} {c : PieceRequestManager} {k : ℕ}
    {clock : ℕ → Instant} {a a' : PieceRequestManagerActor} (h : NewlyInFlight s t blocks)
    (ha : t.pieceActor c.send = some a) (hout : HandedOut a a' (blocksHandedOut a k) clock) :
    NewlyInFlight s { t with pieceActors := t.pieceActors.set c.send (some a') }
      (blocks ++ askedBlocks c a k) := by
  have hnot : ∀ place ∈ (askedBlocks c a k).map AskedBlock.place, ¬ InFlight t place := by
    intro place hplace
    obtain ⟨hsend, hi⟩ := mem_askedBlocks.mp hplace
    rintro ⟨b, hb, hflight⟩
    rw [hsend, ha, Option.some.injEq] at hb
    subst hb
    have hfree := (requestable_iff.mp (requestable_of_mem_blocksHandedOut hi)).2.1
    rw [hfree] at hflight
    cases hflight
  refine ⟨?_, ?_, fun place => ?_⟩
  · rw [List.map_append, List.nodup_append']
    refine ⟨h.nodup, ?_, fun place hplace hplace' => ?_⟩
    · unfold askedBlocks
      rw [List.map_map]
      refine List.Nodup.map (fun i j hij => ?_) ?_
      · exact (Prod.mk.inj hij).2
      · exact (List.nodup_range.filter _).sublist (List.take_sublist _ _)
    · exact hnot place hplace' ((h.marked place).mpr (Or.inr hplace))
  · intro b hb hflight
    rcases List.mem_append.mp hb with hb | hb
    · exact h.fresh b hb hflight
    · exact hnot _ (List.mem_map_of_mem hb) ((h.marked _).mpr (Or.inl hflight))
  · rw [inFlight_handedOut ha hout, h.marked, List.map_append, List.mem_append, mem_askedBlocks,
      or_assoc]

theorem not_requests {msgs : List PeerMessage} {msg : PeerMessage} (h : isRequest msg = false) :
    (msgs ++ [msg]).filter isRequest = msgs.filter isRequest := by
  rw [List.filter_append, List.filter_cons_of_neg (by simp [h]), List.filter_nil, List.append_nil]

theorem allCounted_returns (pass : TopOff) (progressed : Bool) :
    AllCounted (pass.returns progressed) := by
  unfold TopOff.returns
  split_ifs <;> exact ⟨rfl, rfl⟩

theorem allCounted_tryNext (pass : TopOff) (availableWindow : ℕ)
    (candidates : List PieceRequestManager) :
    AllCounted (pass.tryNext availableWindow candidates) := by
  cases candidates with
  | nil => exact allCounted_returns _ _
  | cons c candidates => exact ⟨rfl, rfl⟩

@[simp] theorem unsent_sendNext (pass : TopOff) (c : PieceRequestManager)
    (reqPieces : List (ℕ × ℕ)) :
    unsent (pass.sendNext c reqPieces) = reqPieces.map (PeerFsm.requestOf c) := by
  cases reqPieces with
  | nil => exact (allCounted_returns _ _).1
  | cons p reqPieces => rfl

@[simp] theorem notCounted_sendNext (pass : TopOff) (c : PieceRequestManager)
    (reqPieces : List (ℕ × ℕ)) : notCounted (pass.sendNext c reqPieces) = reqPieces.length := by
  cases reqPieces with
  | nil => exact (allCounted_returns _ _).2
  | cons p reqPieces => rfl

/-- INTERNAL: the writer sends and counts each block that it made go in flight.
SOURCE: peer_protocol_state_machine.rs:58-79 -/
theorem ledger_writer {a : WriterAct} {u : PeerFsm} {blocks : List AskedBlock}
    (h : Ledger s t blocks) (hsends : failsToSend a = false)
    (hfits : t.inflightMessages + allowance t.writer < 2 ^ 64 ∨ allowance t.writer = 0)
    (hmove : WriterTaskMove t a u) : ∃ blocks, Ledger s u blocks := by
  have hnot {msg : PeerMessage} (hmsg : isRequest msg = false) (hunsent : unsent t.writer = []) :
      ∃ msgs, t.sent ++ [msg] = s.sent ++ msgs ∧
        msgs.filter isRequest ++ [] = blocks.map AskedBlock.request := by
    obtain ⟨msgs, hsent, hmsgs⟩ := h.sent
    rw [hunsent] at hmsgs
    exact ⟨msgs ++ [msg], by rw [hsent, List.append_assoc], by rw [not_requests hmsg, hmsgs]⟩
  have hnewly {task : WriterTask} {interested : Bool} {msgs : List PeerMessage} {n : ℕ} :
      NewlyInFlight s
        { t with writer := task, amInterested := interested, sent := msgs, inflightMessages := n }
        blocks :=
    h.newly.congr fun _ => Iff.rfl
  have hcounted := h.counted
  cases hmove with
  | sendBitfield hw | sendInterested hw =>
    rw [hw] at hcounted
    exact ⟨blocks, hnewly, hnot rfl (by rw [hw]; rfl), hcounted⟩
  | fails hfails => rcases hfails with ⟨rfl, -⟩ | ⟨rfl, -⟩ | ⟨rfl, -⟩ <;> cases hsends
  | windowShut hw =>
    exact ⟨blocks, h.congr (fun _ => Iff.rfl) rfl rfl (hw ▸ ⟨rfl, rfl⟩) (allCounted_returns _ _)⟩
  | pick hw | gone hw =>
    exact ⟨blocks, h.congr (fun _ => Iff.rfl) rfl rfl (hw ▸ ⟨rfl, rfl⟩) (allCounted_tryNext _ _ _)⟩
  | @noBlocks pass availableWindow c candidates clock b b' hw hb hblocks =>
    have hout := handedOut_blocksToRequest b (availableWindow % 2 ^ 32) clock
    rw [hblocks] at hout
    have hnone : blocksHandedOut b (availableWindow % 2 ^ 32) = [] := by simpa using hout.2.symm
    have hout := hout.1
    rw [hnone] at hout
    refine ⟨blocks, h.congr (fun place => ?_) rfl rfl (hw ▸ ⟨rfl, rfl⟩) (allCounted_tryNext _ _ _)⟩
    exact (inFlight_handedOut hb hout place).trans (by simp)
  | @blocks pass availableWindow c candidates clock b b' reqPieces hw hb hblocks hne =>
    obtain ⟨hout, hreply⟩ := handedOut_blocksToRequest b (availableWindow % 2 ^ 32) clock
    rw [hblocks] at hout hreply
    obtain ⟨msgs, hsent, hmsgs⟩ := h.sent
    rw [hw] at hmsgs hcounted
    refine ⟨blocks ++ askedBlocks c b (availableWindow % 2 ^ 32),
      (h.newly.handOut hb hout).congr fun _ => Iff.rfl, ⟨msgs, hsent, ?_⟩, ?_⟩
    · rw [List.map_append, ← hmsgs, List.append_assoc]
      congr 1
      change reqPieces.map (PeerFsm.requestOf c) = _
      rw [show reqPieces = _ from hreply, askedBlocks, List.map_map, List.map_map]
      rfl
    · change t.inflightMessages + reqPieces.length = _
      change t.inflightMessages + 0 = _ at hcounted
      rw [show reqPieces = _ from hreply, askedBlocks, List.length_append, List.length_map,
        List.length_map]
      omega
  | @sendRequest pass c p reqPieces hw =>
    obtain ⟨msgs, hsent, hmsgs⟩ := h.sent
    rw [hw] at hmsgs hcounted
    refine ⟨blocks, hnewly, ⟨msgs ++ [PeerFsm.requestOf c p], ?_, ?_⟩, hcounted⟩
    · rw [hsent, List.append_assoc]
    · rw [← hmsgs, List.filter_append, List.append_assoc]
      rfl
  | @countRequest pass c reqPieces hw =>
    rw [hw] at hcounted hfits
    have hroom : t.inflightMessages + (reqPieces.length + 1) < 2 ^ 64 := by
      rcases hfits with hlt | hzero
      · exact hlt
      · cases hzero
    have hsum : u64Add t.inflightMessages 1 = t.inflightMessages + 1 :=
      Nat.mod_eq_of_lt (by omega)
    refine ⟨blocks, hnewly, ?_, ?_⟩
    · have hsent := h.sent
      rw [hw] at hsent
      rwa [unsent_sendNext]
    · change t.inflightMessages + (reqPieces.length + 1) = _ at hcounted
      change u64Add t.inflightMessages 1 + notCounted (pass.sendNext c reqPieces) = _
      rw [hsum, notCounted_sendNext]
      omega
  | _ hw =>
    exact ⟨blocks, h.congr (fun _ => Iff.rfl) rfl rfl (hw ▸ ⟨rfl, rfl⟩) ⟨rfl, rfl⟩⟩

end Fissure.Analysis
