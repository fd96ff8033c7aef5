import Fissure.Analysis.FsmSteps
import Fissure.Analysis.ManagerInvariant
import Fissure.Analysis.PieceManagerSteps

/-!
# The request window of a connection

The writer computes how many `Request`s it may send from one look at the count of messages in flight
and then spends this allowance over many sends, while the reader only lowers the count. So the count
and what is left of the allowance stay within the window together (`window_bounded`).

The choke flag is sampled once for a pass. When no `Choke` is recorded while the writer is in a pass
that began unchoked, no `Request` is sent while choked (`silent_while_choked`); nor is one when such
a pass has no block in hand by then and gets none (`silent_of_withoutBlocks`). Otherwise the rest of
the pass is sent into the choke, and stays counted (`request_while_choked`).
-/

set_option autoImplicit false

namespace Fissure.Analysis

open Fissure.Library Fissure.Model
open Fissure.Model.PieceRequestManagerActor

variable {torrent : ClientTorrentMetaInfo} {options : PeerOptions} {peerId : String}
variable {sha1 : Bytes → Bytes} {s t : PeerFsm}

/-- INTERNAL: a piece actor hands out no more blocks than it is asked for.
SOURCE: piece_manager.rs:81-84 -/
theorem length_blocksToRequest_le {a a' : PieceRequestManagerActor} {k : ℕ} {clock : ℕ → Instant}
    {reqPieces : List (ℕ × ℕ)} (h : a.blocksToRequest k clock = (a', reqPieces)) :
    reqPieces.length ≤ k := by
  have hout := (handedOut_blocksToRequest a k clock).2
  rw [h] at hout
  calc reqPieces.length = (blocksHandedOut a k).length := by
        rw [show reqPieces = _ from hout, List.length_map]
    _ ≤ k := List.length_take_le _ _

/-! ## The bound -/

/-- How many `Request`s the writer may still send before it looks at the count again; one that is
sent and not counted yet is among them. -/
def allowance : WriterTask → ℕ
  | .picking _ availableWindow | .trying _ availableWindow _ => availableWindow
  | .sending _ _ reqPieces => reqPieces.length
  | .sent _ _ reqPieces => reqPieces.length + 1
  | _ => 0

/-- The count and the allowance are within the window. -/
structure WindowInv (torrent : ClientTorrentMetaInfo) (options : PeerOptions) (s : PeerFsm) :
    Prop where
  manager : ManagerInv torrent options s.manager
  window : s.inflightMessages + allowance s.writer ≤ options.perPeerInflightCount

@[simp] theorem allowance_receives (task : WriterTask) (sender : Sender)
    (reply : TorrentManagerReply) : allowance (task.receives sender reply) = allowance task := by
  unfold WriterTask.receives
  split <;> rfl

@[simp] theorem allowance_returns (pass : TopOff) (progressed : Bool) :
    allowance (pass.returns progressed) = 0 := by
  unfold TopOff.returns
  split_ifs <;> rfl

theorem allowance_tryNext_le (pass : TopOff) (availableWindow : ℕ)
    (candidates : List PieceRequestManager) :
    allowance (pass.tryNext availableWindow candidates) ≤ availableWindow := by
  cases candidates with
  | nil => simp [TopOff.tryNext]
  | cons c candidates => exact le_rfl

@[simp] theorem allowance_sendNext (pass : TopOff) (c : PieceRequestManager)
    (reqPieces : List (ℕ × ℕ)) : allowance (pass.sendNext c reqPieces) = reqPieces.length := by
  cases reqPieces with
  | nil => simp [TopOff.sendNext]
  | cons p reqPieces => rfl

/-- INTERNAL: the writer spends its allowance one request at a time.
SOURCE: peer_protocol_state_machine.rs:40-83 -/
theorem window_writer {a : WriterAct} {cap : ℕ} (hcap : s.peerOptions.perPeerInflightCount = cap)
    (h : s.inflightMessages + allowance s.writer ≤ cap) (hmove : WriterTaskMove s a t) :
    t.inflightMessages + allowance t.writer ≤ cap := by
  cases hmove with
  | windowOpen hw hchoked hlt =>
    change s.inflightMessages + (s.peerOptions.perPeerInflightCount - s.inflightMessages) ≤ cap
    omega
  | @pick pass availableWindow order hw =>
    rw [hw] at h
    exact (Nat.add_le_add_left (allowance_tryNext_le _ _ _) _).trans h
  | noBlocks hw | gone hw =>
    rw [hw] at h
    exact (Nat.add_le_add_left (allowance_tryNext_le _ _ _) _).trans h
  | @blocks pass availableWindow c candidates clock a a' reqPieces hw ha hblocks =>
    rw [hw] at h
    have hlength := length_blocksToRequest_le hblocks
    have hcast := Nat.mod_le availableWindow (2 ^ 32)
    change s.inflightMessages + availableWindow ≤ cap at h
    change s.inflightMessages + reqPieces.length ≤ cap
    omega
  | sendRequest hw =>
    rw [hw] at h
    exact h
  | @countRequest pass c reqPieces hw =>
    rw [hw] at h
    change s.inflightMessages + (reqPieces.length + 1) ≤ cap at h
    have hsum : u64Add s.inflightMessages 1 ≤ s.inflightMessages + 1 := Nat.mod_le _ _
    change u64Add s.inflightMessages 1 + allowance (pass.sendNext c reqPieces) ≤ cap
    rw [allowance_sendNext]
    omega
  | windowShut =>
    change s.inflightMessages + allowance (TopOff.returns _ _) ≤ cap
    rw [allowance_returns]
    exact (Nat.le_add_right _ _).trans h
  | _ => exact (Nat.le_add_right _ _).trans h

/-- INTERNAL: the reader only lowers the count.
SOURCE: peer_protocol_state_machine.rs:305, peer_protocol_state_machine.rs:342 -/
theorem inflight_reader {a : ReaderAct} (hmove : ReaderTaskMove sha1 s a t) :
    t.inflightMessages ≤ s.inflightMessages := by
  cases hmove with
  | resetInflight => exact Nat.zero_le _
  | piece => exact Nat.sub_le _ _
  | _ => exact le_rfl

/-- INTERNAL: every step keeps the count and the allowance within the window. -/
theorem windowInv_step {e : FsmEvent} {r : Unit} (h : WindowInv torrent options s)
    (hstep : fsmStep sha1 s e = some (t, r)) : WindowInv torrent options t := by
  have hcap : s.peerOptions.perPeerInflightCount = options.perPeerInflightCount := by
    unfold PeerFsm.peerOptions
    rw [h.manager.options_eq]
  cases fsmMove hstep with
  | register => exact ⟨h.manager, (Nat.le_add_right _ _).trans h.window⟩
  | elsewhere => exact ⟨h.manager, h.window⟩
  | handle hmail hmanager =>
    refine ⟨managerInv_step h.manager hmanager, ?_⟩
    rw [allowance_receives]
    exact h.window
  | pieceActor => exact ⟨h.manager, h.window⟩
  | writer hmove =>
    exact ⟨manager_writer hmove ▸ h.manager, window_writer hcap h.window hmove⟩
  | reader hmove =>
    obtain ⟨hmanager, hwriter, -⟩ := rest_reader hmove
    refine ⟨hmanager ▸ h.manager, ?_⟩
    rw [hwriter]
    exact (Nat.add_le_add_right (inflight_reader hmove) _).trans h.window
  | watchdog hmove => cases hmove <;> exact ⟨h.manager, h.window⟩

/-- INTERNAL: no step raises the count by more than one, as a wrap below zero would.
SOURCE: peer_protocol_state_machine.rs:74, peer_protocol_state_machine.rs:342 -/
theorem inflight_le_succ {e : FsmEvent} {r : Unit} (hstep : fsmStep sha1 s e = some (t, r)) :
    t.inflightMessages ≤ s.inflightMessages + 1 := by
  cases fsmMove hstep with
  | writer hmove =>
    cases hmove with
    | countRequest => exact Nat.mod_le _ _
    | _ => exact Nat.le_succ _
  | reader hmove => exact (inflight_reader hmove).trans (Nat.le_succ _)
  | watchdog hmove => cases hmove <;> exact Nat.le_succ _
  | _ => exact Nat.le_succ _

theorem windowInv_new (h : PeerFsm.new torrent options peerId = some s) :
    WindowInv torrent options s := by
  obtain ⟨manager, hmanager, rfl⟩ := fsm_new_eq_some h
  exact ⟨managerInv_new hmanager, Nat.zero_le _⟩

/-- **The request window is bounded under any interleaving.** For every configuration and in every
state that a run of a connection reaches, whatever messages its peer sends, the count of messages in
flight is within `per_peer_inflight_count`, and no step can wrap it below zero: none raises it by
more than one.
SOURCE: peer_protocol_state_machine.rs:30-83, peer_protocol_state_machine.rs:303-308,
peer_protocol_state_machine.rs:337-342 -/
theorem window_bounded {start : PeerFsm} (hstart : PeerFsm.new torrent options peerId = some start)
    {es : List FsmEvent} (hrun : run (fsmStep sha1) start es = some s) :
    s.inflightMessages ≤ options.perPeerInflightCount ∧
      ∀ e t r, fsmStep sha1 s e = some (t, r) → t.inflightMessages ≤ s.inflightMessages + 1 := by
  have hinv : WindowInv torrent options s :=
    run_invariant (fun _ _ _ _ h hstep => windowInv_step h hstep) (windowInv_new hstart) hrun
  exact ⟨(Nat.le_add_right _ _).trans hinv.window, fun _ _ _ hstep => inflight_le_succ hstep⟩

/-- The connection to a peer, of a torrent of one byte. -/
def fsmStart : PeerFsm :=
  (PeerFsm.new (byteTorrent 1 (List.replicate 20 0)) {} "peer").get (by decide +kernel)

theorem new_fsmStart :
    PeerFsm.new (byteTorrent 1 (List.replicate 20 0)) {} "peer" = some fsmStart :=
  (Option.some_get _).symm

/-- The peer unchokes and announces the piece; the writer is granted it and gets its block. -/
def askForPiece : List FsmEvent :=
  [.register, .handle .quiet, .writer (.sendBitfield true), .reader (.take .unchoke),
    .reader (.take (.bitfield [true])), .handle .quiet, .reader .askUseful, .handle .quiet,
    .reader .askUseful, .handle .quiet, .reader .setUseful, .writer .sample,
    .writer (.sendInterested true), .writer .setInterested, .writer .loadCount, .handle .quiet,
    .writer .insertRequest, .writer .countPiece, .writer .loadInflight, .writer (.pick [0]),
    .writer (.requestBlock fun _ => 0)]

/-- The state after that. -/
def askedForPiece : PeerFsm :=
  (run (fsmStep fun _ => []) fsmStart askForPiece).get (by decide +kernel)

/-- The bound on the way to a `Request`. -/
theorem window_bounded_one_piece :
    askedForPiece.inflightMessages ≤ 25 ∧
      ∀ e t r, fsmStep (fun _ => []) askedForPiece e = some (t, r) →
        t.inflightMessages ≤ askedForPiece.inflightMessages + 1 := by
  have hrun : run (fsmStep fun _ => []) fsmStart askForPiece = some askedForPiece :=
    (Option.some_get _).symm
  exact window_bounded new_fsmStart hrun

/-! ## The choke flag -/

/-- The reader has recorded a `Choke`: the flag is set and the count is reset. -/
def ChokeRecorded (s : PeerFsm) : Prop := s.peerChoking = true ∧ s.reader ≠ .choking

/-- The writer is in a pass that began unchoked. -/
def inUnchokedPass : WriterTask → Bool
  | .interesting isChoked | .interested isChoked | .counting isChoked | .requesting isChoked
  | .granted isChoked _ | .inserted isChoked _ => !isChoked
  | .toppingOff pass => !pass.isChoked
  | .picking .. | .trying .. | .sending .. | .sent .. => true
  | .unregistered | .registering | .starting _ | .waiting | .passing | .ended => false

/-- No `Choke` is recorded while the writer is in a pass that began unchoked. -/
def ChokedBetweenPasses (s : PeerFsm) : FsmEvent → Prop
  | .reader .resetInflight => inUnchokedPass s.writer = false
  | _ => True

/-- The writer has blocks for which it is about to send or to count a `Request`. -/
def hasBlocks : WriterTask → Bool
  | .sending .. | .sent .. => true
  | _ => false

/-- The piece actor that the writer asks next hands out a block. -/
def getsBlocks (s : PeerFsm) (clock : ℕ → Instant) : Bool :=
  match s.writer with
  | .trying _ availableWindow (c :: _) =>
    match s.pieceActor c.send with
    | some a => !(a.blocksToRequest (availableWindow % 2 ^ 32) clock).2.isEmpty
    | none => false
  | _ => false

/-- No `Choke` is recorded while the writer has blocks to ask for, and it gets none while one is
recorded. -/
def ChokedWithoutBlocks (s : PeerFsm) : FsmEvent → Prop
  | .reader .resetInflight => hasBlocks s.writer = false
  | .writer (.requestBlock clock) => ChokeRecorded s → getsBlocks s clock = false
  | _ => True

/-- No `Request` is sent once a `Choke` is recorded. -/
def SilentWhileChoked (sha1 : Bytes → Bytes) (s : PeerFsm) (e : FsmEvent) : Prop :=
  ChokeRecorded s → ∀ t r, fsmStep sha1 s e = some (t, r) →
    ∀ i off len, t.sent ≠ s.sent ++ [.request i off len]

/-- No message is in flight while the writer waits and a `Choke` is recorded. -/
def NothingInFlight (s : PeerFsm) : Prop :=
  ChokeRecorded s → s.writer = .waiting → s.inflightMessages = 0

instance (s : PeerFsm) : (e : FsmEvent) → Decidable (ChokedBetweenPasses s e)
  | .reader a =>
    match a with
    | .resetInflight => inferInstanceAs (Decidable (inUnchokedPass s.writer = false))
    | .take _ | .askUseful | .setUseful | .locate | .blockRecvied | .pieceFinish | .removeRequest
    | .releasePiece | .ends => isTrue trivial
  | .register | .handle _ | .elsewhere _ | .pieceActor .. | .writer _ | .watchdog _ =>
    isTrue trivial

/-- Once a `Choke` is recorded the writer has no blocks to ask for and nothing is in flight. -/
def ChokeInv (s : PeerFsm) : Prop :=
  ChokeRecorded s → hasBlocks s.writer = false ∧ s.inflightMessages = 0

@[simp] theorem hasBlocks_receives (task : WriterTask) (sender : Sender)
    (reply : TorrentManagerReply) : hasBlocks (task.receives sender reply) = hasBlocks task := by
  unfold WriterTask.receives
  split <;> rfl

theorem reader_receives_ne_choking {task : ReaderTask} {sender : Sender}
    {reply : TorrentManagerReply} (h : task.receives sender reply ≠ .choking) :
    task ≠ .choking := by
  rintro rfl
  exact h rfl

theorem hasBlocks_returns (pass : TopOff) (progressed : Bool) :
    hasBlocks (pass.returns progressed) = false := by
  unfold TopOff.returns
  split_ifs <;> rfl

theorem hasBlocks_tryNext (pass : TopOff) (availableWindow : ℕ)
    (candidates : List PieceRequestManager) :
    hasBlocks (pass.tryNext availableWindow candidates) = false := by
  cases candidates with
  | nil => exact hasBlocks_returns pass _
  | cons => rfl

/-- INTERNAL: a writer without blocks to ask for sends no `Request`.
SOURCE: peer_protocol_state_machine.rs:65-78 -/
theorem silent_writer {a : WriterAct} (hnone : hasBlocks s.writer = false)
    (hmove : WriterTaskMove s a t) (i off len : ℕ) : t.sent ≠ s.sent ++ [.request i off len] := by
  cases hmove with
  | sendRequest hw =>
    rw [hw] at hnone
    cases hnone
  | _ => simp

/-- INTERNAL: a writer without blocks to ask for has none after a step in which it gets none.
SOURCE: peer_protocol_state_machine.rs:30-83 -/
theorem choke_writer {a : WriterAct} (hnone : hasBlocks s.writer = false)
    (hgets : ∀ clock, a = .requestBlock clock → getsBlocks s clock = false)
    (hmove : WriterTaskMove s a t) :
    hasBlocks t.writer = false ∧ t.inflightMessages = s.inflightMessages := by
  cases hmove with
  | windowShut => exact ⟨hasBlocks_returns _ _, rfl⟩
  | pick | noBlocks | gone => exact ⟨hasBlocks_tryNext _ _ _, rfl⟩
  | blocks hw ha hout hblocks =>
    have hno := hgets _ rfl
    unfold getsBlocks at hno
    simp only [hw, ha, hout, Bool.not_eq_false', List.isEmpty_iff] at hno
    exact absurd hno hblocks
  | sendRequest hw | countRequest hw =>
    rw [hw] at hnone
    cases hnone
  | _ => exact ⟨rfl, rfl⟩

/-- INTERNAL: the reader records a `Choke` when it resets the count.
SOURCE: peer_protocol_state_machine.rs:303-312 -/
theorem recorded_reader {a : ReaderAct} (hmove : ReaderTaskMove sha1 s a t)
    (h : ChokeRecorded t) :
    a = .resetInflight ∧ t.inflightMessages = 0 ∨ ChokeRecorded s := by
  cases hmove with
  | resetInflight => exact Or.inl ⟨rfl, rfl⟩
  | choke => exact absurd rfl h.2
  | unchoke => exact absurd h.1 Bool.false_ne_true
  | ignored => exact Or.inr h
  | peerInterest hr | had hr | bitfield hr | piece hr | ends hr | askUseful hr | setUseful hr
  | tracked hr | untracked hr | delivered hr | lost hr | pieceFinish hr | removes hr | pruned hr
  | releasePiece hr =>
    refine Or.inr ⟨h.1, ?_⟩
    rw [hr]
    exact nofun

/-- INTERNAL: every step keeps that nothing is asked for while choked. -/
theorem chokeInv_step {e : FsmEvent} {r : Unit} (h : ChokeInv s) (he : ChokedWithoutBlocks s e)
    (hstep : fsmStep sha1 s e = some (t, r)) : ChokeInv t := by
  intro hrec
  cases fsmMove hstep with
  | register hw =>
    obtain ⟨-, hcount⟩ := h hrec
    exact ⟨rfl, hcount⟩
  | elsewhere | pieceActor => exact h hrec
  | handle =>
    obtain ⟨hpass, hcount⟩ := h ⟨hrec.1, reader_receives_ne_choking hrec.2⟩
    rw [hasBlocks_receives]
    exact ⟨hpass, hcount⟩
  | writer hmove =>
    have hbefore : ChokeRecorded s := by
      cases hmove <;> exact hrec
    obtain ⟨hpass, hcount⟩ := h hbefore
    obtain ⟨hpass', hcount'⟩ := choke_writer hpass (by rintro clock rfl; exact he hbefore) hmove
    exact ⟨hpass', hcount'.trans hcount⟩
  | reader hmove =>
    obtain ⟨-, hwriter, -⟩ := rest_reader hmove
    rw [hwriter]
    rcases recorded_reader hmove hrec with ⟨rfl, hreset⟩ | hbefore
    · exact ⟨he, hreset⟩
    · obtain ⟨hpass, hcount⟩ := h hbefore
      exact ⟨hpass, Nat.le_zero.mp ((inflight_reader hmove).trans hcount.le)⟩
  | watchdog hmove =>
    cases hmove <;> exact h hrec

theorem chokeInv_new (h : PeerFsm.new torrent options peerId = some s) : ChokeInv s := by
  obtain ⟨manager, -, rfl⟩ := fsm_new_eq_some h
  exact fun _ => ⟨rfl, rfl⟩

/-- INTERNAL: only the writer sends, and not while nothing is to be asked for. -/
theorem silent_of_chokeInv {e : FsmEvent} (h : ChokeInv s) : SilentWhileChoked sha1 s e := by
  intro hrec t r hstep i off len
  have hsame : s.sent ≠ s.sent ++ [.request i off len] := by simp
  cases fsmMove hstep with
  | writer hmove => exact silent_writer (h hrec).1 hmove i off len
  | reader hmove =>
    rw [(rest_reader hmove).2.2]
    exact hsame
  | watchdog hmove =>
    rw [(rest_watchdog hmove).2.2]
    exact hsame
  | _ => exact hsame

/-- INTERNAL: in every run in which the writer has no blocks to ask for when a `Choke` is recorded and
is handed none while one is, nothing is asked for while choked.
SOURCE: peer_protocol_state_machine.rs:30-148, peer_protocol_state_machine.rs:303-312 -/
theorem silent_of_withoutBlocks {start : PeerFsm}
    (hstart : PeerFsm.new torrent options peerId = some start) {es : List FsmEvent}
    (hes : AllSteps (fsmStep sha1) ChokedWithoutBlocks start es) :
    AllSteps (fsmStep sha1) (SilentWhileChoked sha1) start es ∧
      AllStates (fsmStep sha1) NothingInFlight start es := by
  constructor
  · apply allSteps_of_invariant ChokeInv (fun _ _ _ _ h he hstep => chokeInv_step h he hstep)
      (fun _ _ h _ => silent_of_chokeInv h) (chokeInv_new hstart) hes
  · apply allStates_of_invariant ChokeInv (fun _ _ _ _ h he hstep => chokeInv_step h he hstep)
      (fun _ h hrec _ => (h hrec).2) (chokeInv_new hstart) hes

/-! ## Chokes between passes -/

/-- Once a `Choke` is recorded the writer is in no pass that began unchoked. -/
def ChokedPassInv (s : PeerFsm) : Prop := ChokeRecorded s → inUnchokedPass s.writer = false

theorem hasBlocks_of_not_inUnchokedPass {task : WriterTask} (h : inUnchokedPass task = false) :
    hasBlocks task = false := by
  cases task with
  | sending | sent => cases h
  | _ => rfl

@[simp] theorem inUnchokedPass_receives (task : WriterTask) (sender : Sender)
    (reply : TorrentManagerReply) :
    inUnchokedPass (task.receives sender reply) = inUnchokedPass task := by
  unfold WriterTask.receives
  split <;> rfl

theorem inUnchokedPass_returns {pass : TopOff} (progressed : Bool)
    (h : pass.isChoked = true) : inUnchokedPass (pass.returns progressed) = false := by
  unfold TopOff.returns
  split_ifs <;> simp [inUnchokedPass, h]

/-- INTERNAL: while the choke flag is set, a step of the writer begins no unchoked pass.
SOURCE: peer_protocol_state_machine.rs:93, peer_protocol_state_machine.rs:113-125 -/
theorem chokedPassInv_writer {a : WriterAct} (hchoking : s.peerChoking = true)
    (hpass : inUnchokedPass s.writer = false) (hmove : WriterTaskMove s a t) :
    inUnchokedPass t.writer = false := by
  cases hmove with
  | sendBitfield | fails | beginPass => rfl
  | sendInterested hw | setInterested hw | skips hw | insertRequest hw | countPiece hw =>
    rw [hw] at hpass
    simpa [inUnchokedPass] using hpass
  | beginTopOff | interest | noInterest => simp [inUnchokedPass, hchoking]
  | windowShut hw =>
    rw [hw] at hpass
    exact inUnchokedPass_returns false (by simpa [inUnchokedPass] using hpass)
  | windowOpen hw hunchoked =>
    rw [hw] at hpass
    simp [inUnchokedPass, hunchoked] at hpass
  | asks hw | pick hw | noBlocks hw | blocks hw | gone hw | sendRequest hw | countRequest hw =>
    rw [hw] at hpass
    cases hpass

/-- INTERNAL: every step keeps that no unchoked pass goes on while choked. -/
theorem chokedPassInv_step {e : FsmEvent} {r : Unit} (h : ChokedPassInv s)
    (he : ChokedBetweenPasses s e) (hstep : fsmStep sha1 s e = some (t, r)) : ChokedPassInv t := by
  intro hrec
  cases fsmMove hstep with
  | register hw => rfl
  | elsewhere | pieceActor => exact h hrec
  | handle =>
    rw [inUnchokedPass_receives]
    exact h ⟨hrec.1, reader_receives_ne_choking hrec.2⟩
  | writer hmove =>
    have hbefore : ChokeRecorded s := by
      cases hmove <;> exact hrec
    exact chokedPassInv_writer hbefore.1 (h hbefore) hmove
  | reader hmove =>
    obtain ⟨-, hwriter, -⟩ := rest_reader hmove
    rw [hwriter]
    rcases recorded_reader hmove hrec with ⟨rfl, -⟩ | hbefore
    · exact he
    · exact h hbefore
  | watchdog hmove =>
    cases hmove <;> exact h hrec

/-- INTERNAL: a `Choke` that is recorded between passes meets no blocks, and no later pass gets
any. -/
theorem withoutBlocks_of_chokedPassInv {e : FsmEvent} (h : ChokedPassInv s)
    (he : ChokedBetweenPasses s e) : ChokedWithoutBlocks s e := by
  unfold ChokedWithoutBlocks
  split
  · exact hasBlocks_of_not_inUnchokedPass he
  · intro hrec
    have hpass := h hrec
    unfold getsBlocks
    split
    · next hw =>
      rw [hw] at hpass
      cases hpass
    · rfl
  · trivial

/-- **No `Request` while choked, when every `Choke` falls between passes.** In every run in which no
`Choke` is recorded while the writer is in a pass that began unchoked, no `Request` is sent from the
recording of a `Choke` to the next `Unchoke`, and whenever the writer waits in between no message is
in flight.
SOURCE: peer_protocol_state_machine.rs:30-148, peer_protocol_state_machine.rs:303-312 -/
theorem silent_while_choked {start : PeerFsm}
    (hstart : PeerFsm.new torrent options peerId = some start) {es : List FsmEvent}
    (hes : AllSteps (fsmStep sha1) ChokedBetweenPasses start es) :
    AllSteps (fsmStep sha1) (SilentWhileChoked sha1) start es ∧
      AllStates (fsmStep sha1) NothingInFlight start es := by
  have hstartPass : ChokedPassInv start := by
    obtain ⟨manager, -, rfl⟩ := fsm_new_eq_some hstart
    exact fun _ => rfl
  apply silent_of_withoutBlocks hstart
  exact allSteps_of_invariant ChokedPassInv (fun _ _ _ _ h he hstep => chokedPassInv_step h he hstep)
    (fun _ _ h he => withoutBlocks_of_chokedPassInv h he) hstartPass hes

/-- The `Choke` is recorded when the block is handed out and its `Request` is not sent yet. -/
def chokeDuringPass : List FsmEvent := [.reader (.take .choke), .reader .resetInflight]

/-- The state after that. -/
def chokedDuringPass : PeerFsm :=
  (run (fsmStep fun _ => []) askedForPiece chokeDuringPass).get (by decide +kernel)

/-- The pass is carried on to its end. -/
def restOfPass : List FsmEvent :=
  [.writer (.sendRequest true), .writer .countRequest, .writer .sample, .writer .loadCount,
    .writer .loadInflight]

/-- The state after that. -/
def afterPass : PeerFsm :=
  (run (fsmStep fun _ => []) chokedDuringPass restOfPass).get (by decide +kernel)

/-- The `Request` is sent after the `Choke`, and stays counted. -/
theorem request_while_choked :
    run (fsmStep fun _ => []) fsmStart askForPiece = some askedForPiece ∧
      run (fsmStep fun _ => []) askedForPiece chokeDuringPass = some chokedDuringPass ∧
      run (fsmStep fun _ => []) chokedDuringPass restOfPass = some afterPass ∧
      ¬ SilentWhileChoked (fun _ => []) chokedDuringPass (.writer (.sendRequest true)) ∧
      ¬ NothingInFlight afterPass := by
  refine ⟨(Option.some_get _).symm, (Option.some_get _).symm, (Option.some_get _).symm, ?_, ?_⟩
  · intro hsilent
    have hsends : (fsmStep (fun _ => []) chokedDuringPass (.writer (.sendRequest true))).isSome =
        true := by decide +kernel
    exact hsilent ⟨by decide +kernel, by decide +kernel⟩ _ _ (Option.some_get hsends).symm 0 0 1
      (by decide +kernel)
  · intro hnothing
    have hcount := hnothing ⟨by decide +kernel, by decide +kernel⟩ (by decide +kernel)
    exact absurd hcount (by decide +kernel)

/-- The same run with the `Choke` after the pass. -/
def chokeAfterPass : List FsmEvent :=
  askForPiece ++
    [.writer (.sendRequest true), .writer .countRequest, .writer .sample, .writer .loadCount,
      .handle .quiet, .writer .loadInflight, .writer (.pick [0]), .writer (.requestBlock fun _ => 0),
      .reader (.take .choke), .reader .resetInflight, .writer .beginPass, .writer .sample,
      .writer .loadCount, .writer .loadInflight]

/-- The run goes through, and nothing is sent after the `Choke`. -/
theorem silent_while_choked_one_piece :
    (run (fsmStep fun _ => []) fsmStart chokeAfterPass).isSome = true ∧
      AllSteps (fsmStep fun _ => []) (SilentWhileChoked fun _ => []) fsmStart chokeAfterPass ∧
      AllStates (fsmStep fun _ => []) NothingInFlight fsmStart chokeAfterPass := by
  constructor
  · decide +kernel
  · exact silent_while_choked new_fsmStart (by decide +kernel)

end Fissure.Analysis
