import Fissure.Library.Slots
import Fissure.Analysis.FullPass

/-!
# Requests that expired

A piece actor gives a block back when its request has gone unanswered for too long, and tells
nobody. The count of messages in flight is lowered by a `Piece` and reset by a `Choke`, so the
request keeps its slot of the window. `Monitored` records beside a run which requests wait and which
hold a slot. As long as fewer slots are stale than the window has, the window is not full when every
request is answered or expired, and a full pass sends a `Request` (`released_of_staleAtMost`). Where
no slot is stale, no expired request occupies the window (`window_released`); with as many stale ones
as the window has, the connection stalls (`window_held_by_expired`).
-/

set_option autoImplicit false

namespace Fissure.Analysis

open Fissure.Library Fissure.Model
open Fissure.Model.PieceRequestManagerActor

variable {torrent : ClientTorrentMetaInfo} {options : PeerOptions} {peerId : String}
variable {sha1 : Bytes → Bytes}

/-! ## The requests of a run -/

/-- A block that the peer is asked for, with the channel of its piece actor. -/
structure BlockRequest where
  send : ℕ
  index : ℕ
  block : ℕ
  deriving DecidableEq

/-- The block that the writer asks for next. -/
def nextRequest : WriterTask → Option BlockRequest
  | .sending _ c (p :: _) => some ⟨c.send, c.index, convertBlockOffsetToIndex p.1⟩
  | _ => none

/-- A `Piece` message with this index and offset answers the request. -/
def answeredBy (pieceIndex blockOffset : ℕ) (r : BlockRequest) : Bool :=
  r.index == pieceIndex && r.block == convertBlockOffsetToIndex blockOffset

/-- The piece actor behind channel `k` gives the block back when it ticks at `now`. -/
def expiresAt (s : PeerFsm) (k : ℕ) (now : Instant) (r : BlockRequest) : Bool :=
  r.send == k && (s.pieceActor k).any fun a => a.timerExpired now r.block

/-- A connection with the requests that it has sent. -/
structure Monitored where
  fsm : PeerFsm
  slots : Slots BlockRequest

/-- The requests after an event. -/
def Monitored.slotsNext (x : Monitored) : FsmEvent → Slots BlockRequest
  | .writer (.sendRequest true) =>
    match nextRequest x.fsm.writer with
    | some r => x.slots.send r
    | none => x.slots
  | .writer .countRequest => x.slots.count
  | .reader (.take (.piece pieceIndex blockOffset _)) =>
    x.slots.answer (answeredBy pieceIndex blockOffset)
  | .reader .resetInflight => x.slots.reset
  | .pieceActor k (.tick now) => x.slots.expire (expiresAt x.fsm k now)
  | _ => x.slots

/-- One step of the connection, with the requests kept beside it. -/
def monitoredStep (sha1 : Bytes → Bytes) (x : Monitored) (e : FsmEvent) :
    Option (Monitored × Unit) :=
  (fsmStep sha1 x.fsm e).map fun (t, r) => (⟨t, x.slotsNext e⟩, r)

/-- While the connection is unchoked and the writer waits, with every request ever sent answered or
expired and a requestable block in some active piece, a full pass sends a `Request`. -/
def ExpiredReleased (sha1 : Bytes → Bytes) (x : Monitored) : Prop :=
  x.fsm.peerChoking = false → x.fsm.writer = .waiting → x.slots.waiting = [] →
    HasRequestable x.fsm → PassSends sha1 x.fsm

/-- At most `n` slots are held for requests that were answered or expired: after a tick of a piece
actor, and after a `Request` is counted, which its answer may have come before. -/
def StaleAtMost (n : ℕ) (x : Monitored) : FsmEvent → Prop
  | .pieceActor k (.tick now) => (x.slots.expire (expiresAt x.fsm k now)).stale ≤ n
  | .writer .countRequest => x.slots.count.stale ≤ n
  | _ => True

instance (n : ℕ) (x : Monitored) : (e : FsmEvent) → Decidable (StaleAtMost n x e)
  | .pieceActor _ e =>
    match e with
    | .tick _ => inferInstanceAs (Decidable (_ ≤ n))
    | .recv .. => isTrue trivial
  | .writer a =>
    match a with
    | .countRequest => inferInstanceAs (Decidable (_ ≤ n))
    | .sendBitfield _ | .beginPass | .beginTopOff | .sample | .sendInterested _ | .setInterested
    | .loadCount | .insertRequest | .countPiece | .loadInflight | .pick _ | .requestBlock _
    | .sendRequest _ => isTrue trivial
  | .register | .handle _ | .elsewhere _ | .reader _ | .watchdog _ => isTrue trivial

variable {x y : Monitored}

theorem monitoredStep_eq_some {e : FsmEvent} {r : Unit}
    (h : monitoredStep sha1 x e = some (y, r)) :
    fsmStep sha1 x.fsm e = some (y.fsm, r) ∧ y.slots = x.slotsNext e := by
  obtain ⟨⟨t, r'⟩, hstep, heq⟩ := Option.map_eq_some_iff.mp h
  cases heq
  exact ⟨hstep, rfl⟩

/-- Every run of the connection is one with its requests beside it. -/
theorem monitored_of_run {s t : PeerFsm} {es : List FsmEvent} (slots : Slots BlockRequest)
    (h : run (fsmStep sha1) s es = some t) :
    ∃ slots', run (monitoredStep sha1) ⟨s, slots⟩ es = some ⟨t, slots'⟩ := by
  induction es generalizing s slots with
  | nil =>
    cases h
    exact ⟨slots, rfl⟩
  | cons e es ih =>
    obtain ⟨u, r, he, h⟩ := run_cons_eq_some.mp h
    obtain ⟨slots', hrun⟩ := ih (Monitored.slotsNext ⟨s, slots⟩ e) h
    refine ⟨slots', ?_⟩
    rw [run_cons_some es (t := ⟨u, Monitored.slotsNext ⟨s, slots⟩ e⟩) (r := r)]
    · exact hrun
    · simp [monitoredStep, he]

/-! ## The count and the slots -/

/-- The count of messages in flight is within the held slots. -/
structure MonitorInv (torrent : ClientTorrentMetaInfo) (options : PeerOptions) (n : ℕ)
    (x : Monitored) : Prop where
  current : CurrentInv torrent options x.fsm
  count : x.fsm.inflightMessages ≤ x.slots.held.length
  uncounted : ∀ pass c reqPieces, x.fsm.writer = .sent pass c reqPieces →
    x.slots.uncounted.isSome = true
  stale : x.slots.stale ≤ n

/-- INTERNAL: an expiry and a count apart, no event makes a slot stale. -/
theorem stale_slotsNext_le {e : FsmEvent} {n : ℕ} (h : x.slots.stale ≤ n)
    (he : StaleAtMost n x e) : (x.slotsNext e).stale ≤ n := by
  unfold Monitored.slotsNext
  split
  · split
    · exact (Slots.stale_send_le _ _).trans h
    · exact h
  · exact he
  · exact (Slots.stale_answer_le _ _).trans h
  · simp
  · exact he
  · exact h

/-- INTERNAL: a step of the writer counts a request for a slot that is taken.
SOURCE: peer_protocol_state_machine.rs:73-74 -/
theorem count_writer {a : WriterAct} {t : PeerFsm} {n : ℕ} (h : MonitorInv torrent options n x)
    (hmove : WriterTaskMove x.fsm a t) :
    t.inflightMessages ≤ (x.slotsNext (.writer a)).held.length ∧
      ∀ pass c reqPieces, t.writer = .sent pass c reqPieces →
        (x.slotsNext (.writer a)).uncounted.isSome = true := by
  have hhead {task : WriterTask} (hhead : atHead task = true) {P : Prop} (pass : TopOff)
      (c : PieceRequestManager) (reqPieces : List (ℕ × ℕ)) (hw : task = .sent pass c reqPieces) :
      P := by
    rw [hw] at hhead
    cases hhead
  cases hmove with
  | @sendRequest pass c p reqPieces hw =>
    have hnext : x.slotsNext (.writer (.sendRequest true)) =
        x.slots.send ⟨c.send, c.index, convertBlockOffsetToIndex p.1⟩ := by
      simp [Monitored.slotsNext, nextRequest, hw]
    rw [hnext]
    exact ⟨h.count, fun _ _ _ _ => rfl⟩
  | @countRequest pass c reqPieces hw =>
    refine ⟨?_, hhead (atHead_sendNext _ _ _)⟩
    have hheld := Slots.length_held_count (h.uncounted pass c reqPieces hw)
    have hsum : u64Add x.fsm.inflightMessages 1 ≤ x.fsm.inflightMessages + 1 := Nat.mod_le _ _
    change u64Add x.fsm.inflightMessages 1 ≤ x.slots.count.held.length
    rw [hheld]
    exact hsum.trans (Nat.succ_le_succ h.count)
  | windowShut => exact ⟨h.count, hhead (atHead_returns _ _)⟩
  | pick | noBlocks | gone => exact ⟨h.count, hhead (atHead_tryNext _ _ _)⟩
  | fails hquit =>
    obtain ⟨rfl, -⟩ | ⟨rfl, -⟩ | ⟨rfl, -⟩ := hquit <;> exact ⟨h.count, nofun⟩
  | _ => exact ⟨h.count, nofun⟩

/-- INTERNAL: a step of the reader releases no more slots than it lowers the count.
SOURCE: peer_protocol_state_machine.rs:305, peer_protocol_state_machine.rs:342 -/
theorem count_reader {a : ReaderAct} {t : PeerFsm} {n : ℕ} (h : MonitorInv torrent options n x)
    (hmove : ReaderTaskMove sha1 x.fsm a t) :
    t.inflightMessages ≤ (x.slotsNext (.reader a)).held.length ∧
      (x.slotsNext (.reader a)).uncounted = x.slots.uncounted := by
  cases hmove with
  | piece =>
    refine ⟨?_, Slots.uncounted_answer _ _⟩
    exact (Nat.sub_le_sub_right h.count 1).trans (Slots.length_held_answer _ _)
  | resetInflight => exact ⟨Nat.zero_le _, rfl⟩
  | peerInterest hr interested hmsg =>
    subst hmsg
    cases interested <;> exact ⟨h.count, rfl⟩
  | @ignored msg hr hmsg =>
    cases msg with
    | piece i off data => exact absurd rfl (hmsg.2.2 i off data)
    | _ => exact ⟨h.count, rfl⟩
  | _ => exact ⟨h.count, rfl⟩

/-- INTERNAL: every step keeps the count within the held slots. -/
theorem monitorInv_step {e : FsmEvent} {r : Unit} {n : ℕ} (h : MonitorInv torrent options n x)
    (he : StaleAtMost n x e) (hstep : monitoredStep sha1 x e = some (y, r)) :
    MonitorInv torrent options n y := by
  obtain ⟨t, slots⟩ := y
  obtain ⟨hfsm, rfl⟩ := monitoredStep_eq_some hstep
  have hkeep (hcount : t.inflightMessages ≤ (x.slotsNext e).held.length)
      (hsent : ∀ pass c reqPieces, t.writer = .sent pass c reqPieces →
        (x.slotsNext e).uncounted.isSome = true) :
      MonitorInv torrent options n ⟨t, x.slotsNext e⟩ :=
    ⟨currentInv_step h.current hfsm, hcount, hsent, stale_slotsNext_le h.stale he⟩
  cases fsmMove hfsm with
  | register => exact hkeep h.count nofun
  | elsewhere => exact hkeep h.count h.uncounted
  | handle =>
    refine hkeep h.count fun pass c reqPieces hw => h.uncounted pass c reqPieces ?_
    exact eq_of_receives hw nofun nofun nofun
  | @pieceActor k e a ha => cases e <;> exact hkeep h.count h.uncounted
  | writer hmove =>
    obtain ⟨hcount, hsent⟩ := count_writer h hmove
    exact hkeep hcount hsent
  | reader hmove =>
    obtain ⟨hcount, hsame⟩ := count_reader h hmove
    obtain ⟨-, hwriter, -⟩ := rest_reader hmove
    refine hkeep hcount fun pass c reqPieces hw => ?_
    rw [hsame]
    exact h.uncounted pass c reqPieces (hwriter ▸ hw)
  | watchdog hmove => cases hmove <;> exact hkeep h.count h.uncounted

theorem monitorInv_new {start : PeerFsm} (h : PeerFsm.new torrent options peerId = some start)
    (n : ℕ) : MonitorInv torrent options n ⟨start, .empty⟩ := by
  have hcurrent := currentInv_new h
  obtain ⟨manager, -, rfl⟩ := fsm_new_eq_some h
  exact ⟨hcurrent, le_rfl, nofun, by simp⟩

/-- INTERNAL: where no request waits, only stale slots are taken. -/
theorem expiredReleased_of_inv {n : ℕ} (h : MonitorInv torrent options n x)
    (hwindow : ∀ k ≤ n, (options.perPeerInflightCount - k) % 2 ^ 32 ≠ 0) :
    ExpiredReleased sha1 x := by
  intro hunchoked hwriter hsettled hblock
  have hheld := x.slots.length_held_le
  have hcount := h.count
  have hstale := h.stale
  rw [hsettled, List.length_nil] at hheld
  apply passSends h.current hwriter hunchoked _ hblock
  unfold freeWindow PeerFsm.peerOptions
  rw [h.current.manager.options_eq]
  apply hwindow
  omega

/-- INTERNAL: with up to `n` stale slots the count of messages in flight is at most `n` above the
number of requests that wait, and a window that is larger than that is released.
SOURCE: peer_protocol_state_machine.rs:30-83, peer_protocol_state_machine.rs:303-308,
peer_protocol_state_machine.rs:337-342, piece_manager.rs:180-195 -/
theorem released_of_staleAtMost {n : ℕ}
    (hwindow : ∀ k ≤ n, (options.perPeerInflightCount - k) % 2 ^ 32 ≠ 0) {start : PeerFsm}
    (hstart : PeerFsm.new torrent options peerId = some start) {es : List FsmEvent}
    (hes : AllSteps (monitoredStep sha1) (StaleAtMost n) ⟨start, .empty⟩ es) :
    AllStates (monitoredStep sha1)
      (fun x => x.fsm.inflightMessages ≤ x.slots.waiting.length + n ∧ ExpiredReleased sha1 x)
      ⟨start, .empty⟩ es := by
  refine allStates_of_invariant (MonitorInv torrent options n)
    (fun _ _ _ _ h he hstep => monitorInv_step h he hstep) (fun x h => ⟨?_, ?_⟩)
    (monitorInv_new hstart n) hes
  · have hheld := x.slots.length_held_le
    have hcount := h.count
    have hstale := h.stale
    omega
  · exact expiredReleased_of_inv h hwindow

/-- **Expired requests do not hold the window when none expires in its slot.** Let the window not be
cut to nothing by the cast to 32 bits. In every run in which no slot is held for a request that was
answered or expired, only the requests that wait occupy the window; and whenever the connection is
unchoked, the writer waits, every request ever sent was answered or expired and some active piece
has a requestable block, a full pass sends a `Request`.
SOURCE: peer_protocol_state_machine.rs:30-83, peer_protocol_state_machine.rs:303-308,
peer_protocol_state_machine.rs:337-342, piece_manager.rs:180-195 -/
theorem window_released (hwindow : options.perPeerInflightCount % 2 ^ 32 ≠ 0) {start : PeerFsm}
    (hstart : PeerFsm.new torrent options peerId = some start) {es : List FsmEvent}
    (hes : AllSteps (monitoredStep sha1) (StaleAtMost 0) ⟨start, .empty⟩ es) :
    AllStates (monitoredStep sha1)
      (fun x => x.fsm.inflightMessages ≤ x.slots.waiting.length ∧ ExpiredReleased sha1 x)
      ⟨start, .empty⟩ es := by
  refine released_of_staleAtMost (n := 0) (fun k hk => ?_) hstart hes
  obtain rfl := Nat.le_zero.mp hk
  exact hwindow

/-- INTERNAL: a pass that comes back with nothing sent. -/
theorem not_expiredReleased {es : List FsmEvent} {t : PeerFsm} {p i : ℕ}
    (hunchoked : x.fsm.peerChoking = false) (hwriter : x.fsm.writer = .waiting)
    (hsettled : x.slots.waiting = [])
    (hblock : (x.fsm.activeRequests.lookup p).any (fun mgr =>
      (x.fsm.pieceActor mgr.send).any fun a => a.requestable i) = true)
    (hes : ∀ e ∈ es, passEvent e = true)
    (hrun : run (fsmStep sha1) x.fsm (.writer .beginPass :: es) = some t)
    (hwaiting : t.writer = .waiting) (hsent : requestsSent t = requestsSent x.fsm) :
    ¬ ExpiredReleased sha1 x := by
  intro hreleased
  obtain ⟨mgr, hmgr, hoffers⟩ := (Option.any_eq_true _ _).mp hblock
  obtain ⟨a, ha, hi⟩ := (Option.any_eq_true _ _).mp hoffers
  have hsends := hreleased hunchoked hwriter hsettled ⟨p, mgr, hmgr, a, i, ha, hi⟩
  have hlt := hsends.returns es t hes hrun hwaiting
  omega

/-- A connection with a window of one message. -/
def oneSlot : PeerFsm :=
  (PeerFsm.new (byteTorrent 1 (List.replicate 20 0)) { perPeerInflightCount := 1 } "peer").get
    (by decide +kernel)

/-- The one block is asked for, and the next round of the pass comes to the window. -/
def askForBlock : List FsmEvent :=
  askForPiece ++
    [.writer (.sendRequest true), .writer .countRequest, .writer .sample, .writer .loadCount,
      .handle .quiet, .writer .loadInflight]

/-- The request expires after five seconds. -/
def blockExpires : FsmEvent := .pieceActor 0 (.tick (fromSecs 5))

/-- The state after that; the window was full, so the pass was over. -/
def stalled : Monitored :=
  (run (monitoredStep fun _ => []) ⟨oneSlot, .empty⟩ (askForBlock ++ [blockExpires])).get
    (by decide +kernel)

/-- A further pass up to the window. -/
def furtherPass : List FsmEvent :=
  [.writer .sample, .writer .loadCount, .handle .quiet, .writer .loadInflight]

/-- The state after that. -/
def emptyPass : PeerFsm :=
  (run (fsmStep fun _ => []) stalled.fsm (.writer .beginPass :: furtherPass)).get
    (by decide +kernel)

/-- The one request has expired and its block is requestable, and a full pass sends nothing. -/
theorem window_held_by_expired :
    run (monitoredStep fun _ => []) ⟨oneSlot, .empty⟩ (askForBlock ++ [blockExpires]) =
        some stalled ∧
      stalled.slots.waiting = [] ∧ stalled.fsm.inflightMessages = 1 ∧
      ¬ ExpiredReleased (fun _ => []) stalled := by
  refine ⟨(Option.some_get _).symm, by decide +kernel, by decide +kernel, ?_⟩
  have hrun : run (fsmStep fun _ => []) stalled.fsm (.writer .beginPass :: furtherPass) =
      some emptyPass := (Option.some_get _).symm
  exact not_expiredReleased (p := 0) (i := 0) (by decide +kernel) (by decide +kernel)
    (by decide +kernel) (by decide +kernel) (by decide) hrun (by decide +kernel)
    (by decide +kernel)

/-- The request is counted and the pass ends; a `Choke` releases its slot before it expires, and the
peer unchokes again. -/
def chokedBeforeExpiry : List FsmEvent :=
  askForBlock ++
    [.writer (.pick [0]), .writer (.requestBlock fun _ => 0), .reader (.take .choke),
      .reader .resetInflight, blockExpires, .reader (.take .unchoke)]

/-- After that run the block of the expired request is requestable again and no slot is taken. -/
theorem window_released_one_piece :
    (run (monitoredStep fun _ => []) ⟨fsmStart, .empty⟩ chokedBeforeExpiry).isSome = true ∧
      AllStates (monitoredStep fun _ => [])
        (fun x => x.fsm.inflightMessages ≤ x.slots.waiting.length ∧
          ExpiredReleased (fun _ => []) x)
        ⟨fsmStart, .empty⟩ chokedBeforeExpiry := by
  constructor
  · decide +kernel
  · exact window_released (by decide) new_fsmStart (by decide +kernel)

end Fissure.Analysis
