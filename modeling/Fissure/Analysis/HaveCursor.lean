import Fissure.Analysis.ManagerInvariant
import Fissure.Analysis.WriterSteps

/-!
# The cursor behind which a connection announces

A writer sends a `Have` for each entry of the log behind its cursor and then stores the length that
it read before it asked (`CursorAt`). The answer reaches to the end of the log, so the stored length
is right as long as no piece is persisted between the two (`have_cursor`); otherwise the entries of
such pieces are sent once more (`have_repeated`).
-/

set_option autoImplicit false

namespace Fissure.Analysis

open Fissure.Library Fissure.Model

/-- The pieces named in the `Have` messages, in order. -/
def haves (sent : List PeerMessage) : List ℕ :=
  sent.filterMap fun
    | .have p => some p
    | _ => none

/-- The pieces named in `Have` messages so far are a segment of the log that starts at the cursor,
each entry once and in order. -/
def HaveSegment (cursor : ℕ) (s : HaveWriter) : Prop :=
  haves s.sent <+: s.manager.downloadedPieceIndex.drop cursor

/-- A piece may be persisted unless the writer has read the length of the log and not got the
answer to `get_have_message_progress` yet. -/
def LogMayGrow : WriterPhase → Prop
  | .asking .. => False
  | _ => True

/-- No piece is persisted between the length that the writer reads and the answer that it gets. -/
def LogStands (s : HaveWriter) : WriterEvent → Prop
  | .recv msg env => (persisted s.manager env msg).isSome = true → LogMayGrow s.phase
  | _ => True

instance : (phase : WriterPhase) → Decidable (LogMayGrow phase)
  | .asking .. => isFalse id
  | .unregistered | .starting _ | .looking | .waiting _ | .woken _ | .announcing .. | .ended =>
    isTrue trivial

instance (s : HaveWriter) : (e : WriterEvent) → Decidable (LogStands s e)
  | .recv msg env => inferInstanceAs (Decidable ((persisted s.manager env msg).isSome = true → _))
  | .register .. | .sendBitfield _ | .look | .wake | .readLen | .askProgress _ | .sendHave _
  | .storeLastSeen | .ends => isTrue trivial

/-! ## The cursor -/

/-- How far the log `log` from position `start` on has been sent, by where the writer stands after
its first look at the watch channel. -/
def CursorAt (start : ℕ) (log sent : List ℕ) : WriterPhase → Prop
  | .unregistered | .starting _ | .looking => False
  | .waiting lastSeen | .woken lastSeen =>
    start ≤ lastSeen ∧ lastSeen ≤ log.length ∧ sent = (log.take lastSeen).drop start
  | .asking lastSeen currentLen =>
    start ≤ lastSeen ∧ lastSeen ≤ log.length ∧ currentLen = log.length ∧
      sent = (log.take lastSeen).drop start
  | .announcing currentLen newPieces =>
    start ≤ currentLen ∧ currentLen ≤ log.length ∧
      sent ++ newPieces = (log.take currentLen).drop start
  | .ended => sent <+: log.drop start

/-- The invariant of a writer that started at `start`. -/
structure CursorInv (start : ℕ) (s : HaveWriter) : Prop where
  notifier_eq : s.manager.peerNotifier = s.manager.downloadedPieceIndex.length
  cursor : CursorAt start s.manager.downloadedPieceIndex (haves s.sent) s.phase

variable {s t : HaveWriter} {start : ℕ}

theorem haves_append (sent : List PeerMessage) (p : ℕ) :
    haves (sent ++ [.have p]) = haves sent ++ [p] := by
  simp [haves]

theorem take_drop_prefix (log : List ℕ) (n start : ℕ) :
    (log.take n).drop start <+: log.drop start := by
  rw [List.drop_take]
  apply List.take_prefix

/-- INTERNAL: what was sent is a segment of the log, wherever the writer stands. -/
theorem haveSegment_of_inv (h : CursorInv start s) : HaveSegment start s := by
  have hcursor := h.cursor
  unfold HaveSegment
  cases hphase : s.phase with
  | unregistered | starting | looking =>
    rw [hphase] at hcursor
    exact hcursor.elim
  | waiting lastSeen | woken lastSeen =>
    rw [hphase] at hcursor
    rw [hcursor.2.2]
    apply take_drop_prefix
  | asking lastSeen currentLen =>
    rw [hphase] at hcursor
    rw [hcursor.2.2.2]
    apply take_drop_prefix
  | announcing currentLen newPieces =>
    rw [hphase] at hcursor
    have hprefix := take_drop_prefix s.manager.downloadedPieceIndex currentLen start
    rw [← hcursor.2.2] at hprefix
    exact (List.prefix_append _ _).trans hprefix
  | ended =>
    rw [hphase] at hcursor
    exact hcursor

/-- INTERNAL: what was sent of the log was sent of a longer one, except that a length read before
is the length of the log no more. -/
theorem CursorAt.grow {log sent : List ℕ} {phase : WriterPhase}
    (h : CursorAt start log sent phase) {new : List ℕ} (hnew : new = [] ∨ LogMayGrow phase) :
    CursorAt start (log ++ new) sent phase := by
  have hlength : log.length ≤ (log ++ new).length := (List.prefix_append log new).length_le
  cases phase with
  | unregistered | starting | looking => exact h.elim
  | waiting lastSeen | woken lastSeen =>
    obtain ⟨hstart, hle, hsent⟩ := h
    refine ⟨hstart, hle.trans hlength, ?_⟩
    rw [List.take_append_of_le_length hle, hsent]
  | asking lastSeen currentLen =>
    rcases hnew with rfl | hgrow
    · rw [List.append_nil]
      exact h
    · exact hgrow.elim
  | announcing currentLen newPieces =>
    obtain ⟨hstart, hle, hsent⟩ := h
    refine ⟨hstart, hle.trans hlength, ?_⟩
    rw [List.take_append_of_le_length hle, hsent]
  | ended =>
    refine h.trans ?_
    by_cases hle : start ≤ log.length
    · rw [List.drop_append_of_le_length hle]
      apply List.prefix_append
    · rw [List.drop_eq_nil_of_le (by omega)]
      apply List.nil_prefix

/-- INTERNAL: every step during which the log stands still for an asking writer keeps the
invariant.
SOURCE: peer_protocol_state_machine.rs:264-278 -/
theorem cursorInv_step {e : WriterEvent} {r : Unit} (h : CursorInv start s) (he : LogStands s e)
    (hstep : writerStep s e = some (t, r)) : CursorInv start t := by
  have hcursor := h.cursor
  cases writerMove hstep with
  | @recv msg env manager r hmanager =>
    have hgrows := logGrows hmanager
    refine ⟨hgrows.notifier h.notifier_eq, ?_⟩
    rw [hgrows.log]
    apply hcursor.grow
    cases hpersisted : persisted s.manager env msg with
    | none => exact Or.inl rfl
    | some p => exact Or.inr (he (by rw [hpersisted]; rfl))
  | register hphase | sendBitfield hphase | look hphase =>
    rw [hphase] at hcursor
    exact hcursor.elim
  | wake hphase =>
    rw [hphase] at hcursor
    exact ⟨h.notifier_eq, hcursor⟩
  | readLen hphase =>
    rw [hphase] at hcursor
    exact ⟨h.notifier_eq, hcursor.1, hcursor.2.1, h.notifier_eq, hcursor.2.2⟩
  | @askProgress lastSeen currentLen env hphase hle =>
    -- the answer begins at the cursor and ends at the length that was read
    rw [hphase] at hcursor
    obtain ⟨hstart, -, hcurrent, hsent⟩ := hcursor
    refine ⟨h.notifier_eq, ?_, hcurrent.le, ?_⟩
    · rw [hcurrent]
      exact hstart.trans hle
    · rw [hsent, hcurrent, List.take_length]
      calc (s.manager.downloadedPieceIndex.take lastSeen).drop start ++
            s.manager.downloadedPieceIndex.drop lastSeen
          = (s.manager.downloadedPieceIndex.take lastSeen ++
              s.manager.downloadedPieceIndex.drop lastSeen).drop start := by
            rw [List.drop_append_of_le_length]
            rw [List.length_take, Nat.min_eq_left hle]
            exact hstart
        _ = s.manager.downloadedPieceIndex.drop start := by rw [List.take_append_drop]
  | sendHave hphase =>
    rw [hphase] at hcursor
    obtain ⟨hstart, hle, hsent⟩ := hcursor
    refine ⟨h.notifier_eq, hstart, hle, ?_⟩
    rw [haves_append, List.append_assoc]
    exact hsent
  | storeLastSeen hphase =>
    rw [hphase] at hcursor
    obtain ⟨hstart, hle, hsent⟩ := hcursor
    rw [List.append_nil] at hsent
    exact ⟨h.notifier_eq, hstart, hle, hsent⟩
  | ended =>
    have hsegment : HaveSegment start s := haveSegment_of_inv h
    exact ⟨h.notifier_eq, hsegment⟩

/-! ## The start -/

/-- The writer has not sent any `Have` before its first look at the watch channel. -/
def SilentBefore (s : HaveWriter) : WriterPhase → Prop
  | .unregistered | .starting _ | .looking => haves s.sent = []
  | _ => True

/-- The invariant from the start on. -/
structure StartInv (s : HaveWriter) : Prop where
  notifier_eq : s.manager.peerNotifier = s.manager.downloadedPieceIndex.length
  silent : SilentBefore s s.phase

theorem startInv_step {e : WriterEvent} {r : Unit} (h : StartInv s)
    (hstep : writerStep s e = some (t, r)) : StartInv t := by
  have hsilent := h.silent
  cases writerMove hstep with
  | recv hmanager => exact ⟨(logGrows hmanager).notifier h.notifier_eq, hsilent⟩
  | register hphase hmanager =>
    rw [hphase] at hsilent
    exact ⟨(logGrows hmanager).notifier h.notifier_eq, hsilent⟩
  | sendBitfield hphase =>
    rw [hphase] at hsilent
    change haves s.sent = [] at hsilent
    refine ⟨h.notifier_eq, ?_⟩
    change haves (s.sent ++ [_]) = []
    unfold haves at hsilent ⊢
    rw [List.filterMap_append, hsilent]
    rfl
  | _ => exact ⟨h.notifier_eq, trivial⟩

variable {torrent : ClientTorrentMetaInfo} {options : PeerOptions}

theorem startInv_new (h : HaveWriter.new torrent options = some s) : StartInv s := by
  obtain ⟨manager, hmanager, rfl⟩ := Option.map_eq_some_iff.mp h
  obtain ⟨numOfP, stats, -, rfl⟩ := manager_new_eq_some hmanager
  exact ⟨rfl, rfl⟩

/-- **The `Have` messages are a segment of the log when it stands still for an asking writer.** No
`Have` is sent before the writer's first look at the watch channel. In every run after it in which
no piece is persisted between a length that the writer reads and the answer that it gets, the
pieces named in its `Have` messages are at all times a segment of the log that starts at the cursor
it read first, each entry once and in order.
SOURCE: peer_protocol_state_machine.rs:228-284, torrent_manager.rs:268-275,
torrent_manager.rs:349-357 -/
theorem have_cursor {first : HaveWriter} (hfirst : HaveWriter.new torrent options = some first)
    {before : List WriterEvent} (hbefore : run writerStep first before = some s)
    (hlook : s.look = some t) {es : List WriterEvent} (hes : AllSteps writerStep LogStands t es) :
    haves s.sent = [] ∧ AllStates writerStep (HaveSegment s.manager.peerNotifier) t es := by
  have hinv : StartInv s :=
    run_invariant (fun _ _ _ _ hs hstep => startInv_step hs hstep) (startInv_new hfirst) hbefore
  have hmove : writerStep s .look = some (t, ()) := by
    change s.look.map _ = _
    rw [hlook]
    rfl
  cases writerMove hmove with
  | look hphase =>
    have hsilent := hinv.silent
    rw [hphase] at hsilent
    refine ⟨hsilent, ?_⟩
    apply allStates_of_invariant (CursorInv s.manager.peerNotifier)
      (fun _ _ _ _ h he hstep => cursorInv_step h he hstep) (fun _ h => haveSegment_of_inv h) _ hes
    refine ⟨hinv.notifier_eq, le_rfl, hinv.notifier_eq.le, ?_⟩
    rw [List.drop_eq_nil_of_le (by rw [List.length_take]; exact Nat.min_le_left _ _)]
    exact hsilent
  | ended he => simp at he

/-- A torrent of two pieces whose writer has looked at the watch channel, and another peer that
works on both pieces. -/
def twoPieceRun : List WriterEvent :=
  [.register "early" .quiet, .sendBitfield true, .recv (.addPeer "other" []) .quiet,
    .recv (.addBitFeild "other" [true, true]) .quiet, .recv (.requestWork "other") .quiet,
    .recv (.requestWork "other") .quiet]

theorem isSome_twoPieceStart :
    (HaveWriter.new (byteTorrent 2 (List.replicate 40 0)) {}).isSome = true := by
  decide +kernel

/-- The state before that. -/
def twoPieceStart : HaveWriter :=
  (HaveWriter.new (byteTorrent 2 (List.replicate 40 0)) {}).get isSome_twoPieceStart

/-- The state after that. -/
def beforeLook : HaveWriter := (run writerStep twoPieceStart twoPieceRun).get (by decide +kernel)

/-- The writer looks at the watch channel. -/
def afterLook : HaveWriter := beforeLook.look.get (by decide +kernel)

/-- The second piece is finished after the writer has read the length of the log and before the
manager answers, and the writer sends what it is answered. -/
def finishWhileAsking : List WriterEvent :=
  [.recv (.pieceFinish "other" 0) .quiet, .wake, .readLen, .recv (.pieceFinish "other" 1) .quiet,
    .askProgress .quiet, .sendHave true, .sendHave true, .storeLastSeen, .wake, .readLen,
    .askProgress .quiet, .sendHave true]

/-- The state after that. -/
def repeatedState : HaveWriter := (run writerStep afterLook finishWhileAsking).get (by decide +kernel)

/-- The second piece is sent twice, with one entry in the log. -/
theorem have_repeated :
    run writerStep twoPieceStart twoPieceRun = some beforeLook ∧
      beforeLook.look = some afterLook ∧
      run writerStep afterLook finishWhileAsking = some repeatedState ∧
      beforeLook.manager.peerNotifier = 0 ∧
      repeatedState.manager.downloadedPieceIndex = [0, 1] ∧
      haves repeatedState.sent = [0, 1, 1] ∧ ¬ HaveSegment 0 repeatedState := by
  have hlog : repeatedState.manager.downloadedPieceIndex = [0, 1] := by decide +kernel
  have hsent : haves repeatedState.sent = [0, 1, 1] := by decide +kernel
  refine ⟨(Option.some_get _).symm, (Option.some_get _).symm, (Option.some_get _).symm,
    by decide +kernel, hlog, hsent, fun hsegment => ?_⟩
  unfold HaveSegment at hsegment
  rw [hlog, hsent] at hsegment
  have hlength := hsegment.length_le
  simp at hlength

/-- Both pieces are finished while the writer waits or sends. -/
def finishWhileWaiting : List WriterEvent :=
  [.recv (.pieceFinish "other" 0) .quiet, .wake, .readLen, .askProgress .quiet,
    .recv (.pieceFinish "other" 1) .quiet, .sendHave true, .storeLastSeen, .wake, .readLen,
    .askProgress .quiet, .sendHave true, .storeLastSeen]

/-- The run goes through, and each piece is sent once. -/
theorem have_cursor_two_pieces :
    (run writerStep afterLook finishWhileWaiting).isSome = true ∧
      haves beforeLook.sent = [] ∧
      AllStates writerStep (HaveSegment beforeLook.manager.peerNotifier) afterLook
        finishWhileWaiting := by
  constructor
  · decide +kernel
  · exact have_cursor (Option.some_get _).symm (Option.some_get _).symm
      (Option.some_get _).symm (by decide +kernel)

end Fissure.Analysis
