import Fissure.Library.Reconciler
import Fissure.Analysis.FsmSteps
import Fissure.Analysis.WorkBookkeeping

/-!
# The assignments of a peer and its tasks

The manager lists which pieces the peer works on, and the connection keeps a map of them and a
counter. The writer adds to the two, the reader takes from them, and the watchdog overwrites both
with an answer of the manager. `tracking` reads a connection as the reconciled index of the library,
and the steps of the three tasks are steps of it, or change nothing of it, as long as the three are
kept apart (`reconciles_writer`, `reconciles_reader`, `reconciles_watchdog`).
-/

set_option autoImplicit false

namespace Fissure.Analysis

open Fissure.Library Fissure.Model
open Fissure.Model.TorrentManagerActor

variable {sha1 : Bytes → Bytes} {s t : PeerFsm}

/-! ## The tasks and what they keep -/

/-- The manager's work list for a peer. -/
def workOf (m : TorrentManagerActor) (q : String) : List (ℕ × Instant) :=
  (m.peerActiveWork.lookup q).getD []

/-- The pieces of a work list. -/
def piecesOf (work : List (ℕ × Instant)) : Finset ℕ := (work.map Prod.fst).toFinset

/-- The piece that the writer was granted and has not inserted. -/
def grantedPiece : WriterTask → Option ℕ
  | .granted _ req => some req.index
  | _ => none

/-- The piece that the writer has inserted and not counted. -/
def insertedPiece : WriterTask → Option ℕ
  | .inserted _ req => some req.index
  | _ => none

/-- The piece that the reader has reported and not removed. -/
def reportedPiece : ReaderTask → Option ℕ
  | .finished pieceIndex => some pieceIndex
  | _ => none

/-- The piece that the reader has removed and not uncounted. -/
def removedPiece : ReaderTask → Option ℕ
  | .removed pieceIndex => some pieceIndex
  | _ => none

/-- The answer that the watchdog has in hand. -/
def snapshotOf : WatchdogTask → Snapshot ℕ
  | .answered stillActive => .taken (piecesOf stillActive)
  | .pruning stillActive => .stored (piecesOf stillActive)
  | _ => .none

/-- The piece that a `PieceFinish` of the connection's reader reports. -/
def reportOf (q : String) : Mail → Option ℕ
  | ⟨.reader, .pieceFinish q' pieceIndex⟩ => if q' = q then some pieceIndex else none
  | _ => none

/-- The connection as an index of the manager's list. -/
def tracking (s : PeerFsm) : Reconciled ℕ where
  listed := piecesOf (workOf s.manager s.peerId)
  closed := {p | Owned s.manager p}
  reported := s.mailbox.filterMap (reportOf s.peerId)
  index := s.activeRequests.keys
  count := s.pendingActiveRequestCount
  granted := grantedPiece s.writer
  inserted := insertedPiece s.writer
  finished := reportedPiece s.reader
  removed := removedPiece s.reader
  snapshot := snapshotOf s.watchdog

/-- The message changes the work list of peer `q` other than by finishing a piece. -/
def touches (q : String) : TorrentManagerMessage → Bool
  | .addPeer q' _ | .requestWork q' | .updateAndGetActiveRequestCount q' => q' == q
  | _ => false

/-- The writer is in the middle of `RequestWork`, insert and increment. -/
def writerMidway : WriterTask → Bool
  | .requesting _ | .granted .. | .inserted .. => true
  | _ => false

/-- The reader is in the middle of finish, remove and decrement. -/
def readerMidway : ReaderTask → Bool
  | .finished _ | .removed _ => true
  | _ => false

/-- The watchdog is in the middle of query, store and prune. -/
def watchdogMidway : WatchdogTask → Bool
  | .asking | .answered _ | .pruning _ => true
  | _ => false

/-- No task is in the middle of its sequence. -/
def Settled (s : PeerFsm) : Prop :=
  writerMidway s.writer = false ∧ readerMidway s.reader = false ∧ watchdogMidway s.watchdog = false

/-- Every piece in the manager's work list that the reader has not reported as finished is in
`active_requests`, and the counter is the number of its entries. A piece that times out stays on the
list until the manager's next answer. -/
structure Agrees (s : PeerFsm) : Prop where
  listed : ∀ w ∈ workOf s.manager s.peerId,
    ⟨.reader, .pieceFinish s.peerId w.1⟩ ∉ s.mailbox → w.1 ∈ s.activeRequests
  count : s.pendingActiveRequestCount = s.activeRequests.keys.card

/-- Between the sequences nothing is lost. -/
def NothingLost (s : PeerFsm) : Prop := Settled s → Agrees s

instance (s : PeerFsm) : Decidable (Settled s) := inferInstanceAs (Decidable (_ ∧ _ ∧ _))

/-- The sequences of the three tasks do not run into each other, the counter does not wrap around,
and no one else speaks for the peer. -/
def KeptApart (s : PeerFsm) : FsmEvent → Prop
  | .writer .insertRequest => ∀ p ∈ grantedPiece s.writer, InsertsApart (tracking s) p
  | .writer .countPiece => s.pendingActiveRequestCount + 1 < 2 ^ 64
  | .reader .removeRequest => ∀ p ∈ reportedPiece s.reader, RemovesApart (tracking s) p
  | .reader .releasePiece => ∀ p ∈ removedPiece s.reader, ReleasesApart (tracking s) p
  | .watchdog .storeCount => StoresApart (tracking s)
  | .handle env => s.mailbox.head?.map Mail.sender = some .watchdog →
      TakesApart (tracking s) (piecesOf (keptWork s.manager env.now (workOf s.manager s.peerId)))
  | .elsewhere msg => touches s.peerId msg = false
  | _ => True

instance (s : PeerFsm) : (e : FsmEvent) → Decidable (KeptApart s e)
  | .writer a =>
    match a with
    | .insertRequest => inferInstanceAs (Decidable (∀ p ∈ grantedPiece s.writer, _))
    | .countPiece => inferInstanceAs (Decidable (_ < _))
    | .sendBitfield _ | .beginPass | .beginTopOff | .sample | .sendInterested _ | .setInterested
    | .loadCount | .loadInflight | .pick _ | .requestBlock _ | .sendRequest _ | .countRequest =>
      isTrue trivial
  | .reader a =>
    match a with
    | .removeRequest => inferInstanceAs (Decidable (∀ p ∈ reportedPiece s.reader, _))
    | .releasePiece => inferInstanceAs (Decidable (∀ p ∈ removedPiece s.reader, _))
    | .take _ | .resetInflight | .askUseful | .setUseful | .locate | .blockRecvied | .pieceFinish
    | .ends => isTrue trivial
  | .watchdog a =>
    match a with
    | .storeCount => inferInstanceAs (Decidable (StoresApart (tracking s)))
    | .tick | .prune => isTrue trivial
  | .handle _ => inferInstanceAs (Decidable (_ = _ → TakesApart _ _))
  | .elsewhere _ => inferInstanceAs (Decidable (_ = _))
  | .register | .pieceActor .. => isTrue trivial

/-! ## The mailbox -/

/-- What each sender may have sent. -/
def Proper (q : String) (mail : Mail) : Prop :=
  match mail.sender with
  | .connection => mail.msg = .addPeer q []
  | .writer => mail.msg = .requestWork q
  | .watchdog => mail.msg = .updateAndGetActiveRequestCount q
  | .reader | .elsewhere => touches q mail.msg = false

/-- How many `RequestWork`s of the writer are unanswered. -/
def unanswered : WriterTask → ℕ
  | .requesting _ => 1
  | _ => 0

/-- How many queries of the watchdog are unanswered. -/
def unansweredQueries : WatchdogTask → ℕ
  | .asking => 1
  | _ => 0

/-- How many messages of the sender are in the mailbox. -/
def waitingFrom (sender : Sender) (mailbox : List Mail) : ℕ :=
  mailbox.countP fun mail => mail.sender = sender

/-- The messages of the writer and of the watchdog are those that they wait for the answer of. -/
structure MailInv (s : PeerFsm) : Prop where
  proper : ∀ mail ∈ s.mailbox, Proper s.peerId mail
  writer : waitingFrom .writer s.mailbox = unanswered s.writer
  watchdog : waitingFrom .watchdog s.mailbox = unansweredQueries s.watchdog

theorem MailInv.same (h : MailInv s) (hpeer : t.peerId = s.peerId)
    (hmailbox : t.mailbox = s.mailbox)
    (hwriter : unanswered t.writer = unanswered s.writer)
    (hwatchdog : unansweredQueries t.watchdog = unansweredQueries s.watchdog) : MailInv t := by
  refine ⟨?_, ?_, ?_⟩
  · rw [hpeer, hmailbox]
    exact h.proper
  · rw [hmailbox, hwriter]
    exact h.writer
  · rw [hmailbox, hwatchdog]
    exact h.watchdog

theorem MailInv.sent (h : MailInv s) {mail : Mail} (hpeer : t.peerId = s.peerId)
    (hmailbox : t.mailbox = s.mailbox ++ [mail]) (hproper : Proper s.peerId mail)
    (hwriter : unanswered t.writer = unanswered s.writer + if mail.sender = .writer then 1 else 0)
    (hwatchdog : unansweredQueries t.watchdog =
      unansweredQueries s.watchdog + if mail.sender = .watchdog then 1 else 0) : MailInv t := by
  have hcount (sender : Sender) : waitingFrom sender t.mailbox =
      waitingFrom sender s.mailbox + if mail.sender = sender then 1 else 0 := by
    rw [hmailbox]
    simp [waitingFrom, List.countP_append, List.countP_cons]
  refine ⟨?_, ?_, ?_⟩
  · rw [hpeer, hmailbox]
    intro mail' hmail'
    rcases List.mem_append.mp hmail' with hmail' | hmail'
    · exact h.proper mail' hmail'
    · rw [List.mem_singleton.mp hmail']
      exact hproper
  · rw [hcount, h.writer, hwriter]
  · rw [hcount, h.watchdog, hwatchdog]

/-- INTERNAL: an answer to the writer is the answer to its one message. -/
theorem MailInv.handled (h : MailInv s) {sender : Sender} {msg : TorrentManagerMessage}
    {mailbox : List Mail} (hmail : s.mailbox = ⟨sender, msg⟩ :: mailbox)
    (hpeer : t.peerId = s.peerId) (hmailbox : t.mailbox = mailbox)
    (hwriter : unanswered t.writer + (if sender = .writer then 1 else 0) = unanswered s.writer)
    (hwatchdog : unansweredQueries t.watchdog + (if sender = .watchdog then 1 else 0) =
      unansweredQueries s.watchdog) : MailInv t := by
  have hcount (sender' : Sender) : waitingFrom sender' s.mailbox =
      waitingFrom sender' mailbox + if sender = sender' then 1 else 0 := by
    rw [hmail]
    simp [waitingFrom, List.countP_cons]
  have hw := hcount .writer
  have hd := hcount .watchdog
  rw [h.writer] at hw
  rw [h.watchdog] at hd
  refine ⟨?_, ?_, ?_⟩
  · rw [hpeer, hmailbox]
    intro mail' hmail'
    apply h.proper
    rw [hmail]
    exact List.mem_cons_of_mem _ hmail'
  · rw [hmailbox]
    omega
  · rw [hmailbox]
    omega

/-! ## The writer -/

/-- The writer is not in the middle of `RequestWork`, insert and increment. -/
structure Free (task : WriterTask) : Prop where
  unanswered : unanswered task = 0
  granted : grantedPiece task = none
  inserted : insertedPiece task = none

theorem free_of_atHead {task : WriterTask} (h : atHead task = true) : Free task := by
  cases task with
  | waiting | passing | toppingOff | trying | sending => exact ⟨rfl, rfl, rfl⟩
  | _ => cases h

/-- What is tracked of `s` and `t` is the same but for the writer. -/
structure WriterOnly (s t : PeerFsm) : Prop where
  manager : t.manager = s.manager
  peerId : t.peerId = s.peerId
  mailbox : t.mailbox = s.mailbox
  count : t.pendingActiveRequestCount = s.pendingActiveRequestCount
  requests : t.activeRequests = s.activeRequests
  reader : t.reader = s.reader
  watchdog : t.watchdog = s.watchdog

/-- What a step may make of the mailbox and of what is tracked. -/
def Reconciles (s t : PeerFsm) : Prop :=
  MailInv t ∧ (tracking t = tracking s ∨ ReconcilerMove (tracking s) (tracking t))

theorem reconciles_free (h : MailInv s) (hrest : WriterOnly s t) (hs : Free s.writer)
    (ht : Free t.writer) : Reconciles s t := by
  refine ⟨h.same hrest.peerId hrest.mailbox ?_ ?_, Or.inl ?_⟩
  · rw [ht.unanswered, hs.unanswered]
  · rw [hrest.watchdog]
  · unfold tracking
    rw [hrest.manager, hrest.peerId, hrest.mailbox, hrest.count, hrest.requests, hrest.reader,
      hrest.watchdog, ht.granted, hs.granted, ht.inserted, hs.inserted]

/-- INTERNAL: an insertion into `active_requests` and the count of it are steps of the index, and
the rest of the writer's steps have nothing to do with it.
SOURCE: peer_protocol_state_machine.rs:127-148 -/
theorem reconciles_writer {a : WriterAct} (h : MailInv s) (hmove : WriterTaskMove s a t)
    (hapart : KeptApart s (.writer a)) : Reconciles s t := by
  have hfree {task : WriterTask} (hw : s.writer = task) (htask : Free task)
      (hrest : WriterOnly s t) (ht : Free t.writer) : Reconciles s t :=
    reconciles_free h hrest (hw ▸ htask) ht
  have hrest {task : WriterTask} {actors : List (Option PieceRequestManagerActor)}
      {sent : List PeerMessage} {interested : Bool} {inflight : ℕ} : WriterOnly s { s with
        writer := task, pieceActors := actors, sent := sent, amInterested := interested
        inflightMessages := inflight } := ⟨rfl, rfl, rfl, rfl, rfl, rfl, rfl⟩
  cases hmove with
  | asks hw hlt =>
    refine ⟨h.sent rfl rfl rfl ?_ rfl, Or.inl ?_⟩
    · rw [hw]
      rfl
    · simp [tracking, hw, grantedPiece, insertedPiece, reportOf]
  | @insertRequest isChoked req hw =>
    have hgranted : (tracking s).granted = some req.index := by simp [tracking, hw, grantedPiece]
    have hinserted : (tracking s).inserted = none := by simp [tracking, hw, insertedPiece]
    have hmoved : tracking { s with
          writer := .inserted isChoked req
          activeRequests := s.activeRequests.insert req.index req } =
        { tracking s with
          index := insert req.index (tracking s).index
          granted := none
          inserted := some req.index } := by
      simp [tracking, grantedPiece, insertedPiece, HashMap.keys_insert]
    refine ⟨h.same rfl rfl ?_ rfl, Or.inr ?_⟩
    · rw [hw]
      rfl
    · rw [hmoved]
      exact .insert hgranted hinserted (hapart req.index hgranted)
  | @countPiece isChoked req hw =>
    have hinserted : (tracking s).inserted = some req.index := by simp [tracking, hw, insertedPiece]
    have hmoved : tracking { s with
          writer := .toppingOff ⟨true, isChoked, true⟩
          pendingActiveRequestCount := u64Add s.pendingActiveRequestCount 1 } =
        { tracking s with count := (tracking s).count + 1, inserted := none } := by
      have hsum : u64Add s.pendingActiveRequestCount 1 = s.pendingActiveRequestCount + 1 :=
        Nat.mod_eq_of_lt hapart
      simp [tracking, hw, grantedPiece, insertedPiece, hsum]
    refine ⟨h.same rfl rfl ?_ rfl, Or.inr ?_⟩
    · rw [hw]
      rfl
    · rw [hmoved]
      exact .count hinserted
  | fails hquit =>
    obtain ⟨-, b, hw⟩ | ⟨-, isChoked, hw⟩ | ⟨-, pass, c, reqPieces, hw⟩ := hquit
    · exact hfree hw ⟨rfl, rfl, rfl⟩ hrest ⟨rfl, rfl, rfl⟩
    · exact hfree hw ⟨rfl, rfl, rfl⟩ hrest ⟨rfl, rfl, rfl⟩
    · exact hfree hw ⟨rfl, rfl, rfl⟩ hrest ⟨rfl, rfl, rfl⟩
  | windowShut hw => exact hfree hw ⟨rfl, rfl, rfl⟩ hrest (free_of_atHead (atHead_returns _ _))
  | pick hw | noBlocks hw | gone hw =>
    exact hfree hw ⟨rfl, rfl, rfl⟩ hrest (free_of_atHead (atHead_tryNext _ _ _))
  | countRequest hw => exact hfree hw ⟨rfl, rfl, rfl⟩ hrest (free_of_atHead (atHead_sendNext _ _ _))
  | sendBitfield hw | beginPass hw | beginTopOff hw | interest hw | noInterest hw
  | sendInterested hw | setInterested hw | skips hw | windowOpen hw | blocks hw | sendRequest hw =>
    exact hfree hw ⟨rfl, rfl, rfl⟩ hrest ⟨rfl, rfl, rfl⟩

/-! ## The reader and the watchdog -/

/-- The reader is not in the middle of finish, remove and decrement. -/
structure Unburdened (task : ReaderTask) : Prop where
  reported : reportedPiece task = none
  removed : removedPiece task = none

theorem unburdened_afterBlock {a : PieceRequestManagerActor} {i off : ℕ} {data : Bytes}
    {tracked : Bool} {a' : Option PieceRequestManagerActor} {reader : ReaderTask}
    (h : PeerFsm.afterBlock sha1 a i off data tracked = (a', reader)) : Unburdened reader := by
  unfold PeerFsm.afterBlock at h
  split at h <;> cases h <;> exact ⟨rfl, rfl⟩

/-- INTERNAL: a step of the reader that only touches the reader has nothing to do with the index. -/
theorem reconciles_unburdened (h : MailInv s) {reader : ReaderTask}
    {actors : List (Option PieceRequestManagerActor)} {choking interested useful : Bool}
    {inflight : ℕ} (hs : Unburdened s.reader) (ht : Unburdened reader) :
    Reconciles s { s with
      reader := reader, pieceActors := actors, peerChoking := choking, peerInterested := interested
      hasUsefulPieces := useful, inflightMessages := inflight } := by
  refine ⟨h.same rfl rfl rfl rfl, Or.inl ?_⟩
  simp [tracking, hs.reported, hs.removed, ht.reported, ht.removed]

/-- INTERNAL: nor has a message other than a `PieceFinish`. -/
theorem reconciles_asking (h : MailInv s) {reader : ReaderTask} {msg : TorrentManagerMessage}
    (hmsg : touches s.peerId msg = false) (hreport : reportOf s.peerId ⟨.reader, msg⟩ = none)
    (hs : Unburdened s.reader) (ht : Unburdened reader) :
    Reconciles s { s with reader := reader, mailbox := s.mailbox ++ [⟨.reader, msg⟩] } := by
  refine ⟨h.sent rfl rfl hmsg rfl rfl, Or.inl ?_⟩
  simp [tracking, hs.reported, hs.removed, ht.reported, ht.removed, hreport]

/-- INTERNAL: a report, a removal and its release are steps of the index.
SOURCE: peer_protocol_state_machine.rs:349-363 -/
theorem reconciles_reader {a : ReaderAct} (h : MailInv s) (hmove : ReaderTaskMove sha1 s a t)
    (hapart : KeptApart s (.reader a)) : Reconciles s t := by
  have hfree {task : ReaderTask} (hr : s.reader = task) (htask : Unburdened task) :
      Unburdened s.reader := hr ▸ htask
  cases hmove with
  | @pieceFinish i tracked hr =>
    have hmoved : tracking { s with
          reader := if tracked then .finished i else .idle
          mailbox := s.mailbox ++ [⟨.reader, .pieceFinish s.peerId i⟩] } =
        { tracking s with
          reported := (tracking s).reported ++ [i]
          finished := if tracked then some i else none } := by
      cases tracked <;> simp [tracking, hr, reportOf, reportedPiece, removedPiece]
    refine ⟨h.sent rfl rfl rfl rfl rfl, Or.inr ?_⟩
    rw [hmoved]
    apply ReconcilerMove.report
    cases tracked <;> simp
  | @removes i hr hmem =>
    have hfinished : (tracking s).finished = some i := by simp [tracking, hr, reportedPiece]
    have hremoved : (tracking s).removed = none := by simp [tracking, hr, removedPiece]
    have hmoved : tracking { s with
          reader := .removed i, activeRequests := s.activeRequests.erase i } =
        { tracking s with
          index := (tracking s).index.erase i, finished := none, removed := some i } := by
      simp [tracking, reportedPiece, removedPiece, Finmap.keys_erase]
    refine ⟨h.same rfl rfl rfl rfl, Or.inr ?_⟩
    rw [hmoved]
    exact .remove hfinished hremoved (Finmap.mem_keys.mpr hmem) (hapart i hfinished)
  | @pruned i hr hnot =>
    have hfinished : (tracking s).finished = some i := by simp [tracking, hr, reportedPiece]
    have hmoved : tracking { s with reader := .idle } = { tracking s with finished := none } := by
      simp [tracking, hr, reportedPiece, removedPiece]
    refine ⟨h.same rfl rfl rfl rfl, Or.inr ?_⟩
    rw [hmoved]
    exact .skip hfinished
  | @releasePiece i hr =>
    have hremoved : (tracking s).removed = some i := by simp [tracking, hr, removedPiece]
    have hmoved : tracking { s with
          reader := .idle, pendingActiveRequestCount := s.pendingActiveRequestCount - 1 } =
        { tracking s with count := (tracking s).count - 1, removed := none } := by
      simp [tracking, hr, reportedPiece, removedPiece]
    refine ⟨h.same rfl rfl rfl rfl, Or.inr ?_⟩
    rw [hmoved]
    exact .release hremoved (hapart i hremoved)
  | had hr => exact reconciles_asking h rfl rfl (hfree hr ⟨rfl, rfl⟩) (hfree hr ⟨rfl, rfl⟩)
  | bitfield hr | askUseful hr | untracked hr =>
    exact reconciles_asking h rfl rfl (hfree hr ⟨rfl, rfl⟩) ⟨rfl, rfl⟩
  | delivered hr ha hafter =>
    exact reconciles_unburdened h (hfree hr ⟨rfl, rfl⟩) (unburdened_afterBlock hafter)
  | unchoke hr | peerInterest hr | ignored hr =>
    exact reconciles_unburdened h (hfree hr ⟨rfl, rfl⟩) (hfree hr ⟨rfl, rfl⟩)
  | choke hr | piece hr | ends hr | resetInflight hr | setUseful hr | tracked hr | lost hr =>
    exact reconciles_unburdened h (hfree hr ⟨rfl, rfl⟩) ⟨rfl, rfl⟩

/-- INTERNAL: the pruned map has the entries of the answer.
SOURCE: peer_protocol_state_machine.rs:203 -/
theorem keys_retainActive (activeRequests : HashMap ℕ PieceRequestManager)
    (active : List (ℕ × Instant)) :
    (PeerFsm.retainActive activeRequests active).keys =
      activeRequests.keys.filter (· ∈ piecesOf active) := by
  ext p
  have hany : (active.any fun w => w.1 == p) = true ↔ p ∈ piecesOf active := by
    simp [piecesOf]
  rw [Finmap.mem_keys, Finset.mem_filter, Finmap.mem_keys, ← Finmap.lookup_isSome,
    lookup_retainActive, ← Finmap.lookup_isSome]
  split_ifs with h
  · rw [and_iff_left]
    simpa using hany.mp h
  · simp [← hany, h]

/-- INTERNAL: the storing of an answer and the pruning by it are steps of the index.
SOURCE: peer_protocol_state_machine.rs:183-209 -/
theorem reconciles_watchdog {a : WatchdogAct} (h : MailInv s) (hmove : WatchdogTaskMove s a t)
    (hapart : KeptApart s (.watchdog a))
    (hnodup : ∀ active, s.watchdog = .answered active → (active.map Prod.fst).Nodup) :
    Reconciles s t := by
  cases hmove with
  | tick hd =>
    refine ⟨h.sent rfl rfl rfl rfl ?_, Or.inl ?_⟩
    · rw [hd]
      rfl
    · simp [tracking, hd, snapshotOf, reportOf]
  | @storeCount active hd =>
    have hsnapshot : (tracking s).snapshot = .taken (piecesOf active) := by
      simp [tracking, hd, snapshotOf]
    have hmoved : tracking { s with
          watchdog := .pruning active, pendingActiveRequestCount := active.length } =
        { tracking s with
          count := (piecesOf active).card, snapshot := .stored (piecesOf active) } := by
      have hcard : (piecesOf active).card = active.length := by
        unfold piecesOf
        rw [List.toFinset_card_of_nodup (hnodup active hd), List.length_map]
      simp [tracking, snapshotOf, hcard]
    refine ⟨h.same rfl rfl rfl ?_, Or.inr ?_⟩
    · rw [hd]
      rfl
    · rw [hmoved]
      exact .store hsnapshot hapart
  | @prune active hd =>
    have hsnapshot : (tracking s).snapshot = .stored (piecesOf active) := by
      simp [tracking, hd, snapshotOf]
    have hmoved : tracking { s with
          watchdog := .sleeping
          activeRequests := PeerFsm.retainActive s.activeRequests active } =
        { tracking s with
          index := (tracking s).index.filter (· ∈ piecesOf active), snapshot := .none } := by
      simp [tracking, snapshotOf, keys_retainActive]
    refine ⟨h.same rfl rfl rfl ?_, Or.inr ?_⟩
    · rw [hd]
      rfl
    · rw [hmoved]
      exact .prune hsnapshot

end Fissure.Analysis
