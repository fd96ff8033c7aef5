import Fissure.Analysis.RequestWindow
import Fissure.Analysis.TaskTracking

/-!
# The watchdog and the assignments of a peer

What the manager answers is a step of the reconciled index too, so with the steps of the tasks every
step of a connection is one, or changes nothing of it, as long as the tasks are kept apart
(`tracking_step`). So between their sequences nothing is lost (`nothing_lost`); without that, an
assignment that the answer does not know of yet is pruned away (`assignment_pruned`).
-/

set_option autoImplicit false

namespace Fissure.Analysis

open Fissure.Library Fissure.Model
open Fissure.Model.TorrentManagerActor

variable {torrent : ClientTorrentMetaInfo} {options : PeerOptions} {peerId : String}
variable {sha1 : Bytes → Bytes} {s t : PeerFsm}

/-! ## The manager -/

theorem mem_piecesOf {work : List (ℕ × Instant)} {p : ℕ} :
    p ∈ piecesOf work ↔ ∃ w ∈ work, w.1 = p := by
  unfold piecesOf
  rw [List.mem_toFinset, List.mem_map]

theorem piecesOf_mono {kept work : List (ℕ × Instant)} (h : kept ⊆ work) :
    piecesOf kept ⊆ piecesOf work := by
  intro p hp
  obtain ⟨w, hw, rfl⟩ := mem_piecesOf.mp hp
  exact mem_piecesOf.mpr ⟨w, h hw, rfl⟩

theorem workOf_registered {m m' : TorrentManagerActor} {q : String} {b : Bitfield} {env : Env}
    {r : TorrentManagerReply} (h : managerStep m (.addPeer q b, env) = some (m', r)) :
    workOf m' q = [] := by
  cases managerEffect h with
  | registered => simp [workOf, record]
  | unchanged hmsg => exact absurd rfl (hmsg q b 0).1

/-- INTERNAL: a message that does not touch the work list of a peer at most strikes the piece that
it finishes.
SOURCE: torrent_manager.rs:238-263 -/
theorem workOf_untouched {m m' : TorrentManagerActor} {msg : TorrentManagerMessage} {q : String}
    {env : Env} {r : TorrentManagerReply} (h : managerStep m (msg, env) = some (m', r))
    (hmsg : touches q msg = false) : piecesOf (workOf m' q) ⊆ piecesOf (workOf m q) := by
  have hother {q' : String} (hq : (q' == q) = false) (work : List (ℕ × Instant)) :
      (m.peerActiveWork.insert q' work).lookup q = m.peerActiveWork.lookup q := by
    rw [HashMap.lookup_insert_eq, if_neg]
    rintro rfl
    simp at hq
  cases managerEffect h with
  | registered | assigned | expired =>
    unfold workOf
    simp only [record, hother hmsg]
    exact subset_rfl
  | announced | had => exact subset_rfl
  | @finished q' p notifier stats log =>
    have hlookup : workOf (claim m p stats log notifier) q =
        ((workOf m q).filter fun w => w.1 != p).filter fun w => w.1 != p := by
      unfold workOf claim
      simp only [lookup_retainWork]
      cases m.peerActiveWork.lookup q <;> rfl
    rw [hlookup]
    apply piecesOf_mono
    exact (List.filter_sublist.trans List.filter_sublist).subset
  | unchanged => exact subset_rfl

theorem owned_of_pieceFinish {m m' : TorrentManagerActor} {q : String} {p : ℕ} {env : Env}
    {r : TorrentManagerReply} (h : managerStep m (.pieceFinish q p, env) = some (m', r)) :
    Owned m' p := by
  cases managerEffect h with
  | finished hlt => exact (owned_claim hlt p).mpr (Or.inl rfl)
  | unchanged _ hfinish => exact hfinish q p rfl

/-- INTERNAL: a query of the watchdog gives the entries that are in time.
SOURCE: torrent_manager.rs:281-312 -/
theorem managerStep_query {m m' : TorrentManagerActor} {q : String} {env : Env}
    {r : TorrentManagerReply}
    (h : managerStep m (.updateAndGetActiveRequestCount q, env) = some (m', r)) :
    (m' = m ∧ r = .activeWork none) ∨
      workOf m' q = keptWork m env.now (workOf m q) ∧
        r = .activeWork (some (keptWork m env.now (workOf m q))) ∧ ∀ p, Owned m' p ↔ Owned m p := by
  obtain ⟨⟨u, work⟩, hu, heq⟩ := Option.map_eq_some_iff.mp h
  cases heq
  rcases updateAndGetActiveRequestCount_eq_some hu with ⟨hnone, rfl⟩ |
    ⟨work', kept, hwork, hkept, rfl, rfl⟩
  · left
    unfold updateAndGetActiveRequestCount at hu
    rw [hnone] at hu
    cases hu
    exact ⟨rfl, rfl⟩
  · right
    have hold : workOf m q = work' := by simp [workOf, hwork]
    rw [hold]
    refine ⟨?_, by rw [hkept]; rfl, fun p => Iff.rfl⟩
    unfold workOf
    rw [Finmap.lookup_insert, hkept]
    rfl

/-! ## The answers -/

/-- The connection once the manager has handled a message. -/
def answered (s : PeerFsm) (manager : TorrentManagerActor) (mailbox : List Mail) (sender : Sender)
    (reply : TorrentManagerReply) : PeerFsm :=
  { s with
    manager := manager
    mailbox := mailbox
    pieceActors := s.spawned reply
    writer := s.writer.receives sender reply
    reader := s.reader.receives sender reply
    watchdog := s.watchdog.receives sender reply }

/-- INTERNAL: only an answer of its own is a step of the writer. -/
theorem writer_receives {sender : Sender} (hsender : sender ≠ .writer) (task : WriterTask)
    (reply : TorrentManagerReply) : grantedPiece (task.receives sender reply) = grantedPiece task ∧
      unanswered (task.receives sender reply) = unanswered task := by
  unfold WriterTask.receives
  split
  · exact ⟨rfl, rfl⟩
  · exact absurd rfl hsender
  · exact absurd rfl hsender
  · exact ⟨rfl, rfl⟩

/-- INTERNAL: only an answer of its own is a step of the watchdog. -/
theorem watchdog_receives {sender : Sender} (hsender : sender ≠ .watchdog) (task : WatchdogTask)
    (reply : TorrentManagerReply) : snapshotOf (task.receives sender reply) = snapshotOf task ∧
      unansweredQueries (task.receives sender reply) = unansweredQueries task := by
  unfold WatchdogTask.receives
  split
  · exact ⟨rfl, rfl⟩
  · exact absurd rfl hsender
  · exact absurd rfl hsender
  · exact ⟨rfl, rfl⟩

/-- INTERNAL: an answer does not get a task past an insertion, a report or a removal. -/
theorem tracking_answered (manager : TorrentManagerActor) (mailbox : List Mail) (sender : Sender)
    (reply : TorrentManagerReply) :
    tracking (answered s manager mailbox sender reply) =
      { tracking s with
        listed := piecesOf (workOf manager s.peerId)
        closed := {p | Owned manager p}
        reported := mailbox.filterMap (reportOf s.peerId)
        granted := grantedPiece (s.writer.receives sender reply)
        snapshot := snapshotOf (s.watchdog.receives sender reply) } := by
  have hinserted (task : WriterTask) :
      insertedPiece (task.receives sender reply) = insertedPiece task := by
    unfold WriterTask.receives
    split <;> rfl
  have hfinished (task : ReaderTask) :
      reportedPiece (task.receives sender reply) = reportedPiece task := by
    unfold ReaderTask.receives
    split <;> rfl
  have hremoved (task : ReaderTask) :
      removedPiece (task.receives sender reply) = removedPiece task := by
    unfold ReaderTask.receives
    split <;> rfl
  simp [tracking, answered, hinserted, hfinished, hremoved]

/-- INTERNAL: a list of the books names no owned piece. -/
theorem unowned_of_workBook {m : TorrentManagerActor} (h : WorkBook m) {q : String} {p : ℕ}
    (hp : p ∈ piecesOf (workOf m q)) : ¬ Owned m p := by
  obtain ⟨w, hw, rfl⟩ := mem_piecesOf.mp hp
  unfold workOf at hw
  cases hwork : m.peerActiveWork.lookup q with
  | none =>
    rw [hwork] at hw
    cases hw
  | some work =>
    rw [hwork] at hw
    exact (h.listed q work hwork).unowned w hw

theorem reportOf_eq_some_iff {q : String} {mail : Mail} {p : ℕ} :
    reportOf q mail = some p ↔ mail = ⟨.reader, .pieceFinish q p⟩ := by
  constructor
  · intro h
    unfold reportOf at h
    split at h
    · split_ifs at h with hq
      cases h
      rw [hq]
    · cases h
  · rintro rfl
    simp [reportOf]

/-- INTERNAL: a message of another sender reports no piece. -/
theorem reported_tail {sender : Sender} {msg : TorrentManagerMessage} {mailbox : List Mail}
    (hmail : s.mailbox = ⟨sender, msg⟩ :: mailbox) (hsender : sender ≠ .reader) :
    mailbox.filterMap (reportOf s.peerId) = (tracking s).reported := by
  have hnone : reportOf s.peerId ⟨sender, msg⟩ = none := by
    rw [Option.eq_none_iff_forall_not_mem]
    intro p hp
    exact hsender (congrArg Mail.sender (reportOf_eq_some_iff.mp hp))
  unfold tracking
  rw [hmail, List.filterMap_cons_none hnone]

theorem Mail.proper_head (h : MailInv s) {mail : Mail} {mailbox : List Mail}
    (hmail : s.mailbox = mail :: mailbox) : Proper s.peerId mail := by
  apply h.proper
  rw [hmail]
  exact List.mem_cons_self

/-- INTERNAL: the writer waits for the answer to a message of its own. -/
theorem requesting_of_mail (h : MailInv s) {msg : TorrentManagerMessage} {mailbox : List Mail}
    (hmail : s.mailbox = ⟨.writer, msg⟩ :: mailbox) :
    ∃ isChoked, s.writer = .requesting isChoked := by
  have hcount := h.writer
  rw [hmail] at hcount
  unfold waitingFrom unanswered at hcount
  split at hcount
  · next isChoked hw => exact ⟨isChoked, hw⟩
  · simp at hcount

/-- INTERNAL: the watchdog waits for the answer to a message of its own. -/
theorem asking_of_mail (h : MailInv s) {msg : TorrentManagerMessage} {mailbox : List Mail}
    (hmail : s.mailbox = ⟨.watchdog, msg⟩ :: mailbox) : s.watchdog = .asking := by
  have hcount := h.watchdog
  rw [hmail] at hcount
  unfold waitingFrom unansweredQueries at hcount
  split at hcount
  · next hd => exact hd
  · simp at hcount

/-- INTERNAL: the manager grants the writer a piece, or has none for it.
SOURCE: torrent_manager.rs:127-228, peer_protocol_state_machine.rs:132 -/
theorem reconciles_grant (hs : ManagerInv torrent options s.manager) (h : MailInv s) {env : Env}
    {msg : TorrentManagerMessage} {mailbox : List Mail} {manager : TorrentManagerActor}
    {reply : TorrentManagerReply} (hmail : s.mailbox = ⟨.writer, msg⟩ :: mailbox)
    (hmanager : managerStep s.manager (msg, { env with fresh := s.pieceActors.length }) =
      some (manager, reply)) :
    Reconciles s (answered s manager mailbox .writer reply) := by
  obtain ⟨isChoked, hw⟩ := requesting_of_mail h hmail
  have hproper : msg = .requestWork s.peerId := Mail.proper_head h hmail
  subst hproper
  obtain ⟨hsnapshot, hqueries⟩ := watchdog_receives (show Sender.writer ≠ .watchdog from nofun)
    s.watchdog reply
  obtain ⟨⟨u, mgr⟩, hu, heq⟩ := Option.map_eq_some_iff.mp hmanager
  cases heq
  have hanswered : MailInv (answered s manager mailbox .writer (.work mgr)) := by
    refine h.handled hmail rfl rfl ?_ hqueries
    cases mgr <;> simp [answered, hw, WriterTask.receives, unanswered]
  refine ⟨hanswered, ?_⟩
  rw [tracking_answered, hsnapshot, reported_tail hmail nofun, hw]
  have hgranted : (tracking s).granted = none := by simp [tracking, hw, grantedPiece]
  rcases requestWork_eq_some hu with ⟨rfl, rfl, -⟩ | ⟨b, p, m, hb, hfind, hassign, rfl⟩
  · left
    change { tracking s with granted := none } = tracking s
    rw [← hgranted]
  · right
    obtain ⟨count, work, hcount, hwork, hm, rfl⟩ := assign_eq_some_iff.mp hassign
    have hsel := selectable_iff.mp (List.find?_some hfind)
    have hlisted : piecesOf (workOf { s.manager with
          activePiecesManager := s.manager.activePiecesManager.insert p m
          pieceConcurrencyCounts := s.manager.pieceConcurrencyCounts.insert p (count + 1)
          peerActiveWork := s.manager.peerActiveWork.insert s.peerId (work ++ [(p, env.now)]) }
        s.peerId) = insert p (tracking s).listed := by
      ext p'
      simp [piecesOf, workOf, tracking, hwork, eq_comm]
    rw [hlisted]
    have hindex : grantedPiece
        ((WriterTask.requesting isChoked).receives .writer (.work (some m))) = some p :=
      congrArg some (hs.managesPiece hm).index_eq
    rw [hindex]
    exact .grant hgranted (ne_true_of_eq_false hsel.unowned)

/-- INTERNAL: the manager answers the watchdog.
SOURCE: torrent_manager.rs:281-312, peer_protocol_state_machine.rs:185-194 -/
theorem reconciles_answer (h : MailInv s) {env : Env} (hapart : KeptApart s (.handle env))
    {msg : TorrentManagerMessage} {mailbox : List Mail} {manager : TorrentManagerActor}
    {reply : TorrentManagerReply} (hmail : s.mailbox = ⟨.watchdog, msg⟩ :: mailbox)
    (hmanager : managerStep s.manager (msg, { env with fresh := s.pieceActors.length }) =
      some (manager, reply)) :
    Reconciles s (answered s manager mailbox .watchdog reply) := by
  have hd := asking_of_mail h hmail
  have hproper : msg = .updateAndGetActiveRequestCount s.peerId := Mail.proper_head h hmail
  subst hproper
  obtain ⟨hgranted, hunanswered⟩ := writer_receives (show Sender.watchdog ≠ .writer by simp)
    s.writer reply
  have hsnapshot : (tracking s).snapshot = .none := by simp [tracking, hd, snapshotOf]
  have hreply := managerStep_query hmanager
  have hanswered : MailInv (answered s manager mailbox .watchdog reply) := by
    refine h.handled hmail rfl rfl hunanswered ?_
    rcases hreply with ⟨-, rfl⟩ | ⟨-, rfl, -⟩ <;>
      simp [answered, hd, WatchdogTask.receives, unansweredQueries]
  refine ⟨hanswered, ?_⟩
  rw [tracking_answered, hgranted, reported_tail hmail (by simp), hd]
  rcases hreply with ⟨rfl, rfl⟩ | ⟨hwork, rfl, howned⟩
  · left
    change { tracking s with snapshot := .none } = tracking s
    rw [← hsnapshot]
  · right
    have hapart := hapart (by rw [hmail]; rfl)
    have hkept : piecesOf (keptWork s.manager env.now (workOf s.manager s.peerId)) ⊆
        (tracking s).listed := piecesOf_mono (inTime_sublist _ _ _ _).subset
    have hclosed : {p | Owned manager p} = (tracking s).closed := Set.ext howned
    rw [hwork, hclosed]
    exact .take hsnapshot hkept hapart

/-- INTERNAL: the manager handles a message of someone who waits for no piece.
SOURCE: torrent_manager.rs:113-364 -/
theorem reconciles_handled (hbooks : WorkBook s.manager) (h : MailInv s) {env : Env}
    {sender : Sender} {msg : TorrentManagerMessage} {mailbox : List Mail}
    {manager : TorrentManagerActor} {reply : TorrentManagerReply}
    (hmail : s.mailbox = ⟨sender, msg⟩ :: mailbox)
    (hsender : sender ≠ .writer ∧ sender ≠ .watchdog)
    (hmanager : managerStep s.manager (msg, { env with fresh := s.pieceActors.length }) =
      some (manager, reply)) :
    Reconciles s (answered s manager mailbox sender reply) := by
  obtain ⟨hgranted, hunanswered⟩ := writer_receives hsender.1 s.writer reply
  obtain ⟨hsnapshot, hqueries⟩ := watchdog_receives hsender.2 s.watchdog reply
  have hlisted : piecesOf (workOf manager s.peerId) ⊆ (tracking s).listed := by
    have hproper := Mail.proper_head h hmail
    cases sender with
    | connection =>
      rw [show msg = _ from hproper] at hmanager
      rw [workOf_registered hmanager]
      exact Finset.empty_subset _
    | writer => exact absurd rfl hsender.1
    | watchdog => exact absurd rfl hsender.2
    | reader | elsewhere => exact workOf_untouched hmanager hproper
  refine ⟨h.handled hmail rfl rfl ?_ ?_, Or.inr ?_⟩
  · rw [if_neg hsender.1]
    exact hunanswered
  · rw [if_neg hsender.2]
    exact hqueries
  · rw [tracking_answered, hgranted, hsnapshot]
    refine .handled hlisted (fun p hp => owned_of_step hmanager hp)
      (fun p hp => unowned_of_workBook (workBook_step hbooks hmanager) hp) ?_
    intro p hp
    obtain ⟨mail, hmem, hreport⟩ := List.mem_filterMap.mp hp
    rw [hmail] at hmem
    rcases List.mem_cons.mp hmem with rfl | hmem
    · -- the report is handled, so the piece is owned
      cases reportOf_eq_some_iff.mp hreport
      exact Or.inr (owned_of_pieceFinish hmanager)
    · exact Or.inl (List.mem_filterMap.mpr ⟨mail, hmem, hreport⟩)

/-! ## Runs -/

/-- The invariant of the manager and of the tasks that track its list. -/
structure TrackingInv (torrent : ClientTorrentMetaInfo) (options : PeerOptions) (s : PeerFsm) :
    Prop where
  manager : ManagerInv torrent options s.manager
  books : WorkBook s.manager
  mail : MailInv s
  nodup : ∀ active, s.watchdog = .answered active → (active.map Prod.fst).Nodup
  index : ReconcilerInv (tracking s)

theorem keptWork_nodup {m : TorrentManagerActor} (h : WorkBook m) (q : String) (now : Instant) :
    ((keptWork m now (workOf m q)).map Prod.fst).Nodup := by
  have hwork : ((workOf m q).map Prod.fst).Nodup := by
    unfold workOf
    cases hwork : m.peerActiveWork.lookup q with
    | none => exact List.nodup_nil
    | some work => exact (h.listed q work hwork).nodup
  exact hwork.sublist ((inTime_sublist _ _ _ _).map Prod.fst)

/-- INTERNAL: an answer that the watchdog gets names each piece once. -/
theorem nodup_answered (hbooks : WorkBook s.manager) (h : MailInv s)
    (hnodup : ∀ active, s.watchdog = .answered active → (active.map Prod.fst).Nodup) {env : Env}
    {sender : Sender} {msg : TorrentManagerMessage} {mailbox : List Mail}
    {manager : TorrentManagerActor} {reply : TorrentManagerReply}
    (hmail : s.mailbox = ⟨sender, msg⟩ :: mailbox)
    (hmanager : managerStep s.manager (msg, { env with fresh := s.pieceActors.length }) =
      some (manager, reply)) {active : List (ℕ × Instant)}
    (hactive : s.watchdog.receives sender reply = .answered active) :
    (active.map Prod.fst).Nodup := by
  unfold WatchdogTask.receives at hactive
  split at hactive
  · cases hactive
  · cases hactive
    have hproper : msg = .updateAndGetActiveRequestCount s.peerId := Mail.proper_head h hmail
    subst hproper
    rcases managerStep_query hmanager with ⟨-, hreply⟩ | ⟨-, hreply, -⟩
    · cases hreply
    · cases hreply
      exact keptWork_nodup hbooks s.peerId env.now
  · cases hactive
  · exact hnodup active hactive

/-- INTERNAL: every step is a step of the index or none, as long as the tasks are kept apart. -/
theorem tracking_step {e : FsmEvent} {r : Unit} (hs : TrackingInv torrent options s)
    (hapart : KeptApart s e) (hstep : fsmStep sha1 s e = some (t, r)) : Reconciles s t := by
  cases fsmMove hstep with
  | register hw =>
    refine ⟨hs.mail.sent rfl rfl rfl ?_ rfl, Or.inl ?_⟩
    · rw [hw]
      rfl
    · simp [tracking, hw, grantedPiece, insertedPiece, reportOf]
  | elsewhere =>
    refine ⟨hs.mail.sent rfl rfl hapart rfl rfl, Or.inl ?_⟩
    simp [tracking, reportOf]
  | pieceActor => exact ⟨hs.mail.same rfl rfl rfl rfl, Or.inl rfl⟩
  | @handle env sender msg mailbox manager reply hmail hmanager =>
    cases sender with
    | writer => exact reconciles_grant hs.manager hs.mail hmail hmanager
    | watchdog => exact reconciles_answer hs.mail hapart hmail hmanager
    | connection | reader | elsewhere =>
      exact reconciles_handled hs.books hs.mail hmail (by simp) hmanager
  | writer hmove => exact reconciles_writer hs.mail hmove hapart
  | reader hmove => exact reconciles_reader hs.mail hmove hapart
  | watchdog hmove => exact reconciles_watchdog hs.mail hmove hapart hs.nodup

/-- INTERNAL: the manager and the watchdog's answer are in order after every step. -/
theorem answer_step {e : FsmEvent} {r : Unit} (hs : TrackingInv torrent options s)
    (hstep : fsmStep sha1 s e = some (t, r)) :
    ManagerInv torrent options t.manager ∧ WorkBook t.manager ∧
      ∀ active, t.watchdog = .answered active → (active.map Prod.fst).Nodup := by
  cases fsmMove hstep with
  | handle hmail hmanager =>
    exact ⟨managerInv_step hs.manager hmanager, workBook_step hs.books hmanager,
      fun active hactive => nodup_answered hs.books hs.mail hs.nodup hmail hmanager hactive⟩
  | register | elsewhere | pieceActor => exact ⟨hs.manager, hs.books, hs.nodup⟩
  | writer hmove => cases hmove <;> exact ⟨hs.manager, hs.books, hs.nodup⟩
  | reader hmove => cases hmove <;> exact ⟨hs.manager, hs.books, hs.nodup⟩
  | watchdog hmove => cases hmove <;> exact ⟨hs.manager, hs.books, nofun⟩

theorem trackingInv_step {e : FsmEvent} {r : Unit} (hs : TrackingInv torrent options s)
    (hapart : KeptApart s e) (hstep : fsmStep sha1 s e = some (t, r)) :
    TrackingInv torrent options t := by
  obtain ⟨hmanager, hbooks, hnodup⟩ := answer_step hs hstep
  obtain ⟨hmail, hsame | hmove⟩ := tracking_step hs hapart hstep
  · exact ⟨hmanager, hbooks, hmail, hnodup, hsame ▸ hs.index⟩
  · exact ⟨hmanager, hbooks, hmail, hnodup, reconcilerInv_step hs.index hmove⟩

theorem trackingInv_new (h : PeerFsm.new torrent options peerId = some s) :
    TrackingInv torrent options s := by
  obtain ⟨manager, hmanager, rfl⟩ := fsm_new_eq_some h
  have hwork : workOf manager peerId = [] := by
    obtain ⟨numOfP, stats, -, rfl⟩ := manager_new_eq_some hmanager
    rfl
  refine ⟨managerInv_new hmanager, workBook_new hmanager, ⟨nofun, rfl, rfl⟩, nofun, ?_⟩
  refine ⟨?_, nofun, ?_, ?_⟩
  · simp [tracking, hwork, piecesOf]
  · simp [tracking, hwork, piecesOf]
  · simp [SnapshotInv, tracking, snapshotOf, insertedPiece, removedPiece]

/-- INTERNAL: where no task is in the middle of its sequence, the index is settled. -/
theorem tracking_settled (h : Settled s) : (tracking s).granted = none ∧
    (tracking s).inserted = none ∧ (tracking s).removed = none ∧ (tracking s).snapshot = .none := by
  obtain ⟨hwriter, hreader, hwatchdog⟩ := h
  refine ⟨?_, ?_, ?_, ?_⟩
  · change grantedPiece s.writer = none
    cases hw : s.writer <;> simp_all [writerMidway, grantedPiece]
  · change insertedPiece s.writer = none
    cases hw : s.writer <;> simp_all [writerMidway, insertedPiece]
  · change removedPiece s.reader = none
    cases hr : s.reader <;> simp_all [readerMidway, removedPiece]
  · change snapshotOf s.watchdog = .none
    cases hd : s.watchdog <;> simp_all [watchdogMidway, snapshotOf]

/-- INTERNAL: a settled index is one that the list agrees with. -/
theorem nothingLost_of_index (h : ReconcilerInv (tracking s)) : NothingLost s := by
  intro hsettled
  obtain ⟨hgranted, hinserted, hremoved, hsnapshot⟩ := tracking_settled hsettled
  obtain ⟨hlisted, hcount⟩ := h.settled hgranted hinserted hremoved hsnapshot
  refine ⟨fun w hw hwaiting => Finmap.mem_keys.mp (hlisted w.1 ?_ ?_), hcount⟩
  · exact mem_piecesOf.mpr ⟨w, hw, rfl⟩
  · intro hmem
    obtain ⟨mail, hmail, hreport⟩ := List.mem_filterMap.mp hmem
    rw [reportOf_eq_some_iff.mp hreport] at hmail
    exact hwaiting hmail

/-- **The watchdog loses no assignment while the sequences are kept apart.** In every run of a
connection in which they are, whenever no task is in the middle of its sequence, every piece in the
manager's work list for the peer that the reader has not reported as finished is in
`active_requests`, and `pending_active_request_count` is the number of its entries.
SOURCE: peer_protocol_state_machine.rs:127-137, peer_protocol_state_machine.rs:180-210,
peer_protocol_state_machine.rs:349-363, torrent_manager.rs:281-312 -/
theorem nothing_lost {start : PeerFsm} (hstart : PeerFsm.new torrent options peerId = some start)
    {es : List FsmEvent} (hes : AllSteps (fsmStep sha1) KeptApart start es) :
    AllStates (fsmStep sha1) NothingLost start es :=
  allStates_of_invariant (TrackingInv torrent options)
    (fun _ _ _ _ hs hapart hstep => trackingInv_step hs hapart hstep)
    (fun _ hs => nothingLost_of_index hs.index) (trackingInv_new hstart) hes

/-- The peer has the one piece and unchokes, and the writer's pass comes to the free slot. -/
def reachFreeSlot : List FsmEvent :=
  [.register, .handle .quiet, .writer (.sendBitfield true), .reader (.take .unchoke),
    .reader (.take (.bitfield [true])), .handle .quiet, .reader .askUseful, .handle .quiet,
    .reader .askUseful, .handle .quiet, .reader .setUseful, .writer .sample,
    .writer (.sendInterested true), .writer .setInterested]

/-- The watchdog queries the manager before the writer asks for work, and stores and prunes after
the writer has inserted and counted the piece. -/
def queryBeforeGrant : List FsmEvent :=
  [.watchdog .tick, .writer .loadCount, .handle .quiet, .handle .quiet, .writer .insertRequest,
    .writer .countPiece, .watchdog .storeCount, .watchdog .prune, .writer .loadInflight,
    .writer (.pick []), .writer .sample, .writer .loadCount, .handle .quiet, .writer .loadInflight,
    .writer (.pick [])]

/-- The state after both. -/
def afterPruning : PeerFsm :=
  (run (fsmStep fun _ => []) fsmStart (reachFreeSlot ++ queryBeforeGrant)).get (by decide +kernel)

/-- INTERNAL: a listed piece that is lost shows when nothing is on its way. -/
theorem not_nothingLost {w : ℕ × Instant} (hsettled : Settled s)
    (hlisted : w ∈ workOf s.manager s.peerId) (hmailbox : s.mailbox = [])
    (hlost : w.1 ∉ s.activeRequests) : ¬ NothingLost s := by
  intro hkept
  apply hlost
  apply (hkept hsettled).listed w hlisted
  simp [hmailbox]

/-- The manager lists the piece, which it granted at the very same time, and the map has lost it. -/
theorem assignment_pruned :
    run (fsmStep fun _ => []) fsmStart (reachFreeSlot ++ queryBeforeGrant) = some afterPruning ∧
      Settled afterPruning ∧ workOf afterPruning.manager afterPruning.peerId = [(0, 0)] ∧
      afterPruning.mailbox = [] ∧ ¬ NothingLost afterPruning := by
  refine ⟨(Option.some_get _).symm, by decide +kernel, by decide +kernel, by decide +kernel, ?_⟩
  apply not_nothingLost (w := (0, 0))
  all_goals decide +kernel

/-- The watchdog queries, stores and prunes while the piece is in the map, and the piece is finished
afterwards. -/
def queryAfterCount : List FsmEvent :=
  [.writer .loadCount, .handle .quiet, .writer .insertRequest, .writer .countPiece, .watchdog .tick,
    .handle .quiet, .watchdog .storeCount, .watchdog .prune, .writer .loadInflight,
    .writer (.pick [0]), .writer (.requestBlock fun _ => 0), .writer (.sendRequest true),
    .writer .countRequest, .writer .sample, .writer .loadCount, .handle .quiet,
    .writer .loadInflight, .writer (.pick [0]), .writer (.requestBlock fun _ => 0),
    .reader (.take (.piece 0 0 [0])), .reader .locate, .reader .blockRecvied, .reader .pieceFinish,
    .handle .quiet, .reader .removeRequest, .reader .releasePiece]

/-- A run with a query, a removal and a release goes through, and loses nothing. -/
theorem nothing_lost_one_piece :
    (run (fsmStep fun _ => List.replicate 20 0) fsmStart
        (reachFreeSlot ++ queryAfterCount)).isSome = true ∧
      AllStates (fsmStep fun _ => List.replicate 20 0) NothingLost fsmStart
        (reachFreeSlot ++ queryAfterCount) := by
  constructor
  · decide +kernel
  · exact nothing_lost new_fsmStart (by decide +kernel)

end Fissure.Analysis
