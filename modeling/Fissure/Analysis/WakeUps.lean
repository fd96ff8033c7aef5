import Fissure.Analysis.Interest
import Fissure.Library.Refinement
import Fissure.Model.WakingWriter

/-!
# No change goes unseen

The writer sleeps in `select!` and is woken by notifications. `no_lost_wake_up` says that when it
sleeps and nothing is left to wake it, a pass has read everything that the others changed: the flags
of the peer, the active pieces that went away and the messages that are no longer in flight. The
argument is one for the three places where a pass reads (`Reading`): after a change a read is `Due`,
and it stays due until it takes place. The count that the watchdog stores is not among the changes:
it is stored without a notification.

`interested_when_quiet` says what that comes to for the interest in the peer, and
`run_of_wakingRun` that a connection with its notifications is a connection.
-/

set_option autoImplicit false

namespace Fissure.Analysis

open Fissure.Library Fissure.Model

variable {sha1 : Bytes → Bytes} {s t : WakingFsm}

/-! ## One step -/

@[simp] theorem fsm_notifyOne (s : WakingFsm) (n : Notification) : (s.notifyOne n).fsm = s.fsm := by
  cases n <;> rfl

/-- What an event of a connection with notifications does. -/
inductive WakingMove (sha1 : Bytes → Bytes) (s : WakingFsm) : WakingEvent → WakingFsm → Prop
  | does {e : FsmEvent} {u : PeerFsm} (hmay : s.mayDo e = true) (h : FsmMove sha1 s.fsm e u)
      (hstep : fsmStep sha1 s.fsm e = some (u, ())) :
      WakingMove sha1 s (.does e)
        { s with
          fsm := u
          readerOwes := s.readerOwes.or (owedBy s.fsm.reader u.reader e)
          watchdogOwes := s.watchdogOwes || WakingFsm.isPrune e &&
            decide (u.activeRequests.keys.card ≠ s.fsm.activeRequests.keys.card) }
  | readerNotifies {n : Notification} (howes : s.readerOwes = some n) :
      WakingMove sha1 s .readerNotifies { s.notifyOne n with readerOwes := none }
  | watchdogNotifies (howes : s.watchdogOwes = true) :
      WakingMove sha1 s .watchdogNotifies
        { s.notifyOne .stateUpdate with watchdogOwes := false }
  | looksState (hw : s.fsm.writer = .waiting) :
      WakingMove sha1 s (.looks .stateUpdate) { s with stateUpdate := s.stateUpdate.look }
  | looksBlock (hw : s.fsm.writer = .waiting) :
      WakingMove sha1 s (.looks .blockAcked) { s with blockAcked := s.blockAcked.look }
  | state (hw : s.fsm.writer = .waiting) :
      WakingMove sha1 s (.wakes .state)
        { s with fsm := { s.fsm with writer := .passing }, stateUpdate := s.stateUpdate.take }
  | block (hw : s.fsm.writer = .waiting) :
      WakingMove sha1 s (.wakes .block)
        { s with
          fsm := { s.fsm with writer := .toppingOff ⟨false, s.fsm.peerChoking, false⟩ }
          blockAcked := s.blockAcked.take }
  | tick (hw : s.fsm.writer = .waiting) :
      WakingMove sha1 s (.wakes .tick) { s with fsm := { s.fsm with writer := .passing } }

/-- INTERNAL: what the writer does to begin a pass. -/
theorem writerStep_beginPass {u v : PeerFsm} (h : u.writerStep .beginPass = some v) :
    u.writer = .waiting ∧ v = { u with writer := .passing } := by
  cases writerTaskMove h with
  | fails hfails => simp at hfails
  | beginPass hw => exact ⟨hw, rfl⟩

/-- INTERNAL: what the writer does to begin a top-off. -/
theorem writerStep_beginTopOff {u v : PeerFsm} (h : u.writerStep .beginTopOff = some v) :
    u.writer = .waiting ∧ v = { u with writer := .toppingOff ⟨false, u.peerChoking, false⟩ } := by
  cases writerTaskMove h with
  | fails hfails => simp at hfails
  | beginTopOff hw => exact ⟨hw, rfl⟩

/-- INTERNAL: everything a step does. -/
theorem wakingMove {e : WakingEvent} {r : Unit} (h : wakingStep sha1 s e = some (t, r)) :
    WakingMove sha1 s e t := by
  obtain ⟨u, hu, heq⟩ := Option.map_eq_some_iff.mp h
  cases heq
  cases e with
  | does e =>
    change s.does sha1 e = some t at hu
    unfold WakingFsm.does at hu
    split_ifs at hu with hmay
    simp only [Option.bind_eq_bind, Option.bind_eq_some_iff, Option.some.injEq] at hu
    obtain ⟨⟨u, r⟩, hstep, rfl⟩ := hu
    exact .does hmay (fsmMove hstep) hstep
  | readerNotifies =>
    obtain ⟨n, howes, rfl⟩ := Option.map_eq_some_iff.mp hu
    exact .readerNotifies howes
  | watchdogNotifies =>
    change s.watchdogNotifies = some t at hu
    unfold WakingFsm.watchdogNotifies at hu
    split_ifs at hu with howes
    cases hu
    exact .watchdogNotifies howes
  | looks n =>
    change s.looks n = some t at hu
    cases n with
    | stateUpdate =>
      simp only [WakingFsm.looks] at hu
      split_ifs at hu with hw
      cases hu
      exact .looksState hw.1
    | blockAcked =>
      simp only [WakingFsm.looks] at hu
      split_ifs at hu with hw
      cases hu
      exact .looksBlock hw.1
  | wakes w =>
    change s.wakes w = some t at hu
    cases w with
    | state =>
      simp only [WakingFsm.wakes, Option.bind_eq_bind] at hu
      split_ifs at hu
      obtain ⟨u, hbegin, heq⟩ := Option.bind_eq_some_iff.mp hu
      cases heq
      obtain ⟨hw, rfl⟩ := writerStep_beginPass hbegin
      exact .state hw
    | block =>
      simp only [WakingFsm.wakes, Option.bind_eq_bind] at hu
      split_ifs at hu
      obtain ⟨u, hbegin, heq⟩ := Option.bind_eq_some_iff.mp hu
      cases heq
      obtain ⟨hw, rfl⟩ := writerStep_beginTopOff hbegin
      exact .block hw
    | tick =>
      obtain ⟨u, hbegin, heq⟩ := Option.bind_eq_some_iff.mp hu
      cases heq
      obtain ⟨hw, rfl⟩ := writerStep_beginPass hbegin
      exact .tick hw

/-! ## A connection with notifications is a connection -/

/-- The step of the connection itself. -/
def connectionEvent (_ : WakingFsm) : WakingEvent → Option FsmEvent
  | .does e => some e
  | .wakes .state | .wakes .tick => some (.writer .beginPass)
  | .wakes .block => some (.writer .beginTopOff)
  | .readerNotifies | .watchdogNotifies | .looks _ => none

/-- INTERNAL: the writer can begin a pass whenever it waits. -/
theorem refines_wakingStep {e : WakingEvent} {r : Unit} (h : wakingStep sha1 s e = some (t, r)) :
    RefinesStep (fsmStep sha1) WakingFsm.fsm connectionEvent s e t := by
  have hbegin {u : PeerFsm} (hw : u.writer = .waiting) :
      fsmStep sha1 u (.writer .beginPass) = some ({ u with writer := .passing }, ()) := by
    simp [fsmStep, PeerFsm.writerStep, hw]
  cases wakingMove h with
  | does hmay hmove hstep => exact ⟨(), hstep⟩
  | readerNotifies | watchdogNotifies => exact fsm_notifyOne s _
  | looksState | looksBlock => rfl
  | state hw | tick hw => exact ⟨(), hbegin hw⟩
  | block hw =>
    refine ⟨(), ?_⟩
    simp [fsmStep, PeerFsm.writerStep, hw]

/-- **A run of a connection with its notifications is a run of the connection.** What
is proved of every run of `fsmStep` holds of it. -/
theorem run_of_wakingRun {es : List WakingEvent} (h : run (wakingStep sha1) s es = some t) :
    run (fsmStep sha1) s.fsm (outputs (wakingStep sha1) connectionEvent s es) = some t.fsm :=
  run_outputs_of_refines (A := fun _ _ => True) (fun _ => True) WakingFsm.fsm connectionEvent
    (fun _ _ _ _ _ _ _ => trivial) (fun _ _ _ _ _ _ he => refines_wakingStep he) trivial
    (allSteps_of_forall (fun _ _ => trivial) s es) h

/-! ## Where a pass reads -/

/-- The reader has changed something and is on its way to the notification; with `inTopOff` also
one that a top-off is enough for. -/
def onItsWay (inTopOff : Bool) : ReaderTask → Bool
  | .choking | .useful _ | .hashMatched _ _ | .finished _ | .removed _ => true
  | .locating _ _ _ | .asking _ _ _ | .sending _ _ _ _ _ => inTopOff
  | _ => false

/-- The notification makes the writer read. -/
def enough (inTopOff : Bool) : Notification → Bool
  | .stateUpdate => true
  | .blockAcked => inTopOff

/-- A place where a pass reads what others change, with the places from which the writer can only
get there or end. -/
structure Reading where
  act : WriterAct
  before : WriterTask → Bool
  /-- a top-off reads it, too -/
  inTopOff : Bool
  waiting : before .waiting = false
  registering : before .registering = true
  passing : before .passing = true
  toppingOff : ∀ pass, inTopOff = true → before (.toppingOff pass) = true
  goes_on : ∀ s t a, WriterTaskMove s a t → before s.writer = true →
    before t.writer = true ∨ a = act
  receives : ∀ task sender reply, before task = true →
    before (WriterTask.receives task sender reply) = true

/-- The writer is about to read the flags of the peer. -/
def beforeSample : WriterTask → Bool
  | .unregistered | .registering | .starting _ | .passing | .ended => true
  | _ => false

/-- The writer is about to read the count of active pieces. -/
def beforeLoadCount : WriterTask → Bool
  | .interesting _ | .interested _ | .counting _ => true
  | task => beforeSample task

/-- The writer is about to read the count of messages in flight. -/
def beforeLoadInflight : WriterTask → Bool
  | .requesting _ | .granted _ _ | .inserted _ _ | .toppingOff _ => true
  | task => beforeLoadCount task

theorem before_receives (task : WriterTask) (sender : Sender) (reply : TorrentManagerReply) :
    (beforeSample task = true → beforeSample (task.receives sender reply) = true) ∧
      (beforeLoadCount task = true → beforeLoadCount (task.receives sender reply) = true) ∧
      (beforeLoadInflight task = true →
        beforeLoadInflight (task.receives sender reply) = true) := by
  unfold WriterTask.receives
  split <;> simp [beforeSample, beforeLoadCount, beforeLoadInflight]

/-- A pass reads the flags of the peer. -/
def readsFlags : Reading where
  act := .sample
  before := beforeSample
  inTopOff := false
  waiting := rfl
  registering := rfl
  passing := rfl
  toppingOff := by simp
  goes_on s t a hmove hbefore := by
    cases hmove <;> simp_all [beforeSample]
  receives task sender reply := (before_receives task sender reply).1

/-- A pass reads the count of active pieces. -/
def readsCount : Reading where
  act := .loadCount
  before := beforeLoadCount
  inTopOff := false
  waiting := rfl
  registering := rfl
  passing := rfl
  toppingOff := by simp
  goes_on s t a hmove hbefore := by
    cases hmove <;> simp_all [beforeSample, beforeLoadCount]
  receives task sender reply := (before_receives task sender reply).2.1

/-- A pass and a top-off read the count of messages in flight. -/
def readsInflight : Reading where
  act := .loadInflight
  before := beforeLoadInflight
  inTopOff := true
  waiting := rfl
  registering := rfl
  passing := rfl
  toppingOff := by simp [beforeLoadInflight]
  goes_on s t a hmove hbefore := by
    cases hmove <;> simp_all [beforeSample, beforeLoadCount, beforeLoadInflight]
  receives task sender reply := (before_receives task sender reply).2.2

/-! ## What is due -/

/-- Something will make the writer read. -/
inductive Due (rd : Reading) (s : WakingFsm) : Prop
  | writer (h : rd.before s.fsm.writer = true)
  | reader (h : onItsWay rd.inTopOff s.fsm.reader = true)
  | owed {n : Notification} (h : s.readerOwes = some n) (hn : enough rd.inTopOff n = true)
  | watchdog (h : s.watchdogOwes = true)
  | state (h : s.stateUpdate.pending = true)
  | block (h : s.blockAcked.pending = true) (hrd : rd.inTopOff = true)

/-- The writer reads. -/
def Reads (rd : Reading) (_ : WakingFsm) (e : WakingEvent) : Prop := e = .does (.writer rd.act)

theorem reader_writer {u v : PeerFsm} {a : WriterAct} (hmove : WriterTaskMove u a v) :
    v.reader = u.reader := by
  cases hmove <;> rfl

theorem reader_watchdog {u v : PeerFsm} {a : WatchdogAct} (hmove : WatchdogTaskMove u a v) :
    v.reader = u.reader := by
  cases hmove <;> rfl

/-- INTERNAL: the reader that is on its way stays so up to its notification. -/
theorem onItsWay_reader {u v : PeerFsm} {a : ReaderAct} {b : Bool}
    (hmove : ReaderTaskMove sha1 u a v) (h : onItsWay b u.reader = true) :
    onItsWay b v.reader = true ∨
      ∃ n, owedBy u.reader v.reader (.reader a) = some n ∧ enough b n = true := by
  cases hmove with
  | delivered hr ha hafter =>
    rw [hr] at h ⊢
    unfold PeerFsm.afterBlock at hafter
    split at hafter <;> cases hafter <;> simp_all [onItsWay, owedBy, enough]
  | pieceFinish hr =>
    split_ifs <;> simp_all [onItsWay, owedBy, enough]
  | _ => simp_all [onItsWay, owedBy, enough]

/-- INTERNAL: so does one that waits for an answer of the manager. -/
theorem onItsWay_receives {task : ReaderTask} {b : Bool} (sender : Sender)
    (reply : TorrentManagerReply) (env : Env) (h : onItsWay b task = true) :
    onItsWay b (task.receives sender reply) = true ∨
      ∃ n, owedBy task (task.receives sender reply) (.handle env) = some n ∧
        enough b n = true := by
  unfold ReaderTask.receives
  split <;> simp_all [onItsWay, owedBy, enough]

/-- INTERNAL: whatever happens to the connection. -/
theorem onItsWay_move {u v : PeerFsm} {e : FsmEvent} {b : Bool} (hmove : FsmMove sha1 u e v)
    (h : onItsWay b u.reader = true) :
    onItsWay b v.reader = true ∨ ∃ n, owedBy u.reader v.reader e = some n ∧ enough b n = true := by
  cases hmove with
  | register | elsewhere | pieceActor => exact Or.inl h
  | handle hmail hm => exact onItsWay_receives _ _ _ h
  | writer hmove =>
    rw [reader_writer hmove]
    exact Or.inl h
  | reader hmove => exact onItsWay_reader hmove h
  | watchdog hmove =>
    rw [reader_watchdog hmove]
    exact Or.inl h

/-- INTERNAL: the writer that is about to read stays so up to its read. -/
theorem before_move {u v : PeerFsm} {e : FsmEvent} {rd : Reading} (hmove : FsmMove sha1 u e v)
    (h : rd.before u.writer = true) : rd.before v.writer = true ∨ e = .writer rd.act := by
  cases hmove with
  | register => exact Or.inl rd.registering
  | handle hmail hm => exact Or.inl (rd.receives _ _ _ h)
  | elsewhere | pieceActor => exact Or.inl h
  | writer hmove => exact (rd.goes_on _ _ _ hmove h).imp_right (congrArg _)
  | reader hmove =>
    rw [(rest_reader hmove).2.1]
    exact Or.inl h
  | watchdog hmove =>
    rw [(rest_watchdog hmove).2.1]
    exact Or.inl h

/-- The reader owes a notification only at the head of its loop. -/
def OwesAtHead (s : WakingFsm) : Prop := s.readerOwes.isSome = true → s.fsm.reader = .idle

theorem owedBy_eq_some {before after : ReaderTask} {e : FsmEvent} {n : Notification}
    (h : owedBy before after e = some n) : after = .idle := by
  unfold owedBy at h
  split at h <;> simp_all

/-- INTERNAL: at the head of its loop the reader stays while others go on. -/
theorem idle_move {u v : PeerFsm} {e : FsmEvent} (hmove : FsmMove sha1 u e v)
    (hr : u.reader = .idle) (he : ∀ a, e ≠ .reader a) : v.reader = .idle := by
  cases hmove with
  | register | elsewhere | pieceActor => exact hr
  | handle => simp [hr, ReaderTask.receives]
  | writer hmove => rw [reader_writer hmove, hr]
  | reader => exact absurd rfl (he _)
  | watchdog hmove => rw [reader_watchdog hmove, hr]

/-- INTERNAL: a task that owes a notification takes no other step. -/
theorem owesAtHead_step {e : WakingEvent} {r : Unit} (h : OwesAtHead s)
    (he : wakingStep sha1 s e = some (t, r)) : OwesAtHead t := by
  cases wakingMove he with
  | does hmay hmove =>
    intro howes
    cases hs : s.readerOwes with
    | none =>
      simp only [hs, Option.none_or] at howes
      obtain ⟨n, hn⟩ := Option.isSome_iff_exists.mp howes
      exact owedBy_eq_some hn
    | some n =>
      refine idle_move hmove (h (by simp [hs])) ?_
      rintro a rfl
      simp [WakingFsm.mayDo, hs] at hmay
  | readerNotifies => simp [OwesAtHead]
  | watchdogNotifies => exact h
  | looksState | looksBlock => exact h
  | state | block | tick => exact h

/-- INTERNAL: a notification that is pending stays so when another one is given. -/
theorem pending_of_notifyOne (n : Notification) :
    (s.stateUpdate.pending = true → (s.notifyOne n).stateUpdate.pending = true) ∧
      (s.blockAcked.pending = true → (s.notifyOne n).blockAcked.pending = true) := by
  cases n <;> simp [WakingFsm.notifyOne]

/-- INTERNAL: what is due stays due when the tasks stand where they stood and no notification is
lost. -/
theorem Due.of_pending {rd : Reading} (h : Due rd s) (hfsm : t.fsm = s.fsm)
    (hreader : t.readerOwes = s.readerOwes) (hwatchdog : t.watchdogOwes = s.watchdogOwes)
    (hstate : s.stateUpdate.pending = true → t.stateUpdate.pending = true)
    (hblock : s.blockAcked.pending = true → t.blockAcked.pending = true) : Due rd t := by
  cases h with
  | writer h => exact .writer (by rwa [hfsm])
  | reader h => exact .reader (by rwa [hfsm])
  | owed h hn => exact .owed (by rwa [hreader]) hn
  | watchdog h => exact .watchdog (by rwa [hwatchdog])
  | state h => exact .state (hstate h)
  | block h hrd => exact .block (hblock h) hrd

/-- INTERNAL: what is due stays due until it is read. -/
theorem due_step {rd : Reading} {e : WakingEvent} {r : Unit} (hs : OwesAtHead s) (h : Due rd s)
    (he : wakingStep sha1 s e = some (t, r)) : Due rd t ∨ Reads rd s e := by
  cases wakingMove he with
  | does hmay hmove =>
    cases h with
    | writer h =>
      refine (before_move hmove h).imp .writer ?_
      exact congrArg _
    | reader h =>
      rcases onItsWay_move hmove h with hr | ⟨n, hn, henough⟩
      · exact Or.inl (.reader hr)
      · refine Or.inl (.owed (n := n) ?_ henough)
        have hnone : s.readerOwes = none := by
          rw [← Option.not_isSome_iff_eq_none]
          intro howes
          simp [hs howes, onItsWay] at h
        simp [hnone, hn]
    | owed h hn => exact Or.inl (.owed (by simp [h]) hn)
    | watchdog h => exact Or.inl (.watchdog (by simp [h]))
    | state h => exact Or.inl (.state h)
    | block h hrd => exact Or.inl (.block h hrd)
  | @readerNotifies m howes =>
    left
    cases h with
    | writer h => exact .writer (by simpa using h)
    | reader h => exact .reader (by simpa using h)
    | owed h hn =>
      obtain rfl := Option.some.inj (howes.symm.trans h)
      cases m with
      | stateUpdate => exact .state (by simp [WakingFsm.notifyOne])
      | blockAcked => exact .block (by simp [WakingFsm.notifyOne]) hn
    | watchdog h => exact .watchdog (by cases m <;> exact h)
    | state h => exact .state ((pending_of_notifyOne m).1 h)
    | block h hrd => exact .block ((pending_of_notifyOne m).2 h) hrd
  | watchdogNotifies => exact Or.inl (.state (by simp [WakingFsm.notifyOne]))
  | looksState => exact Or.inl (h.of_pending rfl rfl rfl (fun h => by simpa using h) fun h => h)
  | looksBlock => exact Or.inl (h.of_pending rfl rfl rfl (fun h => h) fun h => by simpa using h)
  | state | tick => exact Or.inl (.writer rd.passing)
  | block hw =>
    left
    cases h with
    | writer h => simp [hw, rd.waiting] at h
    | reader h => exact .reader h
    | owed h hn => exact .owed h hn
    | watchdog h => exact .watchdog h
    | state h => exact .state h
    | block h hrd => exact .writer (rd.toppingOff _ hrd)

/-! ## What makes a read due -/

/-- The flags that a pass goes by change. -/
def ChangesFlags (sha1 : Bytes → Bytes) (s : WakingFsm) (e : WakingEvent) : Prop :=
  ∃ t, wakingStep sha1 s e = some (t, ()) ∧
    (t.fsm.peerChoking ≠ s.fsm.peerChoking ∨ t.fsm.hasUsefulPieces ≠ s.fsm.hasUsefulPieces)

/-- The step is one of the reader. -/
def isReader : WakingEvent → Bool
  | .does (.reader _) => true
  | _ => false

/-- An active piece goes away, or the reader lowers the count. -/
def FreesSlot (sha1 : Bytes → Bytes) (s : WakingFsm) (e : WakingEvent) : Prop :=
  ∃ t, wakingStep sha1 s e = some (t, ()) ∧
    ((∃ p, p ∈ s.fsm.activeRequests ∧ p ∉ t.fsm.activeRequests) ∨
      isReader e = true ∧ t.fsm.pendingActiveRequestCount < s.fsm.pendingActiveRequestCount)

/-- The reader lowers the count of messages in flight. -/
def FreesWindow (sha1 : Bytes → Bytes) (s : WakingFsm) (e : WakingEvent) : Prop :=
  ∃ t, wakingStep sha1 s e = some (t, ()) ∧
    isReader e = true ∧ t.fsm.inflightMessages < s.fsm.inflightMessages

/-- INTERNAL: a reader that owes nothing and moves on owes what its move leads to. -/
theorem due_of_reader {rd : Reading} {a : ReaderAct} {u : PeerFsm}
    (hmay : s.mayDo (.reader a) = true)
    (h : onItsWay rd.inTopOff u.reader = true ∨
      ∃ n, owedBy s.fsm.reader u.reader (.reader a) = some n ∧ enough rd.inTopOff n = true)
    {owes : Bool} :
    Due rd { s with
      fsm := u
      readerOwes := s.readerOwes.or (owedBy s.fsm.reader u.reader (.reader a))
      watchdogOwes := owes } := by
  have hnone : s.readerOwes = none := by simpa [WakingFsm.mayDo] using hmay
  rcases h with h | ⟨n, hn, henough⟩
  · exact .reader h
  · exact .owed (by simp [hnone, hn]) henough

/-- INTERNAL: what the reader does to the flags, it notifies. -/
theorem flags_reader {u v : PeerFsm} {a : ReaderAct} (hmove : ReaderTaskMove sha1 u a v)
    (h : v.peerChoking ≠ u.peerChoking ∨ v.hasUsefulPieces ≠ u.hasUsefulPieces) :
    onItsWay false v.reader = true ∨
      ∃ n, owedBy u.reader v.reader (.reader a) = some n ∧ enough false n = true := by
  cases hmove <;> simp_all [onItsWay, owedBy, enough]

/-- INTERNAL: a change of the flags makes a read of them due. -/
theorem due_of_changesFlags {e : WakingEvent} {r : Unit} (h : ChangesFlags sha1 s e)
    (he : wakingStep sha1 s e = some (t, r)) : Due readsFlags t := by
  obtain ⟨t', he', hchanges⟩ := h
  obtain rfl : t' = t := congrArg Prod.fst (Option.some.inj (he'.symm.trans he))
  cases wakingMove he with
  | does hmay hmove =>
    cases hmove with
    | register | handle | elsewhere | pieceActor => simp at hchanges
    | writer hmove => cases hmove <;> simp at hchanges
    | reader hmove => exact due_of_reader hmay (flags_reader hmove hchanges)
    | watchdog hmove => cases hmove <;> simp at hchanges
  | readerNotifies | watchdogNotifies => simp at hchanges
  | looksState | looksBlock | state | block | tick => simp at hchanges

/-- INTERNAL: the active pieces that the reader takes away and the count that it lowers. -/
theorem slot_reader {u v : PeerFsm} {a : ReaderAct} (hmove : ReaderTaskMove sha1 u a v)
    (h : (∃ p, p ∈ u.activeRequests ∧ p ∉ v.activeRequests) ∨
      v.pendingActiveRequestCount < u.pendingActiveRequestCount) :
    onItsWay false v.reader = true ∨
      ∃ n, owedBy u.reader v.reader (.reader a) = some n ∧ enough false n = true := by
  cases hmove <;> simp_all [onItsWay, owedBy, enough]

/-- INTERNAL: the watchdog sees by the number of the active pieces that it took one away. -/
theorem card_retainActive {m : HashMap ℕ PieceRequestManager} {active : List (ℕ × Instant)} {p : ℕ}
    (hp : p ∈ m) (hnot : p ∉ PeerFsm.retainActive m active) :
    (PeerFsm.retainActive m active).keys.card ≠ m.keys.card := by
  have hsubset : (PeerFsm.retainActive m active).keys ⊆ m.keys := by
    intro q hq
    rw [Finmap.mem_keys] at hq ⊢
    rw [← Finmap.lookup_isSome] at hq ⊢
    rw [lookup_retainActive] at hq
    split_ifs at hq with hactive
    · exact hq
    · simp at hq
  have hstrict : (PeerFsm.retainActive m active).keys ⊂ m.keys :=
    Finset.ssubset_iff_subset_ne.mpr ⟨hsubset, fun heq =>
      hnot (Finmap.mem_keys.mp (heq ▸ Finmap.mem_keys.mpr hp))⟩
  exact (Finset.card_lt_card hstrict).ne

/-- INTERNAL: a slot that is freed makes a read of the count due. -/
theorem due_of_freesSlot {e : WakingEvent} {r : Unit} (h : FreesSlot sha1 s e)
    (he : wakingStep sha1 s e = some (t, r)) : Due readsCount t := by
  obtain ⟨t', he', hfrees⟩ := h
  obtain rfl : t' = t := congrArg Prod.fst (Option.some.inj (he'.symm.trans he))
  cases wakingMove he with
  | does hmay hmove =>
    cases hmove with
    | register | handle | elsewhere | pieceActor => simp [isReader] at hfrees
    | writer hmove =>
      obtain ⟨p, hp, hnot⟩ | ⟨hreader, -⟩ := hfrees
      · cases hmove with
        | insertRequest hw => exact absurd (Finmap.mem_insert.mpr (Or.inr hp)) hnot
        | _ => exact absurd hp hnot
      · simp [isReader] at hreader
    | reader hmove => exact due_of_reader hmay (slot_reader hmove (hfrees.imp_right And.right))
    | watchdog hmove =>
      obtain ⟨p, hp, hnot⟩ | ⟨hreader, -⟩ := hfrees
      · cases hmove with
        | tick | storeCount => exact absurd hp hnot
        | prune => exact .watchdog (by simp [WakingFsm.isPrune, card_retainActive hp hnot])
      · simp [isReader] at hreader
  | readerNotifies | watchdogNotifies => simp [isReader] at hfrees
  | looksState | looksBlock | state | block | tick => simp [isReader] at hfrees

/-- INTERNAL: the messages in flight that the reader takes off. -/
theorem window_reader {u v : PeerFsm} {a : ReaderAct} (hmove : ReaderTaskMove sha1 u a v)
    (h : v.inflightMessages < u.inflightMessages) :
    onItsWay true v.reader = true ∨
      ∃ n, owedBy u.reader v.reader (.reader a) = some n ∧ enough true n = true := by
  cases hmove <;> simp_all [onItsWay, owedBy, enough]

/-- INTERNAL: a window that opens makes a read of it due. -/
theorem due_of_freesWindow {e : WakingEvent} {r : Unit} (h : FreesWindow sha1 s e)
    (he : wakingStep sha1 s e = some (t, r)) : Due readsInflight t := by
  obtain ⟨t', he', hreader, hlt⟩ := h
  obtain rfl : t' = t := congrArg Prod.fst (Option.some.inj (he'.symm.trans he))
  cases wakingMove he with
  | does hmay hmove =>
    cases hmove with
    | reader hmove => exact due_of_reader hmay (window_reader hmove hlt)
    | _ => simp [isReader] at hreader
  | _ => simp [isReader] at hreader

/-! ## Nothing is lost -/

/-- The writer sleeps, and nothing but the ticker will wake it before the peer or the watchdog
does something new. -/
structure Quiet (s : WakingFsm) : Prop where
  writer : s.fsm.writer = .waiting
  reader : onItsWay true s.fsm.reader = false
  reader_owes : s.readerOwes = none
  watchdog_owes : s.watchdogOwes = false
  state : s.stateUpdate.pending = false
  block : s.blockAcked.pending = false

/-- INTERNAL: nothing is due then. -/
theorem Quiet.not_due {rd : Reading} (h : Quiet s) : ¬ Due rd s := by
  have hreader : onItsWay rd.inTopOff s.fsm.reader = false := by
    have h := h.reader
    cases hr : s.fsm.reader <;> simp_all [onItsWay]
  intro hdue
  cases hdue with
  | writer hw => simp [h.writer, rd.waiting] at hw
  | reader hr => simp [hreader] at hr
  | owed howes => simp [h.reader_owes] at howes
  | watchdog howes => simp [h.watchdog_owes] at howes
  | state hs => simp [h.state] at hs
  | block hb => simp [h.block] at hb

/-- INTERNAL: what makes a read due is followed by it. -/
theorem followedBy_reads {rd : Reading} {P : WakingFsm → WakingEvent → Prop}
    (hbegins : ∀ s e t r, P s e → wakingStep sha1 s e = some (t, r) → Due rd t)
    {es : List WakingEvent} (hs : OwesAtHead s) (h : run (wakingStep sha1) s es = some t)
    (hquiet : Quiet t) : FollowedBy (wakingStep sha1) P (Reads rd) s es :=
  (pending_or_followedBy OwesAtHead (Due rd) (fun _ _ _ _ => owesAtHead_step)
    (fun s e t r _ => hbegins s e t r) (fun _ _ _ _ => due_step) hs h).resolve_left hquiet.not_due

/-- **No wake-up is lost.** When the writer sleeps and nothing is left to wake it, every change of
the flags was followed by a pass that read them, every slot that was freed by one that read the
count of active pieces, and every message that was taken off the window by a read of the window.
SOURCE: peer_protocol_state_machine.rs:180-210, 223-262, 294-400 -/
theorem no_lost_wake_up (fsm : PeerFsm) {es : List WakingEvent}
    (h : run (wakingStep sha1) (.new fsm) es = some t) (hquiet : Quiet t) :
    FollowedBy (wakingStep sha1) (ChangesFlags sha1) (Reads readsFlags) (.new fsm) es ∧
      FollowedBy (wakingStep sha1) (FreesSlot sha1) (Reads readsCount) (.new fsm) es ∧
      FollowedBy (wakingStep sha1) (FreesWindow sha1) (Reads readsInflight) (.new fsm) es := by
  have hs : OwesAtHead (.new fsm) := by simp [OwesAtHead, WakingFsm.new]
  refine ⟨?_, ?_, ?_⟩
  · exact followedBy_reads (fun _ _ _ _ => due_of_changesFlags) hs h hquiet
  · exact followedBy_reads (fun _ _ _ _ => due_of_freesSlot) hs h hquiet
  · exact followedBy_reads (fun _ _ _ _ => due_of_freesWindow) hs h hquiet

/-- The connection registers, makes its start-up pass and looks; it is unchoked in between, and the
reader notifies the writer, which passes again. -/
def unchokedAsleep : List WakingEvent :=
  [.does .register, .does (.handle .quiet), .does (.writer (.sendBitfield true)),
    .does (.writer .sample), .does (.writer (.sendInterested true)),
    .does (.writer .setInterested), .does (.writer .loadCount), .does (.writer .loadInflight),
    .looks .stateUpdate, .does (.reader (.take .unchoke)), .looks .blockAcked, .readerNotifies,
    .wakes .state, .does (.writer .sample), .does (.writer .loadCount), .does (.handle .quiet),
    .does (.writer .loadInflight), .does (.writer (.pick []))]

/-- The state after that. -/
def unchoked : WakingFsm :=
  (run (wakingStep fun _ => []) (.new fsmStart) unchokedAsleep).get (by decide +kernel)

theorem run_unchokedAsleep :
    run (wakingStep fun _ => []) (.new fsmStart) unchokedAsleep = some unchoked :=
  (Option.some_get _).symm

theorem quiet_unchoked : Quiet unchoked := by
  constructor <;> decide +kernel

/-- The changes up to there. -/
theorem no_lost_wake_up_unchoked :
    FollowedBy (wakingStep fun _ => []) (ChangesFlags fun _ => []) (Reads readsFlags)
        (.new fsmStart) unchokedAsleep ∧
      FollowedBy (wakingStep fun _ => []) (FreesSlot fun _ => []) (Reads readsCount)
        (.new fsmStart) unchokedAsleep ∧
      FollowedBy (wakingStep fun _ => []) (FreesWindow fun _ => []) (Reads readsInflight)
        (.new fsmStart) unchokedAsleep :=
  no_lost_wake_up fsmStart run_unchokedAsleep quiet_unchoked

/-! ## The interest -/

/-- The peer was told of the interest or is about to be. -/
def InterestUnderWay (u : PeerFsm) : Prop :=
  u.amInterested = true ∨
    ∃ isChoked, u.writer = .interesting isChoked ∨ u.writer = .interested isChoked

/-- INTERNAL: what is under way stays so, unless the writer ends. -/
theorem interest_move {u v : PeerFsm} {e : FsmEvent} (hmove : FsmMove sha1 u e v)
    (h : InterestUnderWay u) : InterestUnderWay v ∨ v.writer = .ended := by
  cases hmove with
  | register hw => simp_all [InterestUnderWay]
  | handle =>
    refine Or.inl (h.imp_right ?_)
    rintro ⟨isChoked, hw | hw⟩ <;> simp [hw, WriterTask.receives]
  | elsewhere | pieceActor => exact Or.inl h
  | writer hmove => cases hmove <;> simp_all [InterestUnderWay]
  | reader hmove =>
    unfold InterestUnderWay
    rw [(rest_reader hmove).2.1, (interest_reader hmove).1]
    exact Or.inl h
  | watchdog hmove => cases hmove <;> exact Or.inl h

/-- A flag that is set is followed by the interest. -/
def InterestDue (s : WakingFsm) : Prop :=
  s.fsm.hasUsefulPieces = true → InterestUnderWay s.fsm ∨ Due readsFlags s

/-- INTERNAL: every step keeps the interest under way. -/
theorem interestUnderWay_step {e : WakingEvent} {r : Unit} (h : InterestUnderWay s.fsm)
    (he : wakingStep sha1 s e = some (t, r)) : InterestUnderWay t.fsm ∨ Due readsFlags t := by
  cases wakingMove he with
  | does hmay hmove => exact (interest_move hmove h).imp_right fun hw => .writer (by simp [hw]; rfl)
  | readerNotifies | watchdogNotifies => exact Or.inl (by simpa using h)
  | looksState | looksBlock => exact Or.inl h
  | state | tick => exact Or.inr (.writer rfl)
  | block hw => exact Or.inl (Or.inl (h.resolve_right (by simp [hw])))

/-- INTERNAL: the pass that reads a flag that is set brings the interest under way. -/
theorem interestUnderWay_sample {r : Unit} (huseful : t.fsm.hasUsefulPieces = true)
    (he : wakingStep sha1 s (.does (.writer .sample)) = some (t, r)) : InterestUnderWay t.fsm := by
  cases wakingMove he with
  | does hmay hmove =>
    cases hmove with
    | writer hmove =>
      cases hmove with
      | fails h => simp at h
      | interest => exact Or.inr ⟨_, Or.inl rfl⟩
      | noInterest hw h => exact Or.inl (h.resolve_left (by simpa using huseful))

/-- INTERNAL: every step keeps that a flag that is set is followed by the interest. -/
theorem interestDue_step {e : WakingEvent} {r : Unit} (h : InterestDue s)
    (hs : OwesAtHead s) (he : wakingStep sha1 s e = some (t, r)) : InterestDue t := by
  intro huseful
  by_cases hchanges : ChangesFlags sha1 s e
  · exact Or.inr (due_of_changesFlags hchanges he)
  · have hsame : t.fsm.hasUsefulPieces = s.fsm.hasUsefulPieces := by
      by_contra hne
      exact hchanges ⟨t, he, Or.inr hne⟩
    rcases h (hsame ▸ huseful) with hway | hdue
    · exact interestUnderWay_step hway he
    · rcases due_step hs hdue he with hdue | rfl
      · exact Or.inr hdue
      · exact Or.inl (interestUnderWay_sample huseful he)

/-- `Interested` was sent before `am_interested` was set. -/
def InterestSent (u : PeerFsm) : Prop :=
  u.amInterested = true ∨ (∃ isChoked, u.writer = .interested isChoked) → .interested ∈ u.sent

/-- INTERNAL: every step of the connection keeps that. -/
theorem interestSent_step {u v : PeerFsm} {e : FsmEvent} {r : Unit} (h : InterestSent u)
    (he : fsmStep sha1 u e = some (v, r)) : InterestSent v := by
  intro hv
  cases fsmMove he with
  | register hw => exact h (hv.imp_right (by simp))
  | @handle env sender msg mailbox manager reply hmail =>
    refine h (hv.imp_right ?_)
    rintro ⟨isChoked, hw⟩
    refine ⟨isChoked, ?_⟩
    unfold WriterTask.receives at hw
    split at hw <;> simp_all
  | elsewhere | pieceActor => exact h hv
  | writer hmove => exact interested_writer h hmove hv
  | reader hmove =>
    rw [(rest_reader hmove).2.1, (interest_reader hmove).1] at hv
    rw [(rest_reader hmove).2.2]
    exact h hv
  | watchdog hmove => cases hmove <;> exact h hv

/-- **A writer that sleeps has told the peer of its interest.** When it sleeps, nothing is left to
wake it, and the flag says that the peer has something useful, `Interested` was sent.
SOURCE: peer_protocol_state_machine.rs:112-125, 322-331 -/
theorem interested_when_quiet {torrent : ClientTorrentMetaInfo} {options : PeerOptions}
    {peerId : String} {fsm : PeerFsm} (hfsm : PeerFsm.new torrent options peerId = some fsm)
    {es : List WakingEvent} (h : run (wakingStep sha1) (.new fsm) es = some t) (hquiet : Quiet t)
    (huseful : t.fsm.hasUsefulPieces = true) : .interested ∈ t.fsm.sent := by
  obtain ⟨manager, -, rfl⟩ := fsm_new_eq_some hfsm
  have hkeep (s : WakingFsm) (e : WakingEvent) (t : WakingFsm) (r : Unit)
      (hs : OwesAtHead s ∧ InterestDue s) (he : wakingStep sha1 s e = some (t, r)) :
      OwesAtHead t ∧ InterestDue t :=
    ⟨owesAtHead_step hs.1 he, interestDue_step hs.2 hs.1 he⟩
  have hdue : OwesAtHead t ∧ InterestDue t :=
    run_invariant hkeep ⟨by simp [OwesAtHead, WakingFsm.new], fun _ => Or.inr (.writer rfl)⟩ h
  have hsent : InterestSent t.fsm := by
    refine run_invariant (fun _ _ _ _ => interestSent_step) ?_ (run_of_wakingRun h)
    simp [InterestSent, WakingFsm.new]
  have hway := (hdue.2 huseful).resolve_right hquiet.not_due
  exact hsent (Or.inl (hway.resolve_right (by simp [hquiet.writer])))

/-- The interest in a peer that unchokes. -/
theorem interested_when_quiet_unchoked : .interested ∈ unchoked.fsm.sent :=
  interested_when_quiet new_fsmStart run_unchokedAsleep quiet_unchoked (by decide +kernel)

end Fissure.Analysis
