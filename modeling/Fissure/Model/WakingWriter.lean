import Fissure.Library.Notify
import Fissure.Model.PeerFsm

/-!
# What wakes the writer of a connection

The `select!` of the writer in `protocols/peer_protocol_state_machine.rs` and the two `Notify`s of
`PeerFSMNetworkState` through which the reader and the watchdog wake it. `fsmStep` lets the writer
begin a pass whenever it waits; here it begins one when it finds a notification or the ticker ticks.
A task that has something to notify does so in a step of its own. The writer looks at its
notifications one by one and in any order, and while it waits the others go on. What wakes it
through the watch channel is in `HaveWriter`.
-/

set_option autoImplicit false

namespace Fissure.Model

open Fissure.Library

/-- The `Notify`s of a connection. -/
inductive Notification
  | stateUpdate
  | blockAcked
  deriving DecidableEq

/-- `Wake`, without `Have`. -/
inductive Wake
  | state
  | block
  | tick
  deriving DecidableEq

/-- A connection with its notifications. -/
structure WakingFsm where
  fsm : PeerFsm
  stateUpdate : Notify
  blockAcked : Notify
  /-- the `notify_one` that the reader is about to call -/
  readerOwes : Option Notification
  /-- the watchdog has pruned something and is about to notify the writer -/
  watchdogOwes : Bool

/-- What happens next. -/
inductive WakingEvent
  /-- a step of the connection, other than the writer's waking up -/
  | does (e : FsmEvent)
  | readerNotifies
  | watchdogNotifies
  /-- the writer looks at a notification in `select!` and finds none -/
  | looks (n : Notification)
  | wakes (w : Wake)

/-- What the reader has to notify after a step: it is back at the head of its loop. -/
def owedBy (before after : ReaderTask) (e : FsmEvent) : Option Notification :=
  match before, after with
  | .idle, .idle =>
    match e with
    | .reader (.take .unchoke) | .reader (.take .interested) | .reader (.take .notInterested) =>
      some .stateUpdate
    | _ => none
  | .choking, .idle | .useful _, .idle | .finished _, .idle | .removed _, .idle
  | .hashMatched _ _, .idle => some .stateUpdate
  -- a block that did not complete its piece, or one of a piece that is done
  | .sending _ _ _ _ _, .idle | .asking _ _ _, .idle => some .blockAcked
  | _, _ => none

namespace WakingFsm

/-- The notifications that `state_machine` sets up. -/
def new (fsm : PeerFsm) : WakingFsm := ⟨fsm, .new, .new, none, false⟩

/-- A task that owes a notification does nothing else, and the writer wakes up through `wakes`. -/
def mayDo (s : WakingFsm) : FsmEvent → Bool
  | .reader _ => s.readerOwes.isNone
  | .watchdog _ => !s.watchdogOwes
  | .writer .beginPass | .writer .beginTopOff => false
  | _ => true

/-- The watchdog prunes `active_requests`. -/
def isPrune : FsmEvent → Bool
  | .watchdog .prune => true
  | _ => false

/-- A step of the connection. -/
def does (sha1 : Bytes → Bytes) (s : WakingFsm) (e : FsmEvent) : Option WakingFsm :=
  if s.mayDo e then do
    let (fsm, _) ← fsmStep sha1 s.fsm e
    some { s with
      fsm := fsm
      readerOwes := s.readerOwes.or (owedBy s.fsm.reader fsm.reader e)
      watchdogOwes := s.watchdogOwes ||
        isPrune e && decide (fsm.activeRequests.keys.card ≠ s.fsm.activeRequests.keys.card) }
  else none

/-- `notify_one`. -/
def notifyOne (s : WakingFsm) : Notification → WakingFsm
  | .stateUpdate => { s with stateUpdate := s.stateUpdate.notifyOne }
  | .blockAcked => { s with blockAcked := s.blockAcked.notifyOne }

/-- The reader notifies the writer. -/
def readerNotifies (s : WakingFsm) : Option WakingFsm :=
  s.readerOwes.map fun n => { s.notifyOne n with readerOwes := none }

/-- The watchdog notifies the writer. -/
def watchdogNotifies (s : WakingFsm) : Option WakingFsm :=
  if s.watchdogOwes then some { s.notifyOne .stateUpdate with watchdogOwes := false } else none

/-- The writer looks at a notification and finds none. -/
def looks (s : WakingFsm) (n : Notification) : Option WakingFsm :=
  match n with
  | .stateUpdate =>
    if s.fsm.writer = .waiting ∧ s.stateUpdate.pending = false then
      some { s with stateUpdate := s.stateUpdate.look }
    else none
  | .blockAcked =>
    if s.fsm.writer = .waiting ∧ s.blockAcked.pending = false then
      some { s with blockAcked := s.blockAcked.look }
    else none

/-- The writer wakes up, with a new `notified()` in place of the one that woke it. -/
def wakes (s : WakingFsm) (w : Wake) : Option WakingFsm :=
  match w with
  | .state =>
    if s.stateUpdate.pending then do
      let fsm ← s.fsm.writerStep .beginPass
      some { s with fsm := fsm, stateUpdate := s.stateUpdate.take }
    else none
  | .block =>
    if s.blockAcked.pending then do
      let fsm ← s.fsm.writerStep .beginTopOff
      some { s with fsm := fsm, blockAcked := s.blockAcked.take }
    else none
  | .tick => do
    let fsm ← s.fsm.writerStep .beginPass
    some { s with fsm := fsm }

end WakingFsm

/-- One step of the connection with its notifications. -/
def wakingStep (sha1 : Bytes → Bytes) (s : WakingFsm) (e : WakingEvent) :
    Option (WakingFsm × Unit) :=
  (match e with
  | .does e => s.does sha1 e
  | .readerNotifies => s.readerNotifies
  | .watchdogNotifies => s.watchdogNotifies
  | .looks n => s.looks n
  | .wakes w => s.wakes w).map fun t => (t, ())

end Fissure.Model
