import Fissure.Model.PeerMessages
import Fissure.Model.TorrentManager

/-!
# How a connection announces pieces

The writer task in `protocols/peer_protocol_state_machine.rs`, as far as it tells the peer which
pieces there are. The answer to its registration is a copy of the local bitfield, which it sends
first. From then on it is woken through a watch channel whose value is the length of the manager's
log, asks the manager for the part of the log that it has not seen and sends a `Have` for each
entry. One event is what it does until it next waits or reads something shared.

The channel notifies when its value changes, and the manager only ever makes it larger, so which
value was seen last says whether there is an unseen notification. The receiver is a copy of one
that has never been read.
-/

set_option autoImplicit false

namespace Fissure.Model

/-- Where the writer stands. -/
inductive WriterPhase
  | unregistered
  /-- the task has the answer to `add_new_peer` -/
  | starting (localBitfield : Bitfield)
  /-- the `Bitfield` is sent -/
  | looking
  /-- in a pass, or in `select!` -/
  | waiting (lastSeen : ℕ)
  /-- `changed` has returned -/
  | woken (lastSeen : ℕ)
  /-- `get_have_message_progress` is asked for -/
  | asking (lastSeen currentLen : ℕ)
  /-- the loop over `new_pieces` -/
  | announcing (currentLen : ℕ) (newPieces : List ℕ)
  | ended
  deriving DecidableEq

/-- The manager and the writer of one connection. -/
structure HaveWriter where
  manager : TorrentManagerActor
  phase : WriterPhase
  /-- the last value of the watch channel that the receiver has seen -/
  seen : ℕ
  /-- the `Bitfield` and `Have` messages that the writer has sent -/
  sent : List PeerMessage

/-- What happens next. A message to the peer can fail. -/
inductive WriterEvent
  /-- the manager handles a message from elsewhere -/
  | recv (msg : TorrentManagerMessage) (env : Env)
  | register (peerId : String) (env : Env)
  | sendBitfield (ok : Bool)
  | look
  | wake
  | readLen
  /-- the manager answers `get_have_message_progress` -/
  | askProgress (env : Env)
  | sendHave (ok : Bool)
  | storeLastSeen
  /-- the writer ends for another reason -/
  | ends

namespace HaveWriter

/-- `TorrentManager::new`, before the connection registers. -/
def new (torrent : ClientTorrentMetaInfo) (peerOptions : PeerOptions) : Option HaveWriter :=
  (TorrentManagerActor.new torrent peerOptions).map fun manager => ⟨manager, .unregistered, 0, []⟩

/-- A message from elsewhere. -/
def recv (s : HaveWriter) (msg : TorrentManagerMessage) (env : Env) : Option HaveWriter := do
  let (manager, _) ← managerStep s.manager (msg, env)
  some { s with manager }

/-- `add_new_peer`. -/
def register (s : HaveWriter) (peerId : String) (env : Env) : Option HaveWriter :=
  match s.phase with
  | .unregistered => do
    let (manager, reply) ← managerStep s.manager (.addPeer peerId [], env)
    match reply with
    | .bitfield localBitfield => some { s with manager, phase := .starting localBitfield }
    | _ => none
  | _ => none

/-- The first message. The task panics when it cannot be sent. -/
def sendBitfield (s : HaveWriter) (ok : Bool) : Option HaveWriter :=
  match s.phase with
  | .starting localBitfield =>
    if ok then some { s with phase := .looking, sent := s.sent ++ [.bitfield localBitfield] }
    else some { s with phase := .ended }
  | _ => none

/-- The first `borrow_and_update`. -/
def look (s : HaveWriter) : Option HaveWriter :=
  match s.phase with
  | .looking => some { s with
      phase := .waiting s.manager.peerNotifier
      seen := s.manager.peerNotifier }
  | _ => none

/-- `changed` returns when there is an unseen notification, and marks it as seen. -/
def wake (s : HaveWriter) : Option HaveWriter :=
  match s.phase with
  | .waiting lastSeen =>
    if s.seen = s.manager.peerNotifier then none
    else some { s with phase := .woken lastSeen, seen := s.manager.peerNotifier }
  | _ => none

/-- The `borrow_and_update` of the branch for `Wake::Have`. -/
def readLen (s : HaveWriter) : Option HaveWriter :=
  match s.phase with
  | .woken lastSeen => some { s with
      phase := .asking lastSeen s.manager.peerNotifier
      seen := s.manager.peerNotifier }
  | _ => none

/-- `get_have_message_progress`. -/
def askProgress (s : HaveWriter) (env : Env) : Option HaveWriter :=
  match s.phase with
  | .asking lastSeen currentLen => do
    let (manager, reply) ← managerStep s.manager (.getHaveMessageProgress lastSeen, env)
    match reply with
    | .progress newPieces => some { s with manager, phase := .announcing currentLen newPieces }
    | _ => none
  | _ => none

/-- The next `Have`. The task returns when it cannot be sent. -/
def sendHave (s : HaveWriter) (ok : Bool) : Option HaveWriter :=
  match s.phase with
  | .announcing currentLen (pieceIndex :: newPieces) =>
    if ok then some { s with
      phase := .announcing currentLen newPieces
      sent := s.sent ++ [.have pieceIndex] }
    else some { s with phase := .ended }
  | _ => none

/-- The end of the branch. -/
def storeLastSeen (s : HaveWriter) : Option HaveWriter :=
  match s.phase with
  | .announcing currentLen [] => some { s with phase := .waiting currentLen }
  | _ => none

end HaveWriter

/-- One step of the manager and the writer. -/
def writerStep (s : HaveWriter) (e : WriterEvent) : Option (HaveWriter × Unit) :=
  (match e with
  | .recv msg env => s.recv msg env
  | .register peerId env => s.register peerId env
  | .sendBitfield ok => s.sendBitfield ok
  | .look => s.look
  | .wake => s.wake
  | .readLen => s.readLen
  | .askProgress env => s.askProgress env
  | .sendHave ok => s.sendHave ok
  | .storeLastSeen => s.storeLastSeen
  | .ends => some { s with phase := .ended }).map fun t => (t, ())

/-! ## All connections -/

/-- What one writer keeps for itself. -/
structure WriterState where
  phase : WriterPhase
  seen : ℕ
  sent : List PeerMessage

/-- The manager and the writers of all connections. -/
structure HaveWriters where
  manager : TorrentManagerActor
  writers : List WriterState

/-- What happens next. -/
inductive WritersEvent
  /-- a connection starts; its writer registers when it is its turn -/
  | connect
  /-- the manager handles a message of a reader, a watchdog or a pass -/
  | recv (msg : TorrentManagerMessage) (env : Env)
  /-- the writer of connection `c` does its next step -/
  | writer (c : ℕ) (e : WriterEvent)

namespace HaveWriters

/-- `TorrentManager::new`, before any connection. -/
def new (torrent : ClientTorrentMetaInfo) (peerOptions : PeerOptions) : Option HaveWriters :=
  (TorrentManagerActor.new torrent peerOptions).map fun manager => ⟨manager, []⟩

/-- The manager and one writer. -/
def view (s : HaveWriters) (w : WriterState) : HaveWriter := ⟨s.manager, w.phase, w.seen, w.sent⟩

/-- A connection starts. -/
def connect (s : HaveWriters) : HaveWriters :=
  { s with writers := s.writers ++ [⟨.unregistered, 0, []⟩] }

/-- The manager handles a message. -/
def recv (s : HaveWriters) (msg : TorrentManagerMessage) (env : Env) : Option HaveWriters := do
  let (manager, _) ← managerStep s.manager (msg, env)
  some { s with manager }

/-- A step of one writer. The messages from elsewhere are not among them. -/
def writer (s : HaveWriters) (c : ℕ) (e : WriterEvent) : Option HaveWriters :=
  match e with
  | .recv _ _ => none
  | _ => do
    let w ← s.writers[c]?
    let (t, _) ← writerStep (s.view w) e
    some ⟨t.manager, s.writers.set c ⟨t.phase, t.seen, t.sent⟩⟩

end HaveWriters

/-- One step of the manager and the writers. -/
def writersStep (s : HaveWriters) (e : WritersEvent) : Option (HaveWriters × Unit) :=
  (match e with
  | .connect => some s.connect
  | .recv msg env => s.recv msg env
  | .writer c e => s.writer c e).map fun t => (t, ())

end Fissure.Model
