import Fissure.Model.PeerHandshake
import Fissure.Model.TorrentManager

/-!
# The connections of one torrent and their manager

`state_machine` in `protocols/peer_protocol_state_machine.rs`, as far as the manager sees it. A
connection passes the handshake, registers under the peer id it got there and starts a writer, a
reader and a watchdog, each of which sends messages of its own kinds. When the writer or the
reader ends, the watchdog is aborted; the other one of the two goes on until it ends by itself.
The manager hears nothing of either.

A message counts as sent when the manager handles it, so a task that ends here has ended and has
no message left in the channel. A message that the manager does not survive gives `none`.
-/

set_option autoImplicit false

namespace Fissure.Model

/-- A connection in `state_machine`: the peer id it registered under, and which of its tasks
run. -/
structure StateMachine where
  peerId : String
  writer : Bool
  reader : Bool
  watchdog : Bool
  deriving DecidableEq

/-- Whether any task of the connection runs. -/
def StateMachine.isOpen (conn : StateMachine) : Bool := conn.writer || conn.reader || conn.watchdog

/-- What the tasks of a connection send to the manager. -/
inductive TaskMessage
  | requestPiece
  | getHaveMessageProgress (since : ℕ)
  | updateBitfield (pieceIndex : ℕ)
  | addBitfield (bitVec : Bitfield)
  | hasUsefulPieces
  | pieceFinish (pieceIndex : ℕ)
  | getPieceManager (pieceIndex : ℕ)
  | updateAndGetActiveRequestCount

/-- Whether the task that sends the message runs. -/
def StateMachine.sends (conn : StateMachine) : TaskMessage → Bool
  | .requestPiece | .getHaveMessageProgress _ => conn.writer
  | .updateBitfield _ | .addBitfield _ | .hasUsefulPieces | .pieceFinish _
  | .getPieceManager _ => conn.reader
  | .updateAndGetActiveRequestCount => conn.watchdog

/-- The message as the manager gets it. -/
def TaskMessage.toManager (peerId : String) : TaskMessage → TorrentManagerMessage
  | .requestPiece => .requestWork peerId
  | .getHaveMessageProgress since => .getHaveMessageProgress since
  | .updateBitfield pieceIndex => .updateBitField peerId pieceIndex
  | .addBitfield bitVec => .addBitFeild peerId bitVec
  | .hasUsefulPieces => .hasUsefulPieces peerId
  | .pieceFinish pieceIndex => .pieceFinish peerId pieceIndex
  | .getPieceManager pieceIndex => .getPieceManager pieceIndex
  | .updateAndGetActiveRequestCount => .updateAndGetActiveRequestCount peerId

/-- What others than the connections ask the manager. -/
inductive ClientMessage
  | getTorrentStats
  | getActivePeers
  | getDataWithLength (pieceIndex offset length : ℕ)

/-- The message as the manager gets it. -/
def ClientMessage.toManager : ClientMessage → TorrentManagerMessage
  | .getTorrentStats => .getTorrentStats
  | .getActivePeers => .getActivePeers
  | .getDataWithLength pieceIndex offset length => .getDataWithLength pieceIndex offset length

/-- The manager of a torrent and all connections there ever were. -/
structure Swarm where
  manager : TorrentManagerActor
  connections : List StateMachine

/-- What happens next. -/
inductive SwarmEvent
  /-- a remote side sends its handshake, and a connection that comes of it registers -/
  | handshake (received : Bytes) (env : Env)
  /-- the manager handles a message of connection `c` -/
  | message (c : ℕ) (msg : TaskMessage) (env : Env)
  | writerEnds (c : ℕ)
  | readerEnds (c : ℕ)
  /-- the manager handles a message from elsewhere -/
  | client (msg : ClientMessage) (env : Env)

namespace Swarm

/-- `TorrentManager::new`: the manager starts, without any connection. -/
def new (torrent : ClientTorrentMetaInfo) (peerOptions : PeerOptions) : Option Swarm :=
  (TorrentManagerActor.new torrent peerOptions).map fun manager => ⟨manager, []⟩

/-- The manager handles a message. -/
def handle (s : Swarm) (msg : TorrentManagerMessage) (env : Env) :
    Option (Swarm × TorrentManagerReply) :=
  (managerStep s.manager (msg, env)).map fun (manager, reply) => ({ s with manager }, reply)

/-- The start of `state_machine`. -/
def handshake (s : Swarm) (received : Bytes) (env : Env) :
    Option (Swarm × TorrentManagerReply) := do
  let peerId ← peerConnectionFromPeerMeta received
  let (s, reply) ← s.handle (.addPeer peerId []) env
  some ({ s with connections := s.connections ++ [⟨peerId, true, true, true⟩] }, reply)

/-- A message of a task that runs. -/
def message (s : Swarm) (c : ℕ) (msg : TaskMessage) (env : Env) :
    Option (Swarm × TorrentManagerReply) := do
  let conn ← s.connections[c]?
  if conn.sends msg then s.handle (msg.toManager conn.peerId) env else none

/-- The writer of connection `c` ends, and with it the watchdog. -/
def writerEnds (s : Swarm) (c : ℕ) : Option Swarm := do
  let conn ← s.connections[c]?
  let ended := { conn with writer := false, watchdog := false }
  some { s with connections := s.connections.set c ended }

/-- The reader of connection `c` ends, and with it the watchdog. -/
def readerEnds (s : Swarm) (c : ℕ) : Option Swarm := do
  let conn ← s.connections[c]?
  let ended := { conn with reader := false, watchdog := false }
  some { s with connections := s.connections.set c ended }

end Swarm

/-- One step of the manager and the connections. -/
def swarmStep (s : Swarm) : SwarmEvent → Option (Swarm × TorrentManagerReply)
  | .handshake received env => s.handshake received env
  | .message c msg env => s.message c msg env
  | .writerEnds c => (s.writerEnds c).map fun s => (s, .none)
  | .readerEnds c => (s.readerEnds c).map fun s => (s, .none)
  | .client msg env => s.handle msg.toManager env

end Fissure.Model
