import Fissure.Model.DiskManager
import Fissure.Model.PieceManager
import Fissure.Model.TorrentManager

/-!
# The actors of one torrent together

The manager, the piece actors it spawned, the disk actor and the connections to the peers, as
`protocols/peer_protocol_state_machine.rs` runs them: a connection is a writer that asks for work,
a watchdog that prunes the work it lost and a reader that delivers blocks. `SystemEvent` is what
one task does until it next waits for another one, so the runs of `systemStep` are the orders in
which the tasks can proceed and their messages can be processed. A message that waits in a channel
is part of the state of its sender; only `PieceFinish` is sent without waiting for an answer.

An event that is not possible in a state, and one that stops the manager, gives `none`. A piece
actor that panics is gone, and the rest goes on. So does the disk actor that returned after an
error, or that could not open the files: its channel is closed, and every later flush and read is
answered with a failure.
-/

set_option autoImplicit false

namespace Fissure.Model

open Fissure.Library

/-- Where the reader of a connection stands with the last `Piece` message it took. -/
inductive Reader
  | idle
  /-- `get_piece_manager` is asked for -/
  | asking (pieceIndex blockOffset : ℕ) (data : Bytes)
  /-- `block_recvied` waits for the piece actor; `tracked` when the manager was found in
  `active_requests` -/
  | sending (mgr : PieceRequestManager) (pieceIndex blockOffset : ℕ) (data : Bytes)
      (tracked : Bool)
  /-- `block_recvied` returned true, `PieceFinish` is about to be sent -/
  | hashMatched (pieceIndex : ℕ) (tracked : Bool)
  /-- `PieceFinish` is sent, the piece is about to leave `active_requests` -/
  | finished (pieceIndex : ℕ)

/-- A connection in `state_machine`. -/
structure Connection where
  peerId : String
  activeRequests : HashMap ℕ PieceRequestManager
  /-- the answer to `request_piece` that the writer is about to insert -/
  granted : Option PieceRequestManager
  /-- the answer the watchdog is about to prune by -/
  stillActiveRequests : Option (List (ℕ × Instant))
  reader : Reader

/-- A connection whose tasks have just started. -/
def Connection.new (peerId : String) : Connection := ⟨peerId, ∅, none, none, .idle⟩

/-- The `PieceFinish` arm of the manager while it waits for `flush_piece_to_disk`. -/
structure PieceFinishing where
  index : ℕ
  job : FlushJob
  flushResult : Option Bool

/-- All tasks of one torrent. -/
structure TorrentSystem where
  manager : TorrentManagerActor
  /-- the piece actors by their channel, `none` when they panicked -/
  pieceActors : List (Option PieceRequestManagerActor)
  disk : DiskManagerActor
  /-- the disk actor has returned -/
  diskEnded : Bool
  finishing : Option PieceFinishing
  /-- the `PieceFinish` messages the manager has not taken yet -/
  pieceFinishes : List (String × ℕ)
  connections : List Connection

/-- What one task does next. -/
inductive SystemEvent
  /-- a connection registers with `add_new_peer` and starts its tasks -/
  | connect (peerId : String) (env : Env)
  /-- the manager handles a message other than `PieceFinish` and `GetDataWithLength`, whose answer
  changes no task -/
  | recv (msg : TorrentManagerMessage) (env : Env)
  /-- the manager has a range of a piece read; `io` is what happens at each file -/
  | getDataWithLength (pieceIndex offset length : ℕ) (io : ℕ → IoOutcome) (env : Env)
  /-- the manager answers `request_piece` of a writer -/
  | requestPiece (c : ℕ) (env : Env)
  /-- the writer inserts what it was granted into `active_requests` -/
  | insertRequest (c : ℕ)
  /-- the manager answers `update_and_get_active_request_count` of a watchdog -/
  | countActive (c : ℕ) (env : Env)
  /-- the watchdog prunes `active_requests` -/
  | prune (c : ℕ)
  /-- the reader takes a `Piece` message from its peer -/
  | piece (c pieceIndex blockOffset : ℕ) (data : Bytes)
  /-- the manager answers `get_piece_manager` of a reader -/
  | getPieceManager (c : ℕ) (env : Env)
  /-- a piece actor handles the block a reader sent and answers it -/
  | blockRecived (c : ℕ)
  /-- a reader sends `PieceFinish` -/
  | pieceFinish (c : ℕ)
  /-- a reader removes the finished piece from `active_requests` -/
  | removeRequest (c : ℕ)
  /-- a piece actor handles another message or ticks -/
  | pieceActor (send : ℕ) (e : PieceEvent)
  /-- the manager takes the `PieceFinish` at position `k` and handles it up to the flush -/
  | pieceFinishBegin (k : ℕ)
  /-- the disk actor does one round of the flush, or has returned before -/
  | flushRound (io : IoOutcome)
  /-- the manager has the result of the flush and ends the `PieceFinish` arm -/
  | pieceFinishEnd

namespace TorrentSystem

/-- `DiskManager::new`: the disk actor, and whether it returned because a file could not be
opened. -/
def startDisk (fileSystem : FileSystem) (downloadPath : PathBuf) (files : List LocalFile)
    (stdPieceLen : ℕ) : DiskManagerActor × Bool :=
  match DiskManagerActor.new fileSystem downloadPath files stdPieceLen with
  | some disk => (disk, false)
  | none => (⟨stdPieceLen, [], [], fileSystem.content, rfl⟩, true)

/-- `TorrentManager::new`: the manager and the disk actor start, without any connection. -/
def new (torrent : ClientTorrentMetaInfo) (peerOptions : PeerOptions) (fileSystem : FileSystem)
    (downloadPath : PathBuf) : Option TorrentSystem := do
  let manager ← TorrentManagerActor.new torrent peerOptions
  let (disk, diskEnded) := startDisk fileSystem downloadPath torrent.files
    torrent.rawTorrent.getStandardPieceLen
  some ⟨manager, [], disk, diskEnded, none, [], []⟩

/-- The piece actor behind a channel, if it lives. -/
def pieceActor (s : TorrentSystem) (send : ℕ) : Option PieceRequestManagerActor :=
  (s.pieceActors[send]?).join

/-- The piece actors after an answer of the manager: one that made a new `PieceRequestManager`
spawned its actor. -/
def spawned (s : TorrentSystem) (reply : TorrentManagerReply) :
    List (Option PieceRequestManagerActor) :=
  match reply with
  | .work (some mgr) =>
    if mgr.send = s.pieceActors.length then
      s.pieceActors ++ [some (.new mgr.pieceLength mgr.sha1Hash
        s.manager.peerOptions.blockRequestTimeout)]
    else s.pieceActors
  | _ => s.pieceActors

/-- The manager handles a message, unless it waits for a flush. -/
def handle (s : TorrentSystem) (msg : TorrentManagerMessage) (env : Env) :
    Option (TorrentSystem × TorrentManagerReply) :=
  if s.finishing.isSome then none
  else do
    let (manager, reply) ← managerStep s.manager (msg, { env with fresh := s.pieceActors.length })
    some ({ s with manager := manager, pieceActors := s.spawned reply }, reply)

/-- Connection `c` becomes `conn`. -/
def setConnection (s : TorrentSystem) (c : ℕ) (conn : Connection) : TorrentSystem :=
  { s with connections := s.connections.set c conn }

/-- What a message other than `PieceFinish` and `GetDataWithLength` leads to. -/
def recv (s : TorrentSystem) (msg : TorrentManagerMessage) (env : Env) : Option TorrentSystem :=
  match msg with
  | .pieceFinish _ _ | .getDataWithLength _ _ _ => none
  | _ => (s.handle msg env).map Prod.fst

/-- `DiskManager::get_data_with_length`. -/
def dataOnDisk (s : TorrentSystem) (io : ℕ → IoOutcome) (pieceIndex offset length : ℕ) :
    Option Bytes :=
  if s.diskEnded then none else s.disk.getDataWithLength pieceIndex offset length io

/-- The manager has a range of a piece read. After a read that fails the disk actor returns. -/
def getDataWithLength (s : TorrentSystem) (pieceIndex offset length : ℕ) (io : ℕ → IoOutcome)
    (env : Env) : Option (TorrentSystem × TorrentManagerReply) := do
  let (t, reply) ← s.handle (.getDataWithLength pieceIndex offset length)
    { env with diskData := s.dataOnDisk io }
  match reply with
  | .data none => some ({ t with diskEnded := true }, reply)
  | _ => some (t, reply)

/-- The start of `state_machine`. -/
def connect (s : TorrentSystem) (peerId : String) (env : Env) : Option TorrentSystem := do
  let (s, _) ← s.handle (.addPeer peerId []) env
  some { s with connections := s.connections ++ [Connection.new peerId] }

/-- `request_piece` in `run_full_pass`, up to the answer. -/
def requestPiece (s : TorrentSystem) (c : ℕ) (env : Env) : Option TorrentSystem := do
  let conn ← s.connections[c]?
  if conn.granted.isSome then none
  else
    let (s, reply) ← s.handle (.requestWork conn.peerId) env
    match reply with
    | .work (some req) => some (s.setConnection c { conn with granted := some req })
    | _ => some s

/-- The rest of that step of `run_full_pass`. -/
def insertRequest (s : TorrentSystem) (c : ℕ) : Option TorrentSystem := do
  let conn ← s.connections[c]?
  let req ← conn.granted
  some (s.setConnection c { conn with
    activeRequests := conn.activeRequests.insert req.index req
    granted := none })

/-- A tick of the watchdog, up to the answer. -/
def countActive (s : TorrentSystem) (c : ℕ) (env : Env) : Option TorrentSystem := do
  let conn ← s.connections[c]?
  if conn.stillActiveRequests.isSome then none
  else
    let (s, reply) ← s.handle (.updateAndGetActiveRequestCount conn.peerId) env
    match reply with
    | .activeWork work => some (s.setConnection c { conn with stillActiveRequests := work })
    | _ => some s

/-- The rest of a tick of the watchdog. -/
def prune (s : TorrentSystem) (c : ℕ) : Option TorrentSystem := do
  let conn ← s.connections[c]?
  let stillActive ← conn.stillActiveRequests
  some (s.setConnection c { conn with
    activeRequests := conn.activeRequests.filterMapVals fun k req =>
      if stillActive.any fun t => t.1 == k then some req else none
    stillActiveRequests := none })

/-- A `Piece` message: the reader looks the piece up in `active_requests`. -/
def piece (s : TorrentSystem) (c pieceIndex blockOffset : ℕ) (data : Bytes) :
    Option TorrentSystem := do
  let conn ← s.connections[c]?
  match conn.reader with
  | .idle =>
    let reader := match conn.activeRequests.lookup pieceIndex with
      | some mgr => Reader.sending mgr pieceIndex blockOffset data true
      | none => .asking pieceIndex blockOffset data
    some (s.setConnection c { conn with reader := reader })
  | _ => none

/-- The manager of a piece that the connection does not track. -/
def getPieceManager (s : TorrentSystem) (c : ℕ) (env : Env) : Option TorrentSystem := do
  let conn ← s.connections[c]?
  match conn.reader with
  | .asking pieceIndex blockOffset data =>
    let (s, reply) ← s.handle (.getPieceManager pieceIndex) env
    let reader := match reply with
      | .manager (some mgr) => Reader.sending mgr pieceIndex blockOffset data false
      | _ => .idle
    some (s.setConnection c { conn with reader := reader })
  | _ => none

/-- The piece actor `a` handles a block: what becomes of it, and what the reader does after
`block_recvied`. A panic drops the sender, which reads as false. -/
def afterBlock (sha1 : Bytes → Bytes) (a : PieceRequestManagerActor) (pieceIndex blockOffset : ℕ)
    (data : Bytes) (tracked : Bool) : Option PieceRequestManagerActor × Reader :=
  match a.blockRecived sha1 blockOffset data with
  | some (a, .verified) => (some a, .hashMatched pieceIndex tracked)
  | some (a, _) => (some a, .idle)
  | none => (none, .idle)

/-- A block that a reader sent arrives at its piece actor. -/
def blockRecived (sha1 : Bytes → Bytes) (s : TorrentSystem) (c : ℕ) : Option TorrentSystem := do
  let conn ← s.connections[c]?
  match conn.reader with
  | .sending mgr pieceIndex blockOffset data tracked =>
    match s.pieceActor mgr.send with
    | some a =>
      let (a, reader) := afterBlock sha1 a pieceIndex blockOffset data tracked
      some ({ s with pieceActors := s.pieceActors.set mgr.send a }.setConnection c
        { conn with reader := reader })
    | none => some (s.setConnection c { conn with reader := .idle })
  | _ => none

/-- `piece_finish` of a reader. -/
def pieceFinish (s : TorrentSystem) (c : ℕ) : Option TorrentSystem := do
  let conn ← s.connections[c]?
  match conn.reader with
  | .hashMatched pieceIndex tracked =>
    let reader := if tracked then Reader.finished pieceIndex else .idle
    some ({ s with pieceFinishes := s.pieceFinishes ++ [(conn.peerId, pieceIndex)] }.setConnection c
      { conn with reader := reader })
  | _ => none

/-- A reader frees the slot of the piece it finished. -/
def removeRequest (s : TorrentSystem) (c : ℕ) : Option TorrentSystem := do
  let conn ← s.connections[c]?
  match conn.reader with
  | .finished pieceIndex =>
    some (s.setConnection c { conn with
      activeRequests := conn.activeRequests.erase pieceIndex
      reader := .idle })
  | _ => none

/-- A piece actor handles a message that is not a block, or ticks. -/
def pieceEvent (sha1 : Bytes → Bytes) (s : TorrentSystem) (send : ℕ) (e : PieceEvent) :
    Option TorrentSystem :=
  match e with
  | .recv (.blockRecived _ _) _ => none
  | _ => do
    let a ← s.pieceActor send
    let (a, _) ← pieceStep sha1 a e
    some { s with pieceActors := s.pieceActors.set send (some a) }

/-- The `PieceFinish` arm of the manager up to the flush. -/
def pieceFinishBegin (s : TorrentSystem) (k : ℕ) : Option TorrentSystem :=
  if s.finishing.isSome then none
  else do
    let (_, index) ← s.pieceFinishes[k]?
    let (manager, lastPieceManager) ← s.manager.pieceFinishBegin index
    some { s with
      manager := manager
      pieceFinishes := s.pieceFinishes.eraseIdx k
      finishing := lastPieceManager.map fun mgr => ⟨index, .begin mgr, none⟩ }

/-- What `get_data_with_offset` returns: the answer of the actor, nothing when it is gone. -/
def getDataWithOffset (s : TorrentSystem) (mgr : PieceRequestManager) (start stop : ℕ) : Bytes :=
  match s.pieceActor mgr.send with
  | some a => a.getData start stop
  | none => []

/-- One round of the flush that the manager waits for. -/
def flushRound (s : TorrentSystem) (io : IoOutcome) : Option TorrentSystem :=
  match s.finishing with
  | some ⟨index, job, none⟩ =>
    if s.diskEnded then some { s with finishing := some ⟨index, job, some false⟩ }
    else
      match s.disk.flushRound job (s.getDataWithOffset job.pieceManager) io with
      | .next (disk, job) => some { s with disk := disk, finishing := some ⟨index, job, none⟩ }
      | .reply r => some { s with finishing := some ⟨index, job, some r⟩ }
      | .failed (disk, job) =>
        some { s with
          disk := disk
          diskEnded := true
          finishing := some ⟨index, job, some false⟩ }
  | _ => none

/-- The `PieceFinish` arm of the manager after the flush. -/
def pieceFinishEnd (s : TorrentSystem) : Option TorrentSystem :=
  match s.finishing with
  | some ⟨index, job, some flushResult⟩ =>
    some { s with
      manager := s.manager.pieceFinishEnd index job.pieceManager.pieceLength flushResult
      finishing := none }
  | _ => none

end TorrentSystem

open TorrentSystem in
/-- One step of the system. -/
def systemStep (sha1 : Bytes → Bytes) (s : TorrentSystem) (e : SystemEvent) :
    Option (TorrentSystem × Unit) :=
  (match e with
  | .connect peerId env => s.connect peerId env
  | .recv msg env => s.recv msg env
  | .getDataWithLength pieceIndex offset length io env =>
    (s.getDataWithLength pieceIndex offset length io env).map Prod.fst
  | .requestPiece c env => s.requestPiece c env
  | .insertRequest c => s.insertRequest c
  | .countActive c env => s.countActive c env
  | .prune c => s.prune c
  | .piece c pieceIndex blockOffset data => s.piece c pieceIndex blockOffset data
  | .getPieceManager c env => s.getPieceManager c env
  | .blockRecived c => s.blockRecived sha1 c
  | .pieceFinish c => s.pieceFinish c
  | .removeRequest c => s.removeRequest c
  | .pieceActor send e => s.pieceEvent sha1 send e
  | .pieceFinishBegin k => s.pieceFinishBegin k
  | .flushRound io => s.flushRound io
  | .pieceFinishEnd => s.pieceFinishEnd).map fun t => (t, ())

end Fissure.Model
