import Fissure.Model.PeerMessages
import Fissure.Model.PieceManager
import Fissure.Model.TorrentManager

/-!
# One connection

`state_machine` in `protocols/peer_protocol_state_machine.rs`: the writer, the reader and the
watchdog of one connection, the state that they share, the manager with its mailbox and the piece
actors. One event is what one of them does until it next waits or touches something shared, so the
runs of `fsmStep` are the orders in which they can proceed. Everything that other connections do is
a message to the manager or to a piece actor from elsewhere.

The writer wakes up on notifications and every two seconds; here it may wake whenever it waits. What
it does when it is woken by the watch channel is in `HaveWriter`. A task that has ended or was
aborted takes no more steps. The manager handles its messages in the order in which they were sent,
and a message that it does not survive gives `none`.
-/

set_option autoImplicit false

namespace Fissure.Model

open Fissure.Library

/-- One run of `top_off_inflight_window`: called by `run_full_pass` or by `run_window_topoff`, with
the sample of the choke flag and, in a full pass, whether there was progress before. -/
structure TopOff where
  full : Bool
  isChoked : Bool
  madeProgress : Bool
  deriving DecidableEq

/-- Where the writer stands. -/
inductive WriterTask
  | unregistered
  /-- `add_new_peer` is asked for -/
  | registering
  /-- the `Bitfield` is about to be sent -/
  | starting (localBitfield : Bitfield)
  /-- in `select!` -/
  | waiting
  /-- at the head of the loop in `run_full_pass` -/
  | passing
  /-- `Interested` is about to be sent -/
  | interesting (isChoked : Bool)
  /-- `Interested` is sent, `am_interested` is about to be set -/
  | interested (isChoked : Bool)
  /-- the count of active pieces is about to be read -/
  | counting (isChoked : Bool)
  /-- `request_piece` is asked for -/
  | requesting (isChoked : Bool)
  /-- the answer is about to be inserted into `active_requests` -/
  | granted (isChoked : Bool) (req : PieceRequestManager)
  /-- the count of active pieces is about to be raised for it -/
  | inserted (isChoked : Bool) (req : PieceRequestManager)
  /-- the count of messages in flight is about to be read -/
  | toppingOff (pass : TopOff)
  /-- `active_requests` is about to be read -/
  | picking (pass : TopOff) (availableWindow : ℕ)
  /-- `request_block` of the first candidate is asked for -/
  | trying (pass : TopOff) (availableWindow : ℕ) (candidates : List PieceRequestManager)
  /-- the first of the `Request`s is about to be sent -/
  | sending (pass : TopOff) (c : PieceRequestManager) (reqPieces : List (ℕ × ℕ))
  /-- a `Request` is sent, the count of messages in flight is about to be raised for it -/
  | sent (pass : TopOff) (c : PieceRequestManager) (reqPieces : List (ℕ × ℕ))
  | ended
  deriving DecidableEq

/-- Where the reader stands. -/
inductive ReaderTask
  | unstarted
  /-- waiting for the next message of the peer -/
  | idle
  /-- `peer_choking` is set, the count of messages in flight is about to be reset -/
  | choking
  /-- the bitfield is sent to the manager; `has_useful_pieces` is about to be asked for, by
  `add_bitfield` and then `again` -/
  | recorded (again : Bool)
  | askingUseful (again : Bool)
  /-- `has_useful_pieces` is about to be set -/
  | useful (hasUseful : Bool)
  /-- the piece is about to be looked up in `active_requests` -/
  | locating (pieceIndex blockOffset : ℕ) (data : Bytes)
  /-- `get_piece_manager` is asked for -/
  | asking (pieceIndex blockOffset : ℕ) (data : Bytes)
  /-- `block_recvied` is asked for; `tracked` when the manager was in `active_requests` -/
  | sending (mgr : PieceRequestManager) (pieceIndex blockOffset : ℕ) (data : Bytes)
      (tracked : Bool)
  /-- `block_recvied` returned true, `PieceFinish` is about to be sent -/
  | hashMatched (pieceIndex : ℕ) (tracked : Bool)
  /-- `PieceFinish` is sent, the piece is about to leave `active_requests` -/
  | finished (pieceIndex : ℕ)
  /-- the count of active pieces is about to be lowered -/
  | removed (pieceIndex : ℕ)
  | ended
  deriving DecidableEq

/-- Where the watchdog stands. -/
inductive WatchdogTask
  | unstarted
  | sleeping
  /-- `update_and_get_active_request_count` is asked for -/
  | asking
  /-- the count of active pieces is about to be stored -/
  | answered (stillActiveRequests : List (ℕ × Instant))
  /-- `active_requests` is about to be pruned -/
  | pruning (stillActiveRequests : List (ℕ × Instant))
  | ended
  deriving DecidableEq

/-- Who waits for the answer to a message to the manager. -/
inductive Sender
  | connection
  | writer
  | reader
  | watchdog
  | elsewhere
  deriving DecidableEq

/-- A message in the manager's channel. -/
structure Mail where
  sender : Sender
  msg : TorrentManagerMessage
  deriving DecidableEq

/-! ## Answers and returns -/

/-- The writer gets an answer of the manager. -/
def WriterTask.receives (task : WriterTask) (sender : Sender) (reply : TorrentManagerReply) :
    WriterTask :=
  match task, sender, reply with
  | .registering, .connection, .bitfield localBitfield => .starting localBitfield
  | .requesting isChoked, .writer, .work (some req) => .granted isChoked req
  | .requesting isChoked, .writer, .work none => .toppingOff ⟨true, isChoked, false⟩
  | task, _, _ => task

/-- The reader gets an answer of the manager; it starts when the connection is registered. -/
def ReaderTask.receives (task : ReaderTask) (sender : Sender) (reply : TorrentManagerReply) :
    ReaderTask :=
  match task, sender, reply with
  | .unstarted, .connection, .bitfield _ => .idle
  | .askingUseful false, .reader, .useful _ => .recorded true
  | .askingUseful true, .reader, .useful hasUseful => .useful hasUseful
  | .asking pieceIndex blockOffset data, .reader, .manager (some mgr) =>
    .sending mgr pieceIndex blockOffset data false
  | .asking _ _ _, .reader, .manager none => .idle
  | task, _, _ => task

/-- The watchdog gets an answer of the manager; it starts when the connection is registered. -/
def WatchdogTask.receives (task : WatchdogTask) (sender : Sender) (reply : TorrentManagerReply) :
    WatchdogTask :=
  match task, sender, reply with
  | .unstarted, .connection, .bitfield _ => .sleeping
  | .asking, .watchdog, .activeWork (some active) => .answered active
  | .asking, .watchdog, .activeWork none => .ended
  | task, _, _ => task

/-- `top_off_inflight_window` returns `Some(progressed)`. -/
def TopOff.returns (pass : TopOff) (progressed : Bool) : WriterTask :=
  if pass.full then if pass.madeProgress || progressed then .passing else .waiting
  else if progressed then .toppingOff pass else .waiting

/-- The loop over the candidates goes on with those that are left. -/
def TopOff.tryNext (pass : TopOff) (availableWindow : ℕ) (candidates : List PieceRequestManager) :
    WriterTask :=
  match candidates with
  | [] => pass.returns false
  | _ :: _ => .trying pass availableWindow candidates

/-- The loop over the blocks of a candidate goes on with those that are left. -/
def TopOff.sendNext (pass : TopOff) (c : PieceRequestManager) (reqPieces : List (ℕ × ℕ)) :
    WriterTask :=
  match reqPieces with
  | [] => pass.returns true
  | _ :: _ => .sending pass c reqPieces

/-! ## The connection -/

/-- The tasks of one connection with what they share, the manager and the piece actors. -/
structure PeerFsm where
  manager : TorrentManagerActor
  mailbox : List Mail
  /-- the piece actors by their channel, `none` when they panicked -/
  pieceActors : List (Option PieceRequestManagerActor)
  peerId : String
  -- `PeerState`
  peerChoking : Bool
  peerInterested : Bool
  amInterested : Bool
  hasUsefulPieces : Bool
  -- `PeerFSMNetworkState`
  pendingActiveRequestCount : ℕ
  inflightMessages : ℕ
  activeRequests : HashMap ℕ PieceRequestManager
  writer : WriterTask
  reader : ReaderTask
  watchdog : WatchdogTask
  /-- the messages that the writer has sent to the peer -/
  sent : List PeerMessage

/-- What the writer does next. A message to the peer can fail. -/
inductive WriterAct
  | sendBitfield (ok : Bool)
  | beginPass
  | beginTopOff
  | sample
  | sendInterested (ok : Bool)
  | setInterested
  | loadCount
  | insertRequest
  | countPiece
  | loadInflight
  /-- the active pieces, in the order in which they are tried -/
  | pick (order : List ℕ)
  | requestBlock (clock : ℕ → Instant)
  | sendRequest (ok : Bool)
  | countRequest

/-- What the reader does next. -/
inductive ReaderAct
  | take (msg : PeerMessage)
  | resetInflight
  | askUseful
  | setUseful
  | locate
  | blockRecvied
  | pieceFinish
  | removeRequest
  | releasePiece
  /-- the stream ends or cannot be read -/
  | ends

/-- What the watchdog does next. -/
inductive WatchdogAct
  | tick
  | storeCount
  | prune

/-- What happens next. -/
inductive FsmEvent
  /-- the connection asks the manager for its registration -/
  | register
  /-- the manager handles the next message -/
  | handle (env : Env)
  /-- someone else sends a message to the manager -/
  | elsewhere (msg : TorrentManagerMessage)
  /-- a piece actor handles a message of someone else or ticks -/
  | pieceActor (send : ℕ) (e : PieceEvent)
  | writer (a : WriterAct)
  | reader (a : ReaderAct)
  | watchdog (a : WatchdogAct)

namespace PeerFsm

/-- `TorrentManager::new` and the state that `state_machine` sets up, before it registers. -/
def new (torrent : ClientTorrentMetaInfo) (peerOptions : PeerOptions) (peerId : String) :
    Option PeerFsm := do
  let manager ← TorrentManagerActor.new torrent peerOptions
  some {
    manager := manager
    mailbox := []
    pieceActors := []
    peerId := peerId
    peerChoking := true
    peerInterested := false
    amInterested := false
    hasUsefulPieces := true
    pendingActiveRequestCount := 0
    inflightMessages := 0
    activeRequests := ∅
    writer := .unregistered
    reader := .unstarted
    watchdog := .unstarted
    sent := [] }

/-- `torrent_manager.get_peer_options()`. -/
def peerOptions (s : PeerFsm) : PeerOptions := s.manager.peerOptions

/-- A message to the manager. -/
def send (s : PeerFsm) (sender : Sender) (msg : TorrentManagerMessage) : PeerFsm :=
  { s with mailbox := s.mailbox ++ [⟨sender, msg⟩] }

/-- The piece actor behind a channel, if it lives. -/
def pieceActor (s : PeerFsm) (send : ℕ) : Option PieceRequestManagerActor :=
  (s.pieceActors[send]?).join

/-! ## The manager -/

/-- The piece actors after an answer of the manager: one that made a new `PieceRequestManager`
spawned its actor. -/
def spawned (s : PeerFsm) (reply : TorrentManagerReply) :
    List (Option PieceRequestManagerActor) :=
  match reply with
  | .work (some mgr) =>
    if mgr.send = s.pieceActors.length then
      s.pieceActors ++ [some (.new mgr.pieceLength mgr.sha1Hash s.peerOptions.blockRequestTimeout)]
    else s.pieceActors
  | _ => s.pieceActors

/-- The manager handles the next message. -/
def handle (s : PeerFsm) (env : Env) : Option PeerFsm :=
  match s.mailbox with
  | [] => none
  | ⟨sender, msg⟩ :: mailbox => do
    let (manager, reply) ← managerStep s.manager (msg, { env with fresh := s.pieceActors.length })
    some { s with
      manager := manager
      mailbox := mailbox
      pieceActors := s.spawned reply
      writer := s.writer.receives sender reply
      reader := s.reader.receives sender reply
      watchdog := s.watchdog.receives sender reply }

/-- The start of `state_machine`. -/
def register (s : PeerFsm) : Option PeerFsm :=
  match s.writer with
  | .unregistered => some ({ s with writer := .registering }.send .connection (.addPeer s.peerId []))
  | _ => none

/-- A piece actor handles a message or ticks; one that panics is gone. -/
def pieceEvent (sha1 : Bytes → Bytes) (s : PeerFsm) (send : ℕ) (e : PieceEvent) :
    Option PeerFsm := do
  let a ← s.pieceActor send
  some { s with pieceActors := s.pieceActors.set send ((pieceStep sha1 a e).map Prod.fst) }

/-! ## The writer -/

/-- The message that `top_off_inflight_window` sends for a block. -/
def requestOf (c : PieceRequestManager) (p : ℕ × ℕ) : PeerMessage := .request c.index p.1 p.2

/-- One step of the writer task. -/
def writerStep (s : PeerFsm) (a : WriterAct) : Option PeerFsm :=
  match s.writer, a with
  | .starting localBitfield, .sendBitfield true =>
    -- the start-up pass follows
    some { s with writer := .passing, sent := s.sent ++ [.bitfield localBitfield] }
  | .starting _, .sendBitfield false => some { s with writer := .ended }
  | .waiting, .beginPass => some { s with writer := .passing }
  | .waiting, .beginTopOff => some { s with writer := .toppingOff ⟨false, s.peerChoking, false⟩ }
  | .passing, .sample =>
    some { s with
      writer := if s.hasUsefulPieces && !s.amInterested then .interesting s.peerChoking
        else .counting s.peerChoking }
  | .interesting isChoked, .sendInterested true =>
    some { s with writer := .interested isChoked, sent := s.sent ++ [.interested] }
  | .interesting _, .sendInterested false => some { s with writer := .ended }
  | .interested isChoked, .setInterested =>
    some { s with writer := .counting isChoked, amInterested := true }
  | .counting isChoked, .loadCount =>
    if !isChoked && decide (s.pendingActiveRequestCount < s.peerOptions.perPeerActiveRequestCount)
    then some ({ s with writer := .requesting isChoked }.send .writer (.requestWork s.peerId))
    else some { s with writer := .toppingOff ⟨true, isChoked, false⟩ }
  | .granted isChoked req, .insertRequest =>
    some { s with
      writer := .inserted isChoked req
      activeRequests := s.activeRequests.insert req.index req }
  | .inserted isChoked _, .countPiece =>
    some { s with
      writer := .toppingOff ⟨true, isChoked, true⟩
      pendingActiveRequestCount := u64Add s.pendingActiveRequestCount 1 }
  | .toppingOff pass, .loadInflight =>
    let maxInflight := s.peerOptions.perPeerInflightCount
    let inflightCount := s.inflightMessages
    if pass.isChoked || decide (maxInflight ≤ inflightCount) then
      some { s with writer := pass.returns false }
    else some { s with writer := .picking pass (maxInflight - inflightCount) }
  | .picking pass availableWindow, .pick order =>
    if (order : Multiset ℕ) = s.activeRequests.keys.val then
      some { s with
        writer := pass.tryNext availableWindow (order.filterMap s.activeRequests.lookup) }
    else none
  | .trying pass availableWindow (c :: candidates), .requestBlock clock =>
    match s.pieceActor c.send with
    | some a =>
      let (a, reqPieces) := a.blocksToRequest (availableWindow % 2 ^ 32) clock
      some { s with
        pieceActors := s.pieceActors.set c.send (some a)
        writer := if reqPieces.isEmpty then pass.tryNext availableWindow candidates
          else .sending pass c reqPieces }
    | none => some { s with writer := pass.tryNext availableWindow candidates }
  | .sending pass c (p :: reqPieces), .sendRequest true =>
    some { s with writer := .sent pass c reqPieces, sent := s.sent ++ [requestOf c p] }
  | .sending _ _ _, .sendRequest false => some { s with writer := .ended }
  | .sent pass c reqPieces, .countRequest =>
    some { s with
      writer := pass.sendNext c reqPieces
      inflightMessages := u64Add s.inflightMessages 1 }
  | _, _ => none

/-! ## The reader -/

/-- The reader takes the next message of the peer. -/
def takeMessage (s : PeerFsm) (msg : PeerMessage) : PeerFsm :=
  match msg with
  | .choke => { s with reader := .choking, peerChoking := true }
  | .unchoke => { s with peerChoking := false }
  | .interested => { s with peerInterested := true }
  | .notInterested => { s with peerInterested := false }
  | .have pieceIndex => s.send .reader (.updateBitField s.peerId pieceIndex)
  | .bitfield bitfield =>
    { s with reader := .recorded false }.send .reader (.addBitFeild s.peerId bitfield)
  | .piece pieceIndex blockOffset data =>
    { s with
      reader := .locating pieceIndex blockOffset data
      inflightMessages := s.inflightMessages - 1 }
  | .keepAlive | .request .. | .cancel .. | .port => s

/-- What becomes of a piece actor that handles a block, and what the reader does after
`block_recvied`. A panic drops the sender, which reads as false. -/
def afterBlock (sha1 : Bytes → Bytes) (a : PieceRequestManagerActor) (pieceIndex blockOffset : ℕ)
    (data : Bytes) (tracked : Bool) : Option PieceRequestManagerActor × ReaderTask :=
  match a.blockRecived sha1 blockOffset data with
  | some (a, .verified) => (some a, .hashMatched pieceIndex tracked)
  | some (a, _) => (some a, .idle)
  | none => (none, .idle)

/-- One step of the reader task. -/
def readerStep (sha1 : Bytes → Bytes) (s : PeerFsm) (a : ReaderAct) : Option PeerFsm :=
  match s.reader, a with
  | .idle, .take msg => some (s.takeMessage msg)
  | .idle, .ends => some { s with reader := .ended }
  | .choking, .resetInflight => some { s with reader := .idle, inflightMessages := 0 }
  | .recorded again, .askUseful =>
    some ({ s with reader := .askingUseful again }.send .reader (.hasUsefulPieces s.peerId))
  | .useful hasUseful, .setUseful => some { s with reader := .idle, hasUsefulPieces := hasUseful }
  | .locating pieceIndex blockOffset data, .locate =>
    match s.activeRequests.lookup pieceIndex with
    | some mgr => some { s with reader := .sending mgr pieceIndex blockOffset data true }
    | none =>
      some ({ s with reader := .asking pieceIndex blockOffset data }.send .reader
        (.getPieceManager pieceIndex))
  | .sending mgr pieceIndex blockOffset data tracked, .blockRecvied =>
    match s.pieceActor mgr.send with
    | some a =>
      let (a, reader) := afterBlock sha1 a pieceIndex blockOffset data tracked
      some { s with pieceActors := s.pieceActors.set mgr.send a, reader := reader }
    | none => some { s with reader := .idle }
  | .hashMatched pieceIndex tracked, .pieceFinish =>
    some ({ s with reader := if tracked then .finished pieceIndex else .idle }.send .reader
      (.pieceFinish s.peerId pieceIndex))
  | .finished pieceIndex, .removeRequest =>
    if pieceIndex ∈ s.activeRequests then
      some { s with
        reader := .removed pieceIndex
        activeRequests := s.activeRequests.erase pieceIndex }
    else some { s with reader := .idle }
  | .removed _, .releasePiece =>
    some { s with
      reader := .idle
      pendingActiveRequestCount := s.pendingActiveRequestCount - 1 }
  | _, _ => none

/-! ## The watchdog -/

/-- The entries of `active_requests` whose piece is still active. -/
def retainActive (activeRequests : HashMap ℕ PieceRequestManager) (active : List (ℕ × Instant)) :
    HashMap ℕ PieceRequestManager :=
  activeRequests.filterMapVals fun k req => if active.any fun t => t.1 == k then some req else none

/-- One step of the watchdog task. -/
def watchdogStep (s : PeerFsm) (a : WatchdogAct) : Option PeerFsm :=
  match s.watchdog, a with
  | .sleeping, .tick =>
    some ({ s with watchdog := .asking }.send .watchdog (.updateAndGetActiveRequestCount s.peerId))
  | .answered stillActive, .storeCount =>
    some { s with
      watchdog := .pruning stillActive
      pendingActiveRequestCount := stillActive.length }
  | .pruning stillActive, .prune =>
    some { s with
      watchdog := .sleeping
      activeRequests := retainActive s.activeRequests stillActive }
  | _, _ => none

end PeerFsm

/-- One step of the connection. -/
def fsmStep (sha1 : Bytes → Bytes) (s : PeerFsm) (e : FsmEvent) : Option (PeerFsm × Unit) :=
  (match e with
  | .register => s.register
  | .handle env => s.handle env
  | .elsewhere msg => some (s.send .elsewhere msg)
  | .pieceActor send e => s.pieceEvent sha1 send e
  | .writer a => s.writerStep a
  | .reader a => s.readerStep sha1 a
  | .watchdog a => s.watchdogStep a).map fun t => (t, ())

end Fissure.Model
