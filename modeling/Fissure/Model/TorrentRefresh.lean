import Mathlib.Data.Int.Notation
import Fissure.Library.Fresh

/-!
# How peers come from the trackers to the handshakes

`torrent_refresh` in `orchestration/torrent_refresh.rs` for a torrent with an announce list, the
records of `protocols/tracker.rs` that it passes on, and the loop of `handshake_orchestrator` that
takes them. Each tier of the list has a task that asks the trackers of the tier until one answers,
drops the peers whose address is recorded already, records the others and sends them to the
orchestrator. The record is one list behind a read-write lock that the tasks share; the write
guard lives until the answer is sent, the read guard only for the look at the list.

Which tracker of a tier answers, what fails before and how long the task sleeps only decide which
answer comes next. So a task starts with the answers that it is going to get, and one event is
what it does until it next waits or touches what the tasks share.
-/

set_option autoImplicit false

namespace Fissure.Model

open Fissure.Library

/-- A peer as a tracker lists it. -/
structure Peer where
  peerId : Option String
  ip : String
  port : ℤ
  deriving DecidableEq

/-- What a tracker answers. -/
structure TrackerResponse where
  interval : Option ℤ
  peers : Option (List Peer)
  deriving DecidableEq

/-- Where the task of a tier stands. `responses` are the answers still to come. -/
inductive TierTask
  /-- asks the trackers, or sleeps -/
  | asking (responses : List TrackerResponse)
  /-- a tracker has answered with peers -/
  | answered (newResp : TrackerResponse) (newRespPeer : List Peer)
      (responses : List TrackerResponse)
  /-- `retain` is done and the read guard dropped -/
  | retained (newResp : TrackerResponse) (newRespPeer : List Peer)
      (responses : List TrackerResponse)
  /-- the peers are recorded; the task holds the write guard and waits in `send` -/
  | sending (newResp : TrackerResponse) (responses : List TrackerResponse)
  /-- an `unwrap` has panicked -/
  | ended
  deriving DecidableEq

/-- Whether the task holds the write guard. -/
def TierTask.writes : TierTask → Bool
  | .sending _ _ => true
  | _ => false

/-- The tasks of the tiers, what they share, and the peers that the orchestrator has started a
handshake with. -/
structure TorrentRefresh where
  alreadySeenPeers : List Peer
  tiers : List TierTask
  channel : List TrackerResponse
  handshakes : List Peer
  deriving DecidableEq

/-- What happens next. -/
inductive RefreshEvent
  /-- the task of tier `i` goes on -/
  | tier (i : ℕ)
  /-- the orchestrator takes a response out of the channel -/
  | recv
  deriving DecidableEq

/-- The capacity of the channel to the orchestrator. -/
def peerTrackerCapacity : ℕ := 300

namespace TorrentRefresh

/-- The tasks are spawned, each with the answers it is going to get. -/
def new (announceList : List (List TrackerResponse)) : TorrentRefresh :=
  ⟨[], announceList.map .asking, [], []⟩

/-- Whether some task holds the write guard. -/
def writeLocked (s : TorrentRefresh) : Bool := s.tiers.any TierTask.writes

/-- What a task does next: the peers it records, where it gets to and what it sends. -/
def next (s : TorrentRefresh) : TierTask → Option (List Peer × TierTask × List TrackerResponse)
  | .asking [] => none
  | .asking (newResp :: responses) =>
    match newResp.peers with
    | some newRespPeer => some ([], .answered newResp newRespPeer responses, [])
    | none => some ([], .ended, [])
  | .answered newResp newRespPeer responses =>
    if s.writeLocked then none
    else some ([], .retained newResp (fresh Peer.ip s.alreadySeenPeers newRespPeer) responses, [])
  | .retained newResp newRespPeer responses =>
    if s.writeLocked then none
    else
      match newResp.interval with
      | some _ =>
        some (newRespPeer, .sending { newResp with peers := some newRespPeer } responses, [])
      -- the peers are recorded before the interval is unwrapped
      | none => some (newRespPeer, .ended, [])
  | .sending newResp responses =>
    if s.channel.length < peerTrackerCapacity then some ([], .asking responses, [newResp])
    else none
  | .ended => none

/-- The task of tier `i` goes on. -/
def tier (s : TorrentRefresh) (i : ℕ) : Option TorrentRefresh := do
  let task ← s.tiers[i]?
  let (recorded, task, sent) ← s.next task
  some { s with
    alreadySeenPeers := s.alreadySeenPeers ++ recorded
    tiers := s.tiers.set i task
    channel := s.channel ++ sent }

/-- `recv` of the orchestrator, and a handshake with each peer of the response. -/
def recv (s : TorrentRefresh) : Option TorrentRefresh :=
  match s.channel with
  | [] => none
  | deltaTrackerResponse :: channel => some { s with
      channel
      handshakes := s.handshakes ++ deltaTrackerResponse.peers.getD [] }

end TorrentRefresh

/-- One step of the tasks and the orchestrator. -/
def refreshStep (s : TorrentRefresh) (e : RefreshEvent) : Option (TorrentRefresh × Unit) :=
  (match e with
  | .tier i => s.tier i
  | .recv => s.recv).map fun t => (t, ())

end Fissure.Model
