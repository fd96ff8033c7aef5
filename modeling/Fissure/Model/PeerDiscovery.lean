import Fissure.Model.TorrentRefresh

/-!
# The orchestrator of the handshakes

`handshake_orchestrator` in `orchestration/handshake_orechestration.rs` with the tasks of the tiers
that send to it. The channel is closed when every task has ended, since each holds a sender of its
own, and `recv` returns `None` once it is closed and empty. The orchestrator puts up with that ten
times in a row and then returns, which drops the receiver: after that a task that sends panics.
-/

set_option autoImplicit false

namespace Fissure.Model

/-- The orchestrator, and the tasks of the tiers with what they share. -/
structure PeerDiscovery where
  refresh : TorrentRefresh
  /-- the orchestrator has returned when there are none left -/
  retires : ℕ
  deriving DecidableEq

/-- What happens next. -/
inductive DiscoveryEvent
  /-- the task of tier `i` goes on -/
  | tier (i : ℕ)
  /-- the orchestrator takes a response out of the channel -/
  | recv
  /-- `recv` returns `None` -/
  | closed
  deriving DecidableEq

/-- How often in a row `recv` may return `None`. -/
def maxRetires : ℕ := 10

namespace PeerDiscovery

/-- The tasks and the orchestrator are spawned. -/
def new (announceList : List (List TrackerResponse)) : PeerDiscovery :=
  ⟨TorrentRefresh.new announceList, maxRetires⟩

/-- The task of tier `i` goes on. -/
def tier (s : PeerDiscovery) (i : ℕ) : Option PeerDiscovery :=
  match s.retires, s.refresh.tiers[i]? with
  -- the `unwrap` of `send` panics
  | 0, some (.sending _ _) =>
    some { s with refresh := { s.refresh with tiers := s.refresh.tiers.set i .ended } }
  | _, _ => (s.refresh.tier i).map fun refresh => { s with refresh }

/-- A response comes out of the channel, and a handshake is spawned for each of its peers. -/
def recv (s : PeerDiscovery) : Option PeerDiscovery :=
  match s.retires with
  | 0 => none
  | _ + 1 => s.refresh.recv.map fun refresh => ⟨refresh, maxRetires⟩

/-- No sender is left and the channel is empty. -/
def closed (s : PeerDiscovery) : Option PeerDiscovery :=
  match s.retires with
  | 0 => none
  | retires + 1 =>
    if s.refresh.channel.isEmpty && s.refresh.tiers.all (· == .ended) then some { s with retires }
    else none

end PeerDiscovery

/-- One step of the tasks and the orchestrator. -/
def discoveryStep (s : PeerDiscovery) (e : DiscoveryEvent) : Option (PeerDiscovery × Unit) :=
  (match e with
  | .tier i => s.tier i
  | .recv => s.recv
  | .closed => s.closed).map fun t => (t, ())

end Fissure.Model
