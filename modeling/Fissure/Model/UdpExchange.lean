import Fissure.Model.Tracker

/-!
# One announce over UDP

`refresh_peer_list_from_udp_tracker` in `protocols/tracker.rs`, the tracker that it talks to and
the network between them. The client sends a connect request, waits for the answer, sends an
announce with the connection id in it and waits again. Whether the socket could be connected and a
datagram be sent is not looked at; the client waits in any case. A datagram that was sent may arrive
never, once or more often, and in any order, so the network is what has been sent so far. What
arrives at the client comes from the tracker, or is a stray: left over from an earlier call or, when
the socket is not connected, from anyone.
-/

set_option autoImplicit false

namespace Fissure.Model

/-! ## The client -/

/-- The arguments of `refresh_peer_list_from_udp_tracker`. -/
structure UdpCall where
  url : String
  infoHash : Bytes
  ourPeerId : String
  ourPort : String
  retry : ℕ

/-- What the call rests on that is no part of the repository: the crate `url`, the product of a
number of megabytes and a million as the `f64` and `u64` of the machine give it, and the tracker.
With a datagram that arrives the tracker goes to a new state and sends any number of datagrams
back; what it draws and decides on is the first argument. -/
structure UdpWorld (τ κ : Type) where
  parseUrl : String → Option ParsedUrl
  asBytes : ℚ → ℕ
  asBytes_lt : ∀ x, asBytes x < 2 ^ 64
  serve : κ → τ → Bytes → τ × List Bytes

/-- Where the call stands. -/
inductive UdpTask
  | unsent
  /-- the client waits for the answer to the connect request -/
  | connecting (tId : UInt32)
  /-- the client waits for the answer to the announce -/
  | announcing (tId : UInt32)
  | returned (result : Except FissureErr TrackerResponse)
  | panicked

/-- What the client reads and draws for its second request: the answer to `get_torrent_stats` and
two random numbers; and whether `send` succeeds. -/
structure SecondRequest where
  stats : Option TorrentStats
  tId : UInt32
  key : UInt32
  sends : Bool

variable {τ κ : Type}

/-- The end of a wait: what becomes of the call and what it sends. -/
def UdpTask.receives (world : UdpWorld τ κ) (call : UdpCall) (task : UdpTask) (reply : UdpReply)
    (next : SecondRequest) : Option (UdpTask × List Bytes) :=
  match task with
  | .connecting tId =>
    match connectionId tId reply with
    | .error err => some (.returned (.error err), [])
    | .ok cId =>
      match next.stats.bind fun stats =>
        secondRequestBuf world.asBytes (.ofNat cId) next.tId next.key call.infoHash call.ourPeerId
          call.ourPort stats with
      | some secondRequest => some (.announcing next.tId, [secondRequest])
      | none => some (.panicked, [])
  | .announcing tId =>
    match announceResponse tId reply with
    | some result => some (.returned result, [])
    | none => some (.panicked, [])
  | _ => none

/-! ## The exchange -/

/-- The call, the tracker and the network. -/
structure UdpExchange (τ : Type) where
  task : UdpTask
  /-- the socket is connected to the tracker -/
  connected : Bool
  tracker : τ
  /-- all datagrams that the client has sent -/
  toTracker : List Bytes
  /-- the datagrams that do not belong to this exchange -/
  strays : List Bytes
  /-- all datagrams that the tracker has sent, each with the request that it answers -/
  answered : List (Bytes × Bytes)

/-- What happens next. -/
inductive UdpEvent (κ : Type)
  /-- there is no socket -/
  | bindFails (err : FissureErr)
  /-- the client sends its first request, as far as `connect` and `send` succeed -/
  | begin (connects sends : Bool) (tId : UInt32)
  /-- a datagram of the client arrives at the tracker -/
  | serve (request : Bytes) (choice : κ)
  /-- a datagram arrives at the client -/
  | receive (datagram : Bytes) (next : SecondRequest)
  | recvFails (err : String)
  | timesOut

namespace UdpExchange

/-- Before the call. -/
def new (tracker : τ) (strays : List Bytes) : UdpExchange τ :=
  ⟨.unsent, false, tracker, [], strays, []⟩

/-- The datagrams that can arrive at the client. -/
def toClient (s : UdpExchange τ) : List Bytes := s.strays ++ s.answered.map Prod.snd

/-- `sock.send`; nothing is sent when it fails. -/
def send (s : UdpExchange τ) (sends : Bool) (datagrams : List Bytes) : UdpExchange τ :=
  if s.connected && sends then { s with toTracker := s.toTracker ++ datagrams } else s

/-- `UdpSocket::bind` fails. -/
def bindFails (s : UdpExchange τ) (err : FissureErr) : Option (UdpExchange τ) :=
  match s.task with
  | .unsent => some { s with task := .returned (.error err) }
  | _ => none

/-- The client sends its first request. There may be no host to connect to, and the duration of the
wait may overflow. -/
def begin (world : UdpWorld τ κ) (call : UdpCall) (s : UdpExchange τ) (connects sends : Bool)
    (tId : UInt32) : Option (UdpExchange τ) :=
  match s.task with
  | .unsent =>
    if (extractTrackerHostPort world.parseUrl call.url).isNone then
      some { s with task := .panicked }
    else
      let task := if (udpTimeout call.retry).isSome then .connecting tId else .panicked
      some ({ s with task := task, connected := connects }.send sends [connectRequest tId])
  | _ => none

/-- The tracker handles a datagram. -/
def serve (world : UdpWorld τ κ) (s : UdpExchange τ) (request : Bytes) (choice : κ) :
    Option (UdpExchange τ) :=
  if request ∈ s.toTracker then
    let (tracker, replies) := world.serve choice s.tracker request
    some { s with
      tracker := tracker
      answered := s.answered ++ replies.map fun reply => (request, reply) }
  else none

/-- A wait of the client ends. -/
def receive (world : UdpWorld τ κ) (call : UdpCall) (s : UdpExchange τ) (reply : UdpReply)
    (next : SecondRequest) : Option (UdpExchange τ) := do
  let (task, sent) ← s.task.receives world call reply next
  some ({ s with task := task }.send next.sends sent)

end UdpExchange

/-- One step of the exchange. A wait that ends without a datagram sends nothing. -/
def udpStep (world : UdpWorld τ κ) (call : UdpCall) (s : UdpExchange τ) (e : UdpEvent κ) :
    Option (UdpExchange τ × Unit) :=
  (match e with
  | .bindFails err => s.bindFails err
  | .begin connects sends tId => s.begin world call connects sends tId
  | .serve request choice => s.serve world request choice
  | .receive datagram next =>
    if datagram ∈ s.toClient then s.receive world call (.datagram datagram) next else none
  | .recvFails err => s.receive world call (.failed err) ⟨none, 0, 0, false⟩
  | .timesOut => s.receive world call .timeout ⟨none, 0, 0, false⟩).map fun t => (t, ())

end Fissure.Model
