import Fissure.Model.PeerCodec
import Fissure.Model.TorrentManager
import Fissure.Model.TorrentRefresh

/-!
# What the client and a tracker tell each other

`protocols/tracker.rs` and what it takes from `helper.rs` and `managers/client_manager.rs`: the peer
id, the numbers of an announce over HTTP and over UDP, the two packets of the UDP exchange, how long
the client waits for each answer, and the two parsers of a peer list in compact form. The transport
is left out, and so are the HTTP client and bencoding: a datagram is what `recv` finds, and the peer
list of an HTTP answer comes as `serde` has sorted it. A failed `unwrap` and an overflow panic, the
latter as in a debug build, which is `none`.
-/

set_option autoImplicit false

namespace Fissure.Model

/-! ## The client's settings -/

/-- `FissureClientOptions`. -/
structure FissureClientOptions where
  port : String := "6001"
  ip : String := "0.0.0.0"
  version : String := "0001"
  deriving DecidableEq, Repr

/-- Fourteen characters that are drawn from `Alphanumeric`. -/
structure RandString where
  chars : List Char
  length_eq : chars.length = 14
  alphanumeric : ∀ c ∈ chars, c.isAlphanum = true

/-- `generate_peer_id`. -/
def generatePeerId (clientEnv : FissureClientOptions) (randString : RandString) : String :=
  "FS" ++ clientEnv.version ++ String.ofList randString.chars

/-- `str::parse::<u16>`: decimal digits, after a plus sign or not. -/
def parseU16 (s : String) : Option ℕ :=
  let digits := match s.toList with
    | '+' :: digits => digits
    | digits => digits
  if digits = [] ∨ digits.all Char.isDigit = false then none
  else
    let n := digits.foldl (fun n c => n * 10 + (c.toNat - 48)) 0
    if n < 2 ^ 16 then some n else none

/-! ## The address of a tracker -/

/-- What the client asks of a URL that the crate `url` has parsed. -/
structure ParsedUrl where
  scheme : String
  hostStr : Option String
  port : Option ℕ
  deriving DecidableEq, Repr

/-- `extract_tracker_host_port`, over what `Url::parse` makes of a URL. -/
def extractTrackerHostPort (parse : String → Option ParsedUrl) (rawUrl : String) :
    Option String := do
  let parsed ← parse rawUrl
  let host ← parsed.hostStr
  let port := parsed.port.getD (if parsed.scheme = "https" then 443 else 80)
  some (host ++ ":" ++ Nat.repr port)

/-! ## What an announce says -/

/-- A number of megabytes in bytes, `(x * 1000000 as f64) as u64`: rounded down and kept in the
range. The product is the exact one, where that of two `f64` is rounded. -/
def inBytes (x : ℚ) : ℕ := min (x * 1000000).floor.toNat (2 ^ 64 - 1)

/-- `TrackerRequest`. -/
structure TrackerRequest where
  infoHash : Bytes
  peerId : String
  port : String
  uploaded : String
  downloaded : String
  left : String
  deriving DecidableEq, Repr

/-- The request of `refresh_peer_list_from_http_trackers`. -/
def httpRequest (infoHash : Bytes) (peerId port : String) (torrentStats : TorrentStats) :
    TrackerRequest where
  infoHash := infoHash
  peerId := peerId
  port := port
  uploaded := Nat.repr (inBytes torrentStats.uploaded)
  downloaded := Nat.repr (inBytes torrentStats.downloaded)
  left := Nat.repr (inBytes torrentStats.left)

/-- `u16::to_be_bytes`. -/
def putU16 (n : ℕ) : Bytes := [.ofNat (n / 2 ^ 8), .ofNat n]

/-- `u64::to_be_bytes`. -/
def putU64 (n : ℕ) : Bytes := putU32 (n / 2 ^ 32) ++ putU32 n

/-- `first_request_buf`. -/
def connectRequest (tId : UInt32) : Bytes :=
  let magic := 0x41727101980
  let action := 0
  putU64 magic ++ putU32 action ++ putU32 tId.toNat

/-- `second_request_buf`, where `asBytes` makes bytes of megabytes; `none` when the port is no `u16`.
The number of peers wanted is `-1`. -/
def secondRequestBuf (asBytes : ℚ → ℕ) (cId : UInt64) (tId key : UInt32) (infoHash : Bytes)
    (ourPeerId ourPort : String) (stats : TorrentStats) : Option Bytes := do
  let actionAnnounce := 1
  let eventStarted := 2
  let numWant := 2 ^ 32 - 1
  let port ← parseU16 ourPort
  some (putU64 cId.toNat ++ putU32 actionAnnounce ++ putU32 tId.toNat ++ infoHash ++
    utf8 ourPeerId ++ putU64 (asBytes stats.downloaded) ++ putU64 (asBytes stats.left) ++
    putU64 (asBytes stats.uploaded) ++ putU32 eventStarted ++ putU32 0 ++ putU32 key.toNat ++
    putU32 numWant ++ putU16 port)

/-- The second request with the exact numbers. -/
def announceRequest (cId : UInt64) (tId key : UInt32) (infoHash : Bytes)
    (ourPeerId ourPort : String) (stats : TorrentStats) : Option Bytes :=
  secondRequestBuf inBytes cId tId key infoHash ourPeerId ourPort stats

/-! ## Waiting for the tracker -/

/-- `15 * (2u64.pow(retry) + 1)`, in seconds. -/
def udpTimeout (retry : ℕ) : Option ℕ :=
  if 15 * (2 ^ retry + 1) < 2 ^ 64 then some (15 * (2 ^ retry + 1)) else none

/-- How the wait for a datagram ends. -/
inductive UdpReply
  | datagram (bytes : Bytes)
  | failed (err : String)
  | timeout
  deriving DecidableEq

/-- `recv` into a buffer of zeros: the buffer after it and how many bytes were written. What does
not fit is lost. -/
def recvInto (size : ℕ) (datagram : Bytes) : Bytes × ℕ :=
  (datagram.take size ++ List.replicate (size - datagram.length) 0, min datagram.length size)

/-- `u32::from_be_bytes(buf[start..start + 4])`. -/
def readU32 (buf : Bytes) (start : ℕ) : ℕ := fromBeBytes ((buf.drop start).take 4)

/-- The connection id of the first answer. -/
def connectionId (tId : UInt32) : UdpReply → Except FissureErr ℕ
  | .datagram bytes =>
    let connectBuf := (recvInto 16 bytes).1
    let resAction := readU32 connectBuf 0
    let rTId := readU32 connectBuf 4
    let cId := fromBeBytes ((connectBuf.drop 8).take 8)
    if resAction ≠ 0 ∨ rTId ≠ tId.toNat then
      .error ⟨"Malcious UDP tracker messing with stuff in first req"⟩
    else .ok cId
  | .failed err => .error ⟨err⟩
  | .timeout => .error ⟨"Timeout for first UDP request"⟩

/-! ## Peer lists -/

/-- `slice::chunks_exact`: what is left over at the end is in no chunk. -/
def chunksExact (size : ℕ) (bytes : Bytes) : List Bytes :=
  (List.range (bytes.length / size)).map fun i => (bytes.drop (size * i)).take size

/-- `Ipv4Addr::to_string`. -/
def ipv4ToString (octets : Bytes) : String :=
  ".".intercalate (octets.map fun b => Nat.repr b.toNat)

/-- The first four bytes of an entry, `Ipv4Addr::new`. -/
def chunkIp (chunk : Bytes) : Bytes := chunk.take 4

/-- The last two bytes of an entry, `u16::from_be_bytes`. -/
def chunkPort (chunk : Bytes) : ℕ := fromBeBytes ((chunk.drop 4).take 2)

/-- `Ipv4Addr::is_unspecified`. -/
def isUnspecified (octets : Bytes) : Bool := octets.all (· == 0)

/-- `RawPeers`. -/
inductive RawPeers
  | normal (list : List Peer)
  | compact (bytes : Bytes)
  deriving DecidableEq

/-- `deserialize_peers`. -/
def deserializePeers : Option RawPeers → Option (List Peer)
  | none => none
  | some (.normal list) => some list
  | some (.compact bytes) =>
    some (if bytes.length % 6 = 0 then
      (chunksExact 6 bytes).map fun chunk =>
        { peerId := none, ip := ipv4ToString (chunkIp chunk), port := chunkPort chunk }
    else [])

/-- `TrackerResponse::from_udp_bytes`. -/
def TrackerResponse.fromUdpBytes (bytes : Bytes) : Except FissureErr TrackerResponse :=
  if bytes.length < 20 then .error ⟨"Response buffer too short"⟩
  else
    let interval := readU32 bytes 8
    let peerBytes := bytes.drop 20
    let peers := (chunksExact 6 peerBytes).filterMap fun chunk =>
      let ip := chunkIp chunk
      let port := chunkPort chunk
      if isUnspecified ip ∨ port = 0 then none
      else some { peerId := none, ip := ipv4ToString ip, port := port }
    .ok { interval := some interval, peers := some peers }

/-- The second answer; `none` when the `unwrap` of `from_udp_bytes` panics. -/
def announceResponse (tId : UInt32) : UdpReply → Option (Except FissureErr TrackerResponse)
  | .datagram bytes =>
    let (respBuf, size) := recvInto 1024 bytes
    if size < 20 then some (.error ⟨"Invalid second response from UDP tracker"⟩)
    else
      let resAction := readU32 respBuf 0
      let resTxId := readU32 respBuf 4
      if resAction ≠ 1 ∨ resTxId ≠ tId.toNat then
        some (.error ⟨"Invalid second response from UDP tracker"⟩)
      else
        match TrackerResponse.fromUdpBytes (respBuf.take size) with
        | .ok response => some (.ok response)
        | .error _ => none
  | .failed err => some (.error ⟨err⟩)
  | .timeout => some (.error ⟨"Timeout for first UDP request"⟩)

end Fissure.Model
