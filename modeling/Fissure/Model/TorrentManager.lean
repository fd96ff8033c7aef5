import Mathlib.Data.Finset.Basic
import Mathlib.Data.List.Sort
import Mathlib.Data.Multiset.Basic
import Mathlib.Algebra.Field.Rat
import Fissure.Library.FiniteMap
import Fissure.Library.RankedSearch
import Fissure.Model.TorrentMeta

/-!
# The torrent manager actor

`managers/torrent_manager.rs`. One `TorrentManagerActor` keeps, for one torrent, the
bitfields of the peers, how rare each piece is, who works on what, the shared piece managers
and the log of persisted pieces. One function below is one arm of the `match` in
`TorrentManagerActor::run`; `none` is a panic, which ends the actor.

What a handler reads from outside comes in an `Env`: the clock, the order in which the hash
sets yield their elements, the channel of a piece actor it spawns, and the answers of the disk
manager.
-/

set_option autoImplicit false

namespace Fissure.Model

open Fissure.Library

/-- `TorrentStats`; the decimal strings, in megabytes, are taken as exact rationals. -/
structure TorrentStats where
  downloaded : ℚ
  uploaded : ℚ
  left : ℚ
  deriving DecidableEq

/-- `PieceRequestManager`: what the holders of a piece actor's handle share. `send` names the
actor at the other end of the channel. -/
structure PieceRequestManager where
  index : ℕ
  sha1Hash : Bytes
  pieceLength : ℕ
  send : ℕ
  deriving DecidableEq, Repr

/-- `TorrentManagerActor`. -/
structure TorrentManagerActor where
  piecesFrequency : List ℕ
  /-- the 256 sets of piece indices, by frequency -/
  rarityBucket : Fin 256 → Finset ℕ
  stats : TorrentStats
  clientTorrentMeta : ClientTorrentMetaInfo
  peerBitfields : HashMap String Bitfield
  localBitfield : Bitfield
  /-- per peer: piece index and when it was assigned -/
  peerActiveWork : HashMap String (List (ℕ × Instant))
  pieceConcurrencyCounts : HashMap ℕ ℕ
  activePiecesManager : HashMap ℕ PieceRequestManager
  /-- the log of the pieces that were persisted -/
  downloadedPieceIndex : List ℕ
  /-- the value in the watch channel -/
  peerNotifier : ℕ
  peerOptions : PeerOptions

/-- An order in which the sets of `rarity_bucket` yield their elements: each element once. -/
structure IterationOrder where
  list : Fin 256 → Finset ℕ → List ℕ
  coe_list : ∀ f s, (list f s : Multiset ℕ) = s.val

/-- One such order: increasing. -/
def IterationOrder.ascending : IterationOrder where
  list _ s := Quot.liftOn s.val (fun l => l.insertionSort (· ≤ ·)) fun a b h =>
    List.Perm.eq_of_pairwise' (List.pairwise_insertionSort _ a) (List.pairwise_insertionSort _ b)
      (((List.perm_insertionSort _ a).trans h).trans (List.perm_insertionSort _ b).symm)
  coe_list _ s := by
    obtain ⟨l, -⟩ := s
    induction l using Quot.inductionOn with
    | h l => exact Quot.sound (List.perm_insertionSort _ l)

/-- What a handler of the manager reads from outside. -/
structure Env where
  now : Instant
  order : IterationOrder
  /-- the channel of the piece actor that is spawned, if one is -/
  fresh : ℕ
  /-- what `flush_piece_to_disk` returns -/
  flushed : Bool
  /-- what the disk manager's `get_data_with_length` returns -/
  diskData : ℕ → ℕ → ℕ → Option Bytes

/-- An `Env` in which the clock stands still and flushes succeed. -/
def Env.quiet : Env where
  now := 0
  order := .ascending
  fresh := 0
  flushed := true
  diskData _ _ _ := none

/-- The bucket of a frequency, `rarity_bucket[f.min(255)]`. -/
def bucketOf (f : ℕ) : Fin 256 := ⟨min f 255, by omega⟩

namespace TorrentManagerActor

/-- `TorrentManagerActor::new`. -/
def new (torrent : ClientTorrentMetaInfo) (peerOptions : PeerOptions) :
    Option TorrentManagerActor := do
  let numOfP ← torrent.rawTorrent.getNumberOfPieces
  let totalSize ← torrent.rawTorrent.downloadSize
  some {
    piecesFrequency := List.replicate numOfP 0
    rarityBucket := fun _ => ∅
    stats := ⟨0, 0, (totalSize : ℚ) / 1000000⟩
    clientTorrentMeta := torrent
    peerBitfields := ∅
    localBitfield := Bitfield.zeros numOfP
    peerActiveWork := ∅
    pieceConcurrencyCounts := ((List.range numOfP).map fun i => ⟨i, 0⟩).toFinmap
    activePiecesManager := ∅
    downloadedPieceIndex := []
    peerNotifier := 0
    peerOptions := peerOptions }

/-- A piece goes up by one in frequency and moves to the bucket of the new one. These lines
stand in both `update_freq_bitfield` and `update_freq_have`. -/
def raiseFrequency (s : TorrentManagerActor) (idx : ℕ) : Option TorrentManagerActor := do
  let oldFreq ← s.piecesFrequency[idx]?
  let newFreq := min (oldFreq + 1) 255
  let removed := Function.update s.rarityBucket (bucketOf oldFreq)
    ((s.rarityBucket (bucketOf oldFreq)).erase idx)
  let inserted := Function.update removed (bucketOf newFreq)
    (insert idx (removed (bucketOf newFreq)))
  some { s with
    rarityBucket := inserted
    piecesFrequency := s.piecesFrequency.set idx newFreq }

/-- One round of the loop in `update_freq_bitfield`; `existing` is the bitfield recorded
before. -/
def countPiece (existing : Option Bitfield) (s : TorrentManagerActor) (idx : ℕ) :
    Option TorrentManagerActor :=
  if s.localBitfield.getD idx false then some s
  else
    let isNewPieceForPeer := match existing with
      | some oldB => !oldB.getD idx false
      | none => true
    if isNewPieceForPeer then s.raiseFrequency idx else some s

/-- `update_freq_bitfield`. -/
def updateFreqBitfield (s : TorrentManagerActor) (bitfield : Bitfield) (peerId : String) :
    Option TorrentManagerActor :=
  bitfield.iterOnes.foldlM (countPiece (s.peerBitfields.lookup peerId)) s

/-- `update_freq_have`. -/
def updateFreqHave (s : TorrentManagerActor) (peerId : String) (index : ℕ) :
    Option TorrentManagerActor :=
  if s.localBitfield.getD index false then some s
  else
    match s.peerBitfields.lookup peerId with
    | none => some s
    | some peerBitfield =>
      if peerBitfield.getD index false then some s
      else do
        let peerBitfield ← peerBitfield.set? index true
        { s with peerBitfields := s.peerBitfields.insert peerId peerBitfield }.raiseFrequency index

/-- The `AddPeer` arm. -/
def addPeer (s : TorrentManagerActor) (peerId : String) (peerBitfield : Bitfield) :
    Option (TorrentManagerActor × Bitfield) := do
  let s ← s.updateFreqBitfield peerBitfield peerId
  some ({ s with
    peerBitfields := s.peerBitfields.insert peerId peerBitfield
    peerActiveWork := s.peerActiveWork.insert peerId [] }, s.localBitfield)

/-- The `AddBitFeild` arm. -/
def addBitFeild (s : TorrentManagerActor) (peerId : String) (peerBitfield : Bitfield) :
    Option TorrentManagerActor := do
  let s ← s.updateFreqBitfield peerBitfield peerId
  some { s with peerBitfields := s.peerBitfields.insert peerId peerBitfield }

/-- The `UpdateBitField` arm. -/
def updateBitField (s : TorrentManagerActor) (peerId : String) (index : ℕ) :
    Option TorrentManagerActor := do
  let s ← s.updateFreqHave peerId index
  let peerBitfield ← s.peerBitfields.lookup peerId
  let peerBitfield ← peerBitfield.set? index true
  some { s with peerBitfields := s.peerBitfields.insert peerId peerBitfield }

/-- The predicate of the `find` in the `RequestWork` arm. -/
def selectable (s : TorrentManagerActor) (peerId : String) (currentPeerBitfield : Bitfield)
    (idx : ℕ) : Bool :=
  match s.pieceConcurrencyCounts.lookup idx with
  | none => false
  | some len =>
    let hasPiece := currentPeerBitfield.getD idx false
    let alreadyDownloaded := s.localBitfield.getD idx false
    let activeCountWithinCap := decide (len ≤ s.peerOptions.perPieceActivePeerCount)
    let thisPeerAlreadyAssigned := match s.peerActiveWork.lookup peerId with
      | some t => t.any fun t => t.1 == idx
      | none => false
    hasPiece && !alreadyDownloaded && activeCountWithinCap && !thisPeerAlreadyAssigned

/-- `rarity_bucket.iter().flatten()`: the pieces in the buckets, rarest first. -/
def bucketsInOrder (s : TorrentManagerActor) (order : IterationOrder) : List ℕ :=
  inBucketOrder fun f => order.list f (s.rarityBucket f)

/-- The shared manager of a piece, created when no peer works on the piece. -/
def managerFor (s : TorrentManagerActor) (index fresh : ℕ) :
    Option (TorrentManagerActor × PieceRequestManager) :=
  match s.activePiecesManager.lookup index with
  | some manager => some (s, manager)
  | none => do
    let sha1Hash ← s.clientTorrentMeta.rawTorrent.getPieceHash index
    let pieceLength ← s.clientTorrentMeta.rawTorrent.getPieceLength index
    let manager : PieceRequestManager := ⟨index, sha1Hash, pieceLength, fresh⟩
    some ({ s with activePiecesManager := s.activePiecesManager.insert index manager }, manager)

/-- The rest of the `RequestWork` arm once the piece is chosen. -/
def assign (s : TorrentManagerActor) (peerId : String) (index : ℕ) (now : Instant) (fresh : ℕ) :
    Option (TorrentManagerActor × PieceRequestManager) := do
  let (s, manager) ← s.managerFor index fresh
  let count ← s.pieceConcurrencyCounts.lookup index
  let work ← s.peerActiveWork.lookup peerId
  some ({ s with
    pieceConcurrencyCounts := s.pieceConcurrencyCounts.insert index (count + 1)
    peerActiveWork := s.peerActiveWork.insert peerId (work ++ [(index, now)]) }, manager)

/-- The `RequestWork` arm. -/
def requestWork (s : TorrentManagerActor) (peerId : String) (env : Env) :
    Option (TorrentManagerActor × Option PieceRequestManager) :=
  match s.peerBitfields.lookup peerId with
  | none => some (s, none)
  | some currentPeerBitfield =>
    match (s.bucketsInOrder env.order).find? (s.selectable peerId currentPeerBitfield) with
    | none => some (s, none)
    | some index =>
      (s.assign peerId index env.now env.fresh).map fun (s, manager) => (s, some manager)

/-- Every peer's work list without the piece `index`. -/
def retainWork (work : HashMap String (List (ℕ × Instant))) (index : ℕ) :
    HashMap String (List (ℕ × Instant)) :=
  work.filterMapVals fun _ v => some (v.filter fun w => w.1 != index)

/-- The `PieceFinish` arm up to the flush: the piece becomes ours and leaves the rarity index,
the counts, the work lists and the active managers. The manager to flush comes back, if there
is one. The source runs the loop over the work lists twice. -/
def pieceFinishBegin (s : TorrentManagerActor) (index : ℕ) :
    Option (TorrentManagerActor × Option PieceRequestManager) := do
  let owned ← s.localBitfield[index]?
  if owned then some (s, none)
  else
    let currentFreq ← s.piecesFrequency[index]?
    some ({ s with
      localBitfield := s.localBitfield.set index true
      rarityBucket := Function.update s.rarityBucket (bucketOf currentFreq)
        ((s.rarityBucket (bucketOf currentFreq)).erase index)
      piecesFrequency := s.piecesFrequency.set index 0
      pieceConcurrencyCounts := s.pieceConcurrencyCounts.erase index
      peerActiveWork := retainWork (retainWork s.peerActiveWork index) index
      activePiecesManager := s.activePiecesManager.erase index },
      s.activePiecesManager.lookup index)

/-- The `PieceFinish` arm after the flush; the index is cast to `u32`. -/
def pieceFinishEnd (s : TorrentManagerActor) (index pieceLength : ℕ) (flushResult : Bool) :
    TorrentManagerActor :=
  if flushResult then
    { s with
      stats := { s.stats with downloaded := s.stats.downloaded + (pieceLength : ℚ) / 1000000 }
      downloadedPieceIndex := s.downloadedPieceIndex ++ [index % 2 ^ 32]
      peerNotifier := (s.downloadedPieceIndex ++ [index % 2 ^ 32]).length }
  else s

/-- The `PieceFinish` arm. -/
def pieceFinish (s : TorrentManagerActor) (index : ℕ) (flushResult : Bool) :
    Option TorrentManagerActor := do
  let (s, lastPieceManager) ← s.pieceFinishBegin index
  match lastPieceManager with
  | some manager => some (s.pieceFinishEnd index manager.pieceLength flushResult)
  | none => some s

/-- `if *count > 0 {*count -= 1}`, when the piece has a count. -/
def releaseCount (counts : HashMap ℕ ℕ) (piece : ℕ) : HashMap ℕ ℕ :=
  match counts.lookup piece with
  | some count => if 0 < count then counts.insert piece (count - 1) else counts
  | none => counts

/-- The `retain` of the `UpdateAndGetActiveRequestCount` arm over one work list, with the
counts it releases. -/
def retainActive (localBitfield : Bitfield) (timeout : ℕ) (now : Instant) :
    List (ℕ × Instant) → HashMap ℕ ℕ → Option (List (ℕ × Instant) × HashMap ℕ ℕ)
  | [], counts => some ([], counts)
  | (piece, time) :: rest, counts => do
    let owned ← localBitfield[piece]?
    if owned then retainActive localBitfield timeout now rest counts
    else if timeout < now.durationSince time then
      retainActive localBitfield timeout now rest (releaseCount counts piece)
    else
      let (kept, counts) ← retainActive localBitfield timeout now rest counts
      some ((piece, time) :: kept, counts)

/-- The `UpdateAndGetActiveRequestCount` arm. -/
def updateAndGetActiveRequestCount (s : TorrentManagerActor) (peerId : String) (now : Instant) :
    Option (TorrentManagerActor × Option (List (ℕ × Instant))) :=
  match s.peerActiveWork.lookup peerId with
  | none => some (s, none)
  | some v => do
    let (updatedList, counts) ← retainActive s.localBitfield
      (fromSecs s.peerOptions.pieceRequestTimeout) now v s.pieceConcurrencyCounts
    some ({ s with
      peerActiveWork := s.peerActiveWork.insert peerId updatedList
      pieceConcurrencyCounts := counts }, some updatedList)

/-- The `HasUsefulPieces` arm. -/
def hasUsefulPieces (s : TorrentManagerActor) (peerId : String) : Option Bool := do
  let peerBf ← s.peerBitfields.lookup peerId
  some (decide (0 < (Bitfield.and s.localBitfield.not peerBf).countOnes))

/-- The `GetHaveMessageProgress` arm. -/
def getHaveMessageProgress (s : TorrentManagerActor) (since : ℕ) : Option (List ℕ) :=
  if since ≤ s.downloadedPieceIndex.length then some (s.downloadedPieceIndex.drop since) else none

end TorrentManagerActor

/-- `TorrentManagerMessage`, without the senders of the replies. -/
inductive TorrentManagerMessage
  | addPeer (peerId : String) (peerBitfield : Bitfield)
  | updateBitField (peerId : String) (index : ℕ)
  | addBitFeild (peerId : String) (peerBitfield : Bitfield)
  | removePeer (peerId : String)
  | pieceFinish (peerId : String) (index : ℕ)
  | requestWork (peerId : String)
  | getTorrentStats
  | updateAndGetActiveRequestCount (peerId : String)
  | hasUsefulPieces (peerId : String)
  | getActivePeers
  | getDataWithLength (pieceIndex offset length : ℕ)
  | getPieceManager (pieceIndex : ℕ)
  | getHaveMessageProgress (since : ℕ)
  deriving DecidableEq

/-- What goes back to the sender of a message. -/
inductive TorrentManagerReply
  | none
  | bitfield (b : Bitfield)
  | stats (s : TorrentStats)
  | work (manager : Option PieceRequestManager)
  | activeWork (work : Option (List (ℕ × Instant)))
  | useful (b : Bool)
  | peers (peers : Finset String)
  | data (d : Option Bytes)
  | manager (manager : Option PieceRequestManager)
  | progress (pieces : List ℕ)

open TorrentManagerActor in
/-- One round of the loop in `TorrentManagerActor::run`, `none` when it panics. -/
def managerStep (s : TorrentManagerActor) :
    TorrentManagerMessage × Env → Option (TorrentManagerActor × TorrentManagerReply)
  | (.addPeer peerId bitfield, _) =>
    (s.addPeer peerId bitfield).map fun (s, localBitfield) => (s, .bitfield localBitfield)
  | (.updateBitField peerId index, _) => (s.updateBitField peerId index).map fun s => (s, .none)
  | (.addBitFeild peerId bitfield, _) => (s.addBitFeild peerId bitfield).map fun s => (s, .none)
  | (.removePeer _, _) => some (s, .none)
  | (.pieceFinish _ index, env) => (s.pieceFinish index env.flushed).map fun s => (s, .none)
  | (.requestWork peerId, env) =>
    (s.requestWork peerId env).map fun (s, manager) => (s, .work manager)
  | (.getTorrentStats, _) => some (s, .stats s.stats)
  | (.updateAndGetActiveRequestCount peerId, env) =>
    (s.updateAndGetActiveRequestCount peerId env.now).map fun (s, work) => (s, .activeWork work)
  | (.hasUsefulPieces peerId, _) => (s.hasUsefulPieces peerId).map fun b => (s, .useful b)
  | (.getActivePeers, _) => some (s, .peers s.peerBitfields.keys)
  | (.getDataWithLength pieceIndex offset length, env) =>
    some (s, .data (env.diskData (pieceIndex % 2 ^ 32) (offset % 2 ^ 32) (length % 2 ^ 32)))
  | (.getPieceManager pieceIndex, _) =>
    some (s, .manager (s.activePiecesManager.lookup pieceIndex))
  | (.getHaveMessageProgress since, _) =>
    (s.getHaveMessageProgress since).map fun pieces => (s, .progress pieces)

end Fissure.Model
