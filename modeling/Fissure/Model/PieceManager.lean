import Fissure.Library.FiniteMap
import Fissure.Library.SparseFile
import Fissure.Model.Bits

/-!
# The piece actor

`managers/piece_manager.rs`. One `PieceRequestManagerActor` owns the buffer of one piece:
it hands out blocks to request, stores the blocks that arrive, checks the SHA-1 once every
block is flagged as downloaded and gives expired requests back.

The three bit vectors and the buffer never change their length, and a timer is set only for
a block handed out. These facts are fields of the actor, so that the only index that can be
out of range is the one a `BlockRecived` message brings.
-/

set_option autoImplicit false

namespace Fissure.Model

open Fissure.Library

/-- `BLOCK_SIZE`. -/
def blockSize : ℕ := 16384

/-- How many blocks a piece of `pLen` bytes has (`PieceRequestManagerActor::new`). -/
def noOfBlocks (pLen : ℕ) : ℕ :=
  if pLen % 16384 = 0 then pLen / 16384 else pLen / 16384 + 1

/-- The size of the last block of a piece of `pLen` bytes (`PieceRequestManagerActor::new`). -/
def lastBlockSize (pLen : ℕ) : ℕ := if pLen % 16384 = 0 then 16384 else pLen % 16384

/-- `PieceRequestManagerActor`. -/
structure PieceRequestManagerActor where
  inFlightTimers : HashMap ℕ Instant
  lastPieceSize : ℕ
  /-- all the blocks received so far -/
  downloadedBlocks : Bitfield
  /-- the blocks handed out but not received -/
  blocksInFlight : Bitfield
  requiredBlocks : Bitfield
  data : Bytes
  hash : Bytes
  /-- in seconds -/
  blockRequestTimeout : ℕ
  lastPieceSize_eq : lastPieceSize = lastBlockSize data.length
  length_downloaded : downloadedBlocks.length = noOfBlocks data.length
  length_inFlight : blocksInFlight.length = noOfBlocks data.length
  length_required : requiredBlocks.length = noOfBlocks data.length
  timers_lt : ∀ idx ∈ inFlightTimers, idx < noOfBlocks data.length

/-- What handling one `BlockRecived` comes to: the piece is not complete yet, its hash
matches, or it is complete with a wrong hash and starts over. -/
inductive BlockOutcome
  | pending
  | verified
  | reset
  deriving DecidableEq, Repr

namespace PieceRequestManagerActor

/-- `PieceRequestManagerActor::new`. -/
def new (pLen : ℕ) (hash : Bytes) (blockRequestTimeout : ℕ) : PieceRequestManagerActor where
  inFlightTimers := ∅
  lastPieceSize := lastBlockSize pLen
  downloadedBlocks := Bitfield.zeros (noOfBlocks pLen)
  blocksInFlight := Bitfield.zeros (noOfBlocks pLen)
  requiredBlocks := List.replicate (noOfBlocks pLen) true
  data := List.replicate pLen 0
  hash := hash
  blockRequestTimeout := blockRequestTimeout
  lastPieceSize_eq := by simp
  length_downloaded := by simp
  length_inFlight := by simp
  length_required := by simp
  timers_lt := fun _ h => (Finmap.notMem_empty h).elim

/-- `convert_block_offset_to_index`. -/
def convertBlockOffsetToIndex (offset : ℕ) : ℕ := offset / blockSize

/-- `convert_block_index_to_offset`. -/
def convertBlockIndexToOffset (index : ℕ) : ℕ := index * blockSize

/-- The guard of the hand-out loop: required, not in flight and not downloaded. -/
def requestable (s : PieceRequestManagerActor) (idx : ℕ) : Bool :=
  s.requiredBlocks.getD idx false && !s.blocksInFlight.getD idx false &&
    !s.downloadedBlocks.getD idx false

/-- Only a block of the piece is requestable. -/
theorem lt_of_requestable {s : PieceRequestManagerActor} {idx : ℕ}
    (h : s.requestable idx = true) : idx < noOfBlocks s.data.length := by
  simp only [requestable, Bool.and_eq_true] at h
  rw [← s.length_required]
  exact Bitfield.lt_length_of_getD h.1.1

/-- The length that is asked for block `idx`. -/
def blockLength (s : PieceRequestManagerActor) (idx : ℕ) : ℕ :=
  if idx = s.requiredBlocks.length - 1 then s.lastPieceSize else 16384

/-- Block `idx` goes in flight and its timer starts. -/
def handOut (s : PieceRequestManagerActor) (idx : ℕ) (now : Instant)
    (h : idx < noOfBlocks s.data.length) : PieceRequestManagerActor :=
  { s with
    blocksInFlight := s.blocksInFlight.set idx true
    inFlightTimers := s.inFlightTimers.insert idx now
    length_inFlight := by rw [List.length_set, s.length_inFlight]
    timers_lt := fun i hi => by
      rcases Finmap.mem_insert.mp hi with rfl | hi
      · exact h
      · exact s.timers_lt i hi }

/-- The loop of the `BlocksToRequest` arm over the block indices. `clock idx` is what
`Instant::now()` returns when block `idx` is handed out. -/
def blocksToRequestLoop (numberOfBlocks : ℕ) (clock : ℕ → Instant) :
    List ℕ → PieceRequestManagerActor → List (ℕ × ℕ) →
      PieceRequestManagerActor × List (ℕ × ℕ)
  | [], s, out => (s, out)
  | idx :: rest, s, out =>
    if numberOfBlocks ≤ out.length then (s, out)
    else if h : s.requestable idx = true then
      blocksToRequestLoop numberOfBlocks clock rest
        (s.handOut idx (clock idx) (lt_of_requestable h))
        (out ++ [(convertBlockIndexToOffset idx, s.blockLength idx)])
    else blocksToRequestLoop numberOfBlocks clock rest s out

/-- The `BlocksToRequest` arm. -/
def blocksToRequest (s : PieceRequestManagerActor) (numberOfBlocks : ℕ) (clock : ℕ → Instant) :
    PieceRequestManagerActor × List (ℕ × ℕ) :=
  blocksToRequestLoop numberOfBlocks clock (List.range s.requiredBlocks.length) s []

/-- The first lines of the `BlockRecived` arm: timer and flags of the block. -/
def markReceived (s : PieceRequestManagerActor) (blockIndex : ℕ) : PieceRequestManagerActor :=
  { s with
    inFlightTimers := s.inFlightTimers.erase blockIndex
    requiredBlocks := s.requiredBlocks.set blockIndex false
    blocksInFlight := s.blocksInFlight.set blockIndex false
    downloadedBlocks := s.downloadedBlocks.set blockIndex true
    length_downloaded := by rw [List.length_set, s.length_downloaded]
    length_inFlight := by rw [List.length_set, s.length_inFlight]
    length_required := by rw [List.length_set, s.length_required]
    timers_lt := fun i hi => s.timers_lt i (Finmap.mem_erase.mp hi).2 }

/-- The buffer after a block: the data go to the start of the block, unless they reach
past the end of the buffer. -/
def storedData (buffer : Bytes) (blockIndex : ℕ) (data : Bytes) : Bytes :=
  if blockIndex * 16384 + data.length ≤ buffer.length then
    writeAt 0 buffer (blockIndex * 16384) data
  else buffer

/-- Storing a block does not change the length of the buffer. -/
@[simp] theorem length_storedData (buffer : Bytes) (blockIndex : ℕ) (data : Bytes) :
    (storedData buffer blockIndex data).length = buffer.length := by
  unfold storedData
  split_ifs with h
  · by_cases hd : data = []
    · simp [hd]
    · rw [length_writeAt 0 buffer _ hd]
      omega
  · rfl

/-- The buffer of the actor after a block. -/
def storeBlock (s : PieceRequestManagerActor) (blockIndex : ℕ) (data : Bytes) :
    PieceRequestManagerActor :=
  { s with
    data := storedData s.data blockIndex data
    lastPieceSize_eq := by rw [length_storedData, s.lastPieceSize_eq]
    length_downloaded := by rw [length_storedData, s.length_downloaded]
    length_inFlight := by rw [length_storedData, s.length_inFlight]
    length_required := by rw [length_storedData, s.length_required]
    timers_lt := fun i hi => by rw [length_storedData]; exact s.timers_lt i hi }

/-- The piece starts over after a hash mismatch; the buffer keeps its bytes. -/
def resetPiece (s : PieceRequestManagerActor) : PieceRequestManagerActor :=
  { s with
    downloadedBlocks := s.downloadedBlocks.map fun _ => false
    requiredBlocks := s.requiredBlocks.map fun _ => true
    blocksInFlight := s.blocksInFlight.map fun _ => false
    inFlightTimers := ∅
    length_downloaded := by rw [List.length_map, s.length_downloaded]
    length_inFlight := by rw [List.length_map, s.length_inFlight]
    length_required := by rw [List.length_map, s.length_required]
    timers_lt := fun _ h => (Finmap.notMem_empty h).elim }

/-- The `BlockRecived` arm; `none` when the block index is outside the bit vectors, where
`set` panics. `piece_done_sender` answers `true` on `verified` and is dropped otherwise. -/
def blockRecived (sha1 : Bytes → Bytes) (s : PieceRequestManagerActor) (blockOffset : ℕ)
    (data : Bytes) : Option (PieceRequestManagerActor × BlockOutcome) :=
  let blockIndex := convertBlockOffsetToIndex blockOffset
  if blockIndex < s.requiredBlocks.length then
    let stored := (s.markReceived blockIndex).storeBlock blockIndex data
    if stored.downloadedBlocks.all id then
      if sha1 stored.data = stored.hash then some (stored, .verified)
      else some (stored.resetPiece, .reset)
    else some (stored, .pending)
  else none

/-- The `GetData` arm. -/
def getData (s : PieceRequestManagerActor) (startOffset endOffset : ℕ) : Bytes :=
  if endOffset ≤ s.data.length ∧ startOffset ≤ endOffset then
    (s.data.drop startOffset).take (endOffset - startOffset)
  else []

/-- The `GetDataWithLen` arm. -/
def getDataWithLen (s : PieceRequestManagerActor) (startOffset len : ℕ) : Bytes :=
  let endOffset := startOffset + len
  if endOffset ≤ s.data.length ∧ startOffset ≤ endOffset then
    (s.data.drop startOffset).take (endOffset - startOffset)
  else []

/-- A timer that is older than `block_request_timeout` at the instant `now`. -/
def timerExpired (s : PieceRequestManagerActor) (now : Instant) (idx : ℕ) : Bool :=
  match s.inFlightTimers.lookup idx with
  | some time => decide (fromSecs s.blockRequestTimeout < now.durationSince time)
  | none => false

/-- The ticker arm: every expired block leaves the flight and loses its timer. The order in
which the map yields them does not matter. -/
def tick (s : PieceRequestManagerActor) (now : Instant) : PieceRequestManagerActor :=
  { s with
    blocksInFlight := s.blocksInFlight.mapIdx fun idx b => if s.timerExpired now idx then false else b
    inFlightTimers := s.inFlightTimers.filterMapVals fun idx time =>
      if s.timerExpired now idx then none else some time
    length_inFlight := by rw [List.length_mapIdx, s.length_inFlight]
    timers_lt := fun i hi => by
      obtain ⟨time, htime⟩ := Finmap.mem_iff.mp hi
      rw [HashMap.lookup_filterMapVals, Option.bind_eq_some_iff] at htime
      obtain ⟨time', htime', -⟩ := htime
      exact s.timers_lt i (Finmap.mem_of_lookup_eq_some htime') }

end PieceRequestManagerActor

/-- `PieceRequestManagerMessage`; the senders of the replies are the results of `pieceStep`. -/
inductive PieceRequestManagerMessage
  | blocksToRequest (numberOfBlocks : ℕ)
  | blockRecived (blockOffset : ℕ) (data : Bytes)
  | getData (startOffset endOffset : ℕ)
  | getDataWithLen (startOffset len : ℕ)

/-- What the `select!` of `PieceRequestManagerActor::run` takes next: a message, with the
clock it is handled under, or a tick. -/
inductive PieceEvent
  | recv (msg : PieceRequestManagerMessage) (clock : ℕ → Instant)
  | tick (now : Instant)

/-- What goes back to the sender. -/
inductive PieceReply
  | blocks (l : List (ℕ × ℕ))
  | done (outcome : BlockOutcome)
  | bytes (b : Bytes)
  | none

/-- What `PieceRequestManager::block_recvied` returns: a dropped sender reads as `false`. -/
def PieceReply.blockRecvied : PieceReply → Bool
  | .done .verified => true
  | _ => false

/-- One round of the loop in `PieceRequestManagerActor::run`, `none` when it panics. -/
def pieceStep (sha1 : Bytes → Bytes) (s : PieceRequestManagerActor) :
    PieceEvent → Option (PieceRequestManagerActor × PieceReply)
  | .recv (.blocksToRequest k) clock =>
    let (t, l) := s.blocksToRequest k clock
    some (t, .blocks l)
  | .recv (.blockRecived off data) _ =>
    (s.blockRecived sha1 off data).map fun (t, outcome) => (t, .done outcome)
  | .recv (.getData start stop) _ => some (s, .bytes (s.getData start stop))
  | .recv (.getDataWithLen start len) _ => some (s, .bytes (s.getDataWithLen start len))
  | .tick now => some (s.tick now, .none)

end Fissure.Model
