import Fissure.Analysis.SystemInvariant

/-!
# Persisted pieces carry their digest

The manager logs a piece when its flush has succeeded. The bytes on disk then hash to the digest
of the piece in every run in which no block changes a verified buffer before it is flushed, as long
as no two entries of the list of files lead to one file (`logged_pieces_verified`). The code sees to
neither: a piece actor stores a block that arrives after it verified its piece, and the flush reads
what is there by then (`late_block_persisted`); and files are opened by path, whatever the paths are
(`shared_file_persisted`).
-/

set_option autoImplicit false

namespace Fissure.Analysis

open Fissure.Library Fissure.Model Fissure.Interface

/-- The bytes on disk in the range of piece `p` hash to its digest. -/
def HashMatches (sha1 : Bytes → Bytes) (m : MetaInfo) (disk : DiskManagerActor) (p : ℕ) : Prop :=
  ∃ length ∈ m.getPieceLength p,
    ∃ bytes ∈ bytesAt (stream disk) (p * m.info.pieceLength) length,
      m.getPieceHash p = some (sha1 bytes)

/-- When a step appends to `downloaded_piece_index`, it appends the piece that is being finished,
and the bytes on disk match its digest. -/
def VerifiedWhenLogged (sha1 : Bytes → Bytes) (m : MetaInfo) (s : TorrentSystem)
    (e : SystemEvent) : Prop :=
  ∀ t ∈ (systemStep sha1 s e).map Prod.fst,
    t.manager.downloadedPieceIndex ≠ s.manager.downloadedPieceIndex →
      ∃ f ∈ s.finishing,
        t.manager.downloadedPieceIndex =
          s.manager.downloadedPieceIndex ++ [f.index % 2 ^ 32] ∧
        HashMatches sha1 m t.disk f.index

instance (sha1 : Bytes → Bytes) (m : MetaInfo) (disk : DiskManagerActor) (p : ℕ) :
    Decidable (HashMatches sha1 m disk p) :=
  inferInstanceAs (Decidable (∃ length ∈ m.getPieceLength p, ∃ bytes ∈ bytesAt _ _ length, _))

instance (sha1 : Bytes → Bytes) (m : MetaInfo) (s : TorrentSystem) (e : SystemEvent) :
    Decidable (VerifiedWhenLogged sha1 m s e) :=
  inferInstanceAs (Decidable (∀ t ∈ (systemStep sha1 s e).map Prod.fst, _))

section

variable {sha1 : Bytes → Bytes} {torrent : ClientTorrentMetaInfo} {options : PeerOptions}
  {s t : TorrentSystem}

/-- INTERNAL: when a flush is done the disk carries the bytes that hash to the digest. -/
theorem Flushing.hashMatches {m : MetaInfo} {disk : DiskManagerActor}
    {actor : Option PieceRequestManagerActor} {p : ℕ} {job : FlushJob} {flushResult : Bool}
    (hdisk : DiskOf m disk) (h : Flushing sha1 m disk actor ⟨p, job, some flushResult⟩) :
    HashMatches sha1 m disk p := by
  obtain ⟨hmanages, -, -, -, data, hlen, hsha, hcarries, -, hdone⟩ := h
  dsimp only at hmanages hlen hsha hcarries hdone
  have hstart : jobStart disk job = p * m.info.pieceLength := by
    unfold jobStart
    rw [hmanages.index_eq, hdisk.stdPieceLen_eq]
  rw [hdone rfl, ← hlen, List.take_length, hstart] at hcarries
  refine ⟨_, hmanages.pieceLength_eq, data, ?_, ?_⟩
  · rw [← hlen]
    exact bytesAt_of_carries hcarries
  · rw [hsha]
    exact hmanages.sha1Hash_eq

/-- INTERNAL: in a state with the invariant only the end of a `PieceFinish` appends to the log, and
what it appends is on disk.
SOURCE: torrent_manager.rs:264-272 -/
theorem verifiedWhenLogged (hs : SystemInv sha1 torrent options s) (e : SystemEvent) :
    VerifiedWhenLogged sha1 torrent.rawTorrent s e := by
  intro t ht hlog
  obtain ⟨⟨t, r⟩, hstep, rfl⟩ := Option.map_eq_some_iff.mp ht
  cases manager_of_systemStep hstep with
  | stays h => exact absurd (by rw [h]) hlog
  | handles msg env reply hmsg h =>
    exact absurd (owned_log_of_not_pieceFinish h hmsg).2 hlog
  | begins p last h => exact absurd (log_pieceFinishBegin h).1 hlog
  | ends p job flushResult hf hdisk h =>
    cases flushResult with
    | false => exact absurd (by rw [h]; rfl) hlog
    | true =>
      refine ⟨_, hf, by rw [h]; rfl, ?_⟩
      have hruns : s.diskEnded = false := hs.answered _ true hf rfl
      rw [hdisk]
      exact (hs.finishing _ hf hruns).hashMatches (hs.disk hruns)

/-- When no two entries of the list of files lead to one file: in every run in which no block changes
what is still to be flushed of a verified buffer and no write fails without being reported, the
bytes on disk of every piece that is logged hash to its digest at that moment. -/
theorem logged_pieces_verified {fileSystem : FileSystem} {downloadPath : PathBuf}
    {start : TorrentSystem} (hmeta : torrent.rawTorrent.WellSized)
    (hfiles : torrent.rawTorrent.localFiles = some torrent.files)
    (hseparate : Separate (entries fileSystem downloadPath torrent.files))
    (hstart : TorrentSystem.new torrent options fileSystem downloadPath = some start)
    {es : List SystemEvent} (hes : AllSteps (systemStep sha1) Unharmed start es) :
    AllSteps (systemStep sha1) (VerifiedWhenLogged sha1 torrent.rawTorrent) start es :=
  allSteps_of_invariant (SystemInv sha1 torrent options)
    (fun _ _ _ _ hs hcalm hstep => systemInv_step hmeta hs hcalm hstep)
    (fun _ e hs _ => verifiedWhenLogged hs e) (systemInv_new hfiles hseparate hstart) hes

end

/-! ## A block that comes too late -/

/-- A hash that tells one byte from everything else. -/
def toySha1 (bytes : Bytes) : Bytes := if bytes = [1] then List.replicate 20 7 else []

/-- A torrent of one piece, the byte one. -/
def oneByte : ClientTorrentMetaInfo := byteTorrent 1 (List.replicate 20 7)

/-- Its system, with an empty file. -/
def oneByteStart : TorrentSystem :=
  (TorrentSystem.new oneByte {} .empty "dl".toList).get (by decide +kernel)

/-- Two peers work on the piece. The first one completes it, and before it is flushed the block of
the second one arrives, with the byte `late`. -/
def lateBlockRun (late : UInt8) : List SystemEvent :=
  [.connect "first" .quiet, .connect "second" .quiet,
    .recv (.addBitFeild "first" [true]) .quiet, .recv (.addBitFeild "second" [true]) .quiet,
    .requestPiece 0 .quiet, .insertRequest 0, .requestPiece 1 .quiet, .insertRequest 1,
    .piece 0 0 0 [1], .piece 1 0 0 [late], .blockRecived 0, .blockRecived 1,
    .pieceFinish 0, .pieceFinishBegin 0, .flushRound .ok, .flushRound .ok, .pieceFinishEnd]

/-- The state after a wrong block came late. -/
def lateBlockState : TorrentSystem :=
  (run (systemStep toySha1) oneByteStart (lateBlockRun 2)).get (by decide +kernel)

/-- The piece is logged, and the byte on disk is the wrong one. -/
theorem late_block_persisted :
    run (systemStep toySha1) oneByteStart (lateBlockRun 2) = some lateBlockState ∧
      lateBlockState.manager.downloadedPieceIndex = [0] ∧
      bytesAt (stream lateBlockState.disk) 0 1 = some [2] ∧
      ¬ AllSteps (systemStep toySha1) (VerifiedWhenLogged toySha1 oneByte.rawTorrent)
        oneByteStart (lateBlockRun 2) := by
  refine ⟨(Option.some_get _).symm, ?_, ?_, ?_⟩
  · decide +kernel
  · decide +kernel
  · decide +kernel

/-- The same run with a block that comes late and is right. -/
theorem logged_pieces_verified_oneByte :
    (run (systemStep toySha1) oneByteStart (lateBlockRun 1)).isSome = true ∧
      AllSteps (systemStep toySha1) (VerifiedWhenLogged toySha1 oneByte.rawTorrent) oneByteStart
        (lateBlockRun 1) := by
  have hmeta : oneByte.rawTorrent.WellSized :=
    (consistent_byteTorrent (by decide) (by decide)).toWellSized
  have hseparate : Separate (entries .empty "dl".toList oneByte.files) := by decide +kernel
  have hcalm : AllSteps (systemStep toySha1) Unharmed oneByteStart (lateBlockRun 1) := by
    decide +kernel
  refine ⟨by decide +kernel, ?_⟩
  exact logged_pieces_verified hmeta (by decide +kernel) hseparate (Option.some_get _).symm hcalm

/-! ## Two entries that are one file -/

/-- A hash that tells four bytes from everything else. -/
def fourBytesSha1 (bytes : Bytes) : Bytes :=
  if bytes = [1, 2, 3, 4] then List.replicate 20 0 else []

/-- The torrent of two files with one path. -/
def sharedFile : ClientTorrentMetaInfo :=
  ⟨equalPaths, equalPaths.localFiles.get (by decide +kernel), []⟩

/-- Its system, with an empty file. -/
def sharedFileStart : TorrentSystem :=
  (TorrentSystem.new sharedFile {} .empty "dl".toList).get (by decide +kernel)

/-- One peer sends the only block of the piece. -/
def sharedFileRun : List SystemEvent :=
  [.connect "peer" .quiet, .recv (.addBitFeild "peer" [true]) .quiet,
    .requestPiece 0 .quiet, .insertRequest 0, .piece 0 0 0 [1, 2, 3, 4], .blockRecived 0,
    .pieceFinish 0, .pieceFinishBegin 0, .flushRound .ok, .flushRound .ok, .flushRound .ok,
    .pieceFinishEnd]

/-- The run is unharmed, and the piece that is logged in it does not hash to its digest. -/
theorem shared_file_persisted :
    AllSteps (systemStep fourBytesSha1) Unharmed sharedFileStart sharedFileRun ∧
      ¬ AllSteps (systemStep fourBytesSha1) (VerifiedWhenLogged fourBytesSha1 equalPaths)
        sharedFileStart sharedFileRun :=
  ⟨by decide +kernel, by decide +kernel⟩

end Fissure.Analysis
