import Fissure.Library.SparseFile
import Fissure.Model.TorrentManager

/-!
# The disk actor

`managers/disk_manager.rs`. One `DiskManagerActor` holds the open files of a torrent, in the
order of the metainfo, each with the offset of its first byte in the content. A piece is flushed
by a loop over the files that asks the piece actor for one slice after the other (`flushRound` is
one round of it), and a range of a piece is read back by a second loop (`readRound`).

A file is the array of its bytes. The files are opened by path, so two entries of the list whose
paths lead to one file share its bytes; to which file a path leads is up to the file system. Offsets
are exact, as they are as long as the content fits `u64`. What the operating system and tokio answer
in a round comes as an `IoOutcome`; after an error that is reported the actor returns.
-/

set_option autoImplicit false

namespace Fissure.Model

open Fissure.Library

/-- The offsets at which files of these sizes begin, the first one at `byteOffset`. -/
def startOffsets (byteOffset : ℕ) : List ℕ → List ℕ
  | [] => []
  | size :: sizes => byteOffset :: startOffsets (byteOffset + size) sizes

/-- The file system. Paths that lead to one file, because they are equal or by `.`, `..` and links,
have one path that stands for the file. -/
structure FileSystem where
  /-- the file that is opened at a path, created if need be; `none` when that fails -/
  fileAt : PathBuf → Option PathBuf
  content : PathBuf → Bytes

/-- A file system in which every path leads to a file of its own, which is empty at first. -/
def FileSystem.empty : FileSystem := ⟨some, fun _ => []⟩

/-- `DiskManagerActor`, with what the files hold. -/
structure DiskManagerActor where
  stdPieceLen : ℕ
  files : List LocalFile
  /-- the offset of each file's first byte, and the file that was opened -/
  handles : List (ℕ × PathBuf)
  disk : PathBuf → Bytes
  handles_fst : handles.map Prod.fst = startOffsets 0 (files.map LocalFile.size)

/-- What becomes of the seek and the transfer in one round of a loop. tokio's `write_all` hands the
bytes on and does not wait until they are written, so a write that fails is reported either in its
own round or by a later write to the file. A write that fails may have written some bytes. -/
inductive IoOutcome
  | ok
  | seekError
  | transferError (written : ℕ)
  /-- `write_all` returns `Ok`, and the write fails after that; a later write to the file, which
  reports it, has a `transferError` -/
  | lateError (written : ℕ)
  deriving DecidableEq, Repr

/-- What is written of `data` when a write of it fails. -/
def failedWrite (data : Bytes) (written : ℕ) : Bytes := data.dropLast.take written

/-- The bytes of `data` that are written in a round with this outcome. -/
def writtenOf (io : IoOutcome) (data : Bytes) : Bytes :=
  match io with
  | .ok => data
  | .seekError => []
  | .transferError written => failedWrite data written
  | .lateError written => failedWrite data written

/-- What a loop does at one file: `break`, `continue`, or move `count` bytes at `offset`. -/
inductive Span
  | done
  | skip
  | part (offset count : ℕ)
  deriving DecidableEq, Repr

namespace DiskManagerActor

/-- The loop over the files in `DiskManagerActor::new`: each is opened at
`base_path.join(file.path)`. -/
def openFiles (fileSystem : FileSystem) (downloadPath : PathBuf) :
    ℕ → List LocalFile → Option (List (ℕ × PathBuf))
  | _, [] => some []
  | byteOffset, file :: files => do
    let handle ← fileSystem.fileAt (downloadPath.push file.path)
    let handles ← openFiles fileSystem downloadPath (byteOffset + file.size) files
    some ((byteOffset, handle) :: handles)

theorem openFiles_fst {fileSystem : FileSystem} {downloadPath : PathBuf} {byteOffset : ℕ}
    {files : List LocalFile} {handles : List (ℕ × PathBuf)}
    (h : openFiles fileSystem downloadPath byteOffset files = some handles) :
    handles.map Prod.fst = startOffsets byteOffset (files.map LocalFile.size) := by
  induction files generalizing byteOffset handles with
  | nil =>
    cases h
    rfl
  | cons file files ih =>
    unfold openFiles at h
    simp only [Option.bind_eq_bind, Option.bind_eq_some_iff, Option.some.injEq] at h
    obtain ⟨handle, -, rest, hrest, rfl⟩ := h
    rw [List.map_cons, List.map_cons, startOffsets, ih hrest]

/-- `DiskManagerActor::new`; `none` when a directory cannot be created or a file not opened. -/
def new (fileSystem : FileSystem) (downloadPath : PathBuf) (files : List LocalFile)
    (stdPieceLen : ℕ) : Option DiskManagerActor :=
  match h : openFiles fileSystem downloadPath 0 files with
  | some handles => some ⟨stdPieceLen, files, handles, fileSystem.content, openFiles_fst h⟩
  | none => none

theorem new_eq_some {fileSystem : FileSystem} {downloadPath : PathBuf} {files : List LocalFile}
    {stdPieceLen : ℕ} {s : DiskManagerActor}
    (h : new fileSystem downloadPath files stdPieceLen = some s) :
    s.stdPieceLen = stdPieceLen ∧ s.files = files ∧ s.disk = fileSystem.content ∧
      openFiles fileSystem downloadPath 0 files = some s.handles := by
  unfold new at h
  split at h
  · next handles hopen =>
    cases h
    exact ⟨rfl, rfl, rfl, hopen⟩
  · cases h

/-- The paths at which the loop in `DiskManagerActor::new` creates directories and opens files; it
ends with the first file that cannot be opened. -/
def openedPaths (fileSystem : FileSystem) (downloadPath : PathBuf) :
    List LocalFile → List PathBuf
  | [] => []
  | file :: files =>
    let path := downloadPath.push file.path
    path ::
      if (fileSystem.fileAt path).isSome then openedPaths fileSystem downloadPath files else []

/-- The guards of the loop in the `FlushPieceToDisk` arm, at the file that begins at
`fileStartOffset`. -/
def flushSpan (startByteOffset endByteOffset bytesPending fileStartOffset fileSize : ℕ) : Span :=
  let fileEndOffset := fileStartOffset + fileSize
  if bytesPending = 0 then .done
  else if fileEndOffset ≤ startByteOffset then .skip
  else if endByteOffset ≤ fileStartOffset then .done
  else
    let writeOffset :=
      if startByteOffset < fileStartOffset then 0 else startByteOffset - fileStartOffset
    let bytesRemainingInFile := fileEndOffset - (fileStartOffset + writeOffset)
    let maxBytesInThisFile :=
      if bytesRemainingInFile < bytesPending then bytesRemainingInFile else bytesPending
    .part writeOffset maxBytesInThisFile

/-- The guards of the loop in the `GetDataWithLength` arm. -/
def readSpan (startByteOffset endByteOffset bytesPending fileStartOffset fileSize : ℕ) : Span :=
  let fileEndOffset := fileStartOffset + fileSize
  if bytesPending = 0 then .done
  else if fileEndOffset ≤ startByteOffset then .skip
  else if endByteOffset ≤ fileStartOffset then .done
  else
    let readOffset :=
      if startByteOffset < fileStartOffset then 0 else startByteOffset - fileStartOffset
    let bytesRemainingInFile := fileEndOffset - (fileStartOffset + readOffset)
    let maxBytesWeCanReadFromThisFile :=
      if bytesRemainingInFile < bytesPending then bytesRemainingInFile else bytesPending
    .part readOffset maxBytesWeCanReadFromThisFile

/-- `data` is written at `offset` of the file behind handle `idx`. -/
def writeFile (s : DiskManagerActor) (idx offset : ℕ) (data : Bytes) : DiskManagerActor :=
  { s with
    disk :=
      match s.handles[idx]? with
      | some (_, path) => writeTo 0 s.disk path offset data
      | none => s.disk }

end DiskManagerActor

/-- A `FlushPieceToDisk` in progress: the piece, the next file of the loop and the bytes that are
not written yet. -/
structure FlushJob where
  pieceManager : PieceRequestManager
  idx : ℕ
  bytesPending : ℕ
  deriving DecidableEq, Repr

/-- The loop of the `FlushPieceToDisk` arm is about to begin. -/
def FlushJob.begin (pieceManager : PieceRequestManager) : FlushJob :=
  ⟨pieceManager, 0, pieceManager.pieceLength⟩

/-- The loop goes on with the next file; `count` bytes were written. -/
def FlushJob.advance (job : FlushJob) (count : ℕ) : FlushJob :=
  { job with idx := job.idx + 1, bytesPending := job.bytesPending - count }

/-- What one round of a loop of the actor leads to: the next round, the reply after the last one,
or an error that is reported, after which the actor replies and returns. -/
inductive Round (σ ρ : Type)
  | next (s : σ)
  | reply (r : ρ)
  | failed (s : σ)

namespace DiskManagerActor

/-- What the next round of a flush does. -/
def flushSpanOf (s : DiskManagerActor) (job : FlushJob) : Span :=
  let startByteOffset := job.pieceManager.index * s.stdPieceLen
  let endByteOffset := startByteOffset + job.pieceManager.pieceLength
  match s.handles[job.idx]?, s.files[job.idx]? with
  | some (fileStartOffset, _), some file =>
    flushSpan startByteOffset endByteOffset job.bytesPending fileStartOffset file.size
  | _, _ => .done

/-- The slice of the piece that a round of a flush asks the piece actor for. -/
def sliceOf (job : FlushJob) (count : ℕ) : ℕ × ℕ :=
  let pieceOffset := job.pieceManager.pieceLength - job.bytesPending
  (pieceOffset, pieceOffset + count)

/-- One round of the loop in the `FlushPieceToDisk` arm. `getData` answers the request for a
slice, as `get_data_with_offset` does. -/
def flushRound (s : DiskManagerActor) (job : FlushJob) (getData : ℕ → ℕ → Bytes)
    (io : IoOutcome) : Round (DiskManagerActor × FlushJob) Bool :=
  match s.flushSpanOf job with
  | .done => .reply true
  | .skip => .next (s, job.advance 0)
  | .part writeOffset maxBytesInThisFile =>
    let slice := sliceOf job maxBytesInThisFile
    let data := getData slice.1 slice.2
    match io with
    | .seekError => .failed (s, job)
    | .transferError written =>
      .failed (s.writeFile job.idx writeOffset (failedWrite data written), job)
    | .lateError written =>
      .next (s.writeFile job.idx writeOffset (failedWrite data written),
        job.advance maxBytesInThisFile)
    | .ok => .next (s.writeFile job.idx writeOffset data, job.advance maxBytesInThisFile)

/-- What a flush comes to: the files and the reply, and, for the record, the slices it asked for
and the bytes that it has written, one slice after the other. -/
structure FlushResult where
  actor : DiskManagerActor
  reply : Bool
  asked : List (ℕ × ℕ)
  written : Bytes

/-- The rounds of a flush that are left; `getData` and `io` are what happens in the round at each
file. The loop ends with the list of the files. -/
def flushLoop (getData : ℕ → ℕ → ℕ → Bytes) (io : ℕ → IoOutcome) :
    ℕ → DiskManagerActor → FlushJob → FlushResult
  | 0, s, _ => ⟨s, true, [], []⟩
  | rounds + 1, s, job =>
    match s.flushRound job (getData job.idx) (io job.idx) with
    | .reply r => ⟨s, r, [], []⟩
    | .failed (s, _) => ⟨s, false, [], []⟩
    | .next (t, next) =>
      let result := flushLoop getData io rounds t next
      match s.flushSpanOf job with
      | .part _ count =>
        let slice := sliceOf job count
        { result with
          asked := slice :: result.asked
          written := writtenOf (io job.idx) (getData job.idx slice.1 slice.2) ++ result.written }
      | _ => result

/-- The `FlushPieceToDisk` arm. -/
def flushPieceToDisk (s : DiskManagerActor) (pieceManager : PieceRequestManager)
    (getData : ℕ → ℕ → ℕ → Bytes) (io : ℕ → IoOutcome) : FlushResult :=
  flushLoop getData io s.handles.length s (.begin pieceManager)

/-- One round of the loop in the `GetDataWithLength` arm: the range that is asked for, the next
file, the bytes still to read and those read already. `read_exact` fails when the file is too
short. -/
def readRound (s : DiskManagerActor) (startByteOffset endByteOffset idx bytesPending : ℕ)
    (data : Bytes) (io : IoOutcome) : Round (ℕ × Bytes) Bytes :=
  match s.handles[idx]?, s.files[idx]? with
  | some (fileStartOffset, path), some file =>
    match readSpan startByteOffset endByteOffset bytesPending fileStartOffset file.size with
    | .done => .reply data
    | .skip => .next (bytesPending, data)
    | .part readOffset count =>
      match io, readExact (s.disk path) readOffset count with
      | .ok, some buffer => .next (bytesPending - count, data ++ buffer)
      | _, _ => .failed (bytesPending, data)
  | _, _ => .reply data

/-- The rounds of a read that are left, from the file `idx` on. -/
def readLoop (s : DiskManagerActor) (startByteOffset endByteOffset : ℕ) (io : ℕ → IoOutcome) :
    ℕ → ℕ → ℕ → Bytes → Option Bytes
  | 0, _, _, data => some data
  | rounds + 1, idx, bytesPending, data =>
    match s.readRound startByteOffset endByteOffset idx bytesPending data (io idx) with
    | .reply data => some data
    | .failed _ => none
    | .next (bytesPending, data) =>
      s.readLoop startByteOffset endByteOffset io rounds (idx + 1) bytesPending data

/-- The `GetDataWithLength` arm. -/
def getDataWithLength (s : DiskManagerActor) (pieceIndex offset length : ℕ)
    (io : ℕ → IoOutcome) : Option Bytes :=
  let startByteOffset := pieceIndex * s.stdPieceLen + offset
  let endByteOffset := startByteOffset + length
  s.readLoop startByteOffset endByteOffset io s.handles.length 0 (endByteOffset - startByteOffset) []

end DiskManagerActor

/-- `DiskManagerMessage`, without the senders of the replies. -/
inductive DiskManagerMessage
  | flushPieceToDisk (pieceManager : PieceRequestManager)
  | getDataWithLength (pieceIndex offset length : ℕ)

/-- What goes back to the sender of a message when there was no error. -/
inductive DiskReply
  | flushed
  | data (d : Bytes)
  deriving DecidableEq, Repr

/-- A message with what happens in the rounds of its loop. -/
structure DiskEvent where
  msg : DiskManagerMessage
  getData : ℕ → ℕ → ℕ → Bytes
  io : ℕ → IoOutcome

/-- One round of the loop in `DiskManagerActor::run`, `none` when the actor replies `false` or
`None` and returns. -/
def diskStep (s : DiskManagerActor) (e : DiskEvent) : Option (DiskManagerActor × DiskReply) :=
  match e.msg with
  | .flushPieceToDisk pieceManager =>
    let result := s.flushPieceToDisk pieceManager e.getData e.io
    if result.reply then some (result.actor, .flushed) else none
  | .getDataWithLength pieceIndex offset length =>
    (s.getDataWithLength pieceIndex offset length e.io).map fun data => (s, .data data)

/-- `DiskManager::flush_piece_to_disk` and `DiskManager::get_data_with_length`. The actor is `none`
once it has returned; then the channel is closed and the dropped reply reads as `false` or `None`,
which is `none` here. -/
def diskRequest (actor : Option DiskManagerActor) (e : DiskEvent) :
    Option DiskManagerActor × Option DiskReply :=
  match actor.bind fun s => diskStep s e with
  | some (t, r) => (some t, some r)
  | none => (none, none)

end Fissure.Model
