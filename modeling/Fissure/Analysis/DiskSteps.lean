import Mathlib.Algebra.Order.Group.Nat
import Fissure.Interface.ContentStream
import Fissure.Model.DiskManager

/-!
# What the loops of the disk actor do

The files of the disk actor, one after the other, are one stream of bytes (`stream`). Both loops
advance a cursor from file to file: at the file that begins at `F` it stands at
`cursor start stop F`, the bytes before it are moved and the bytes after it are pending
(`flushSpan_spec`). So a flush changes the stream inside its piece only, however its writes end
(`flushPieceToDisk_keeps`), and one without errors overlays it with the bytes of the piece
(`flushPieceToDisk_spec`). Both need that no two files of the list are one.
-/

set_option autoImplicit false

namespace Fissure.Analysis

open Fissure.Library Fissure.Model Fissure.Interface
open Fissure.Model.DiskManagerActor

/-! ## The files as one stream -/

/-- The entries of the list of files: their sizes, and the files that were opened. -/
def segments (s : DiskManagerActor) : List (ℕ × PathBuf) :=
  List.zipWith (fun file handle => (file.size, handle.2)) s.files s.handles

/-- The stream the files form. -/
def stream (s : DiskManagerActor) : Stream := elementAt s.disk (segments s)

/-- The size of all files. -/
def totalSize (s : DiskManagerActor) : ℕ := (s.files.map LocalFile.size).sum

/-- The address of the first byte of file `j`. -/
def fileStart (s : DiskManagerActor) (j : ℕ) : ℕ := ((s.files.map LocalFile.size).take j).sum

theorem length_startOffsets (byteOffset : ℕ) (sizes : List ℕ) :
    (startOffsets byteOffset sizes).length = sizes.length := by
  induction sizes generalizing byteOffset with
  | nil => rfl
  | cons size sizes ih => rw [startOffsets, List.length_cons, List.length_cons, ih]

theorem getElem?_startOffsets {byteOffset j : ℕ} {sizes : List ℕ} (hj : j < sizes.length) :
    (startOffsets byteOffset sizes)[j]? = some (byteOffset + (sizes.take j).sum) := by
  induction sizes generalizing byteOffset j with
  | nil => simp at hj
  | cons size sizes ih =>
    rw [startOffsets]
    cases j with
    | zero => simp
    | succ j =>
      rw [List.getElem?_cons_succ, ih (by simpa using hj), List.take_succ_cons, List.sum_cons,
        Nat.add_assoc]

theorem length_handles (s : DiskManagerActor) : s.handles.length = s.files.length := by
  have hlen := congrArg List.length s.handles_fst
  rwa [List.length_map, length_startOffsets, List.length_map] at hlen

@[simp] theorem segments_writeFile (s : DiskManagerActor) (idx offset : ℕ) (data : Bytes) :
    segments (s.writeFile idx offset data) = segments s := rfl

theorem disk_writeFile {s : DiskManagerActor} {j start : ℕ} {path : PathBuf}
    (hhandle : s.handles[j]? = some (start, path)) (offset : ℕ) (data : Bytes) :
    (s.writeFile j offset data).disk = writeTo 0 s.disk path offset data := by
  unfold writeFile
  rw [hhandle]

@[simp] theorem writeFile_nil (s : DiskManagerActor) (idx offset : ℕ) :
    s.writeFile idx offset [] = s := by
  unfold writeFile
  cases s.handles[idx]? with
  | none => rfl
  | some handle => simp

theorem length_segments (s : DiskManagerActor) : (segments s).length = s.handles.length := by
  unfold segments
  rw [List.length_zipWith, length_handles, Nat.min_self]

theorem segments_fst (s : DiskManagerActor) :
    (segments s).map Prod.fst = s.files.map LocalFile.size := by
  apply List.ext_getElem?
  intro k
  unfold segments
  simp only [List.getElem?_map, List.getElem?_zipWith]
  by_cases hk : k < s.files.length
  · have hk' : k < s.handles.length := by rwa [length_handles]
    simp [List.getElem?_eq_getElem hk, List.getElem?_eq_getElem hk']
  · simp [List.getElem?_eq_none (Nat.not_lt.mp hk)]

theorem startOf_segments (s : DiskManagerActor) (j : ℕ) :
    startOf (segments s) j = fileStart s j := by
  unfold startOf fileStart
  rw [List.map_take, segments_fst]

theorem fileStart_length (s : DiskManagerActor) :
    fileStart s s.handles.length = totalSize s := by
  unfold fileStart totalSize
  rw [length_handles, ← List.length_map (f := LocalFile.size), List.take_length]

theorem fileStart_mono (s : DiskManagerActor) {i j : ℕ} (h : i ≤ j) :
    fileStart s i ≤ fileStart s j := by
  unfold fileStart
  exact List.Sublist.sum_le_sum (List.take_sublist_take_left h) fun _ _ => Nat.zero_le _

theorem fileStart_le_totalSize (s : DiskManagerActor) (j : ℕ) : fileStart s j ≤ totalSize s := by
  unfold fileStart totalSize
  exact List.Sublist.sum_le_sum (List.take_sublist j _) fun _ _ => Nat.zero_le _

/-- INTERNAL: the file at an index that the loops reach, its size and its first address. -/
theorem exists_file {s : DiskManagerActor} {j : ℕ} (hj : j < s.handles.length) :
    ∃ file path, s.files[j]? = some file ∧
      s.handles[j]? = some (fileStart s j, path) ∧
      (segments s)[j]? = some (file.size, path) ∧
      fileStart s (j + 1) = fileStart s j + file.size := by
  have hj' : j < s.files.length := by rwa [← length_handles]
  have hfile := List.getElem?_eq_getElem hj'
  have hhandle := List.getElem?_eq_getElem hj
  have hsize : (s.files.map LocalFile.size)[j]? = some s.files[j].size := by
    rw [List.getElem?_map, hfile, Option.map_some]
  have hstart : s.handles[j].1 = fileStart s j := by
    have hfst := congrArg (·[j]?) s.handles_fst
    simp only [List.getElem?_map, hhandle, Option.map_some] at hfst
    rw [getElem?_startOffsets (by rwa [List.length_map]), Option.some.injEq, Nat.zero_add] at hfst
    exact hfst
  refine ⟨s.files[j], s.handles[j].2, hfile, ?_, ?_, ?_⟩
  · rw [hhandle, ← hstart]
  · unfold segments
    rw [List.getElem?_zipWith, hfile, hhandle]
  · unfold fileStart
    rw [List.take_add_one, hsize, List.sum_append]
    rfl

/-- INTERNAL: reading inside a file reads what it holds. -/
theorem stream_file {s : DiskManagerActor} {j size k : ℕ} {path : PathBuf}
    (hseg : (segments s)[j]? = some (size, path)) (hk : k < size) :
    stream s (fileStart s j + k) = (s.disk path)[k]? := by
  rw [← startOf_segments]
  exact elementAt_segment s.disk hseg hk

/-! ## The cursor -/

/-- Where a loop over the range from `start` to `stop` stands at the file that begins at `F`. -/
def cursor (start stop F : ℕ) : ℕ := max start (min stop F)

/-- INTERNAL: what the guards of the loops come to, in terms of the cursor: at the end of the
range they stop, a file before the range is passed over, and otherwise the part of the file that
is moved begins at the cursor and ends where the cursor goes.
SOURCE: disk_manager.rs:66-87, disk_manager.rs:118-141 -/
theorem flushSpan_spec {start stop : ℕ} (h : start ≤ stop) (F size : ℕ) :
    match flushSpan start stop (stop - cursor start stop F) F size with
    | .done => cursor start stop F = stop
    | .skip => cursor start stop (F + size) = cursor start stop F
    | .part offset count => F + offset = cursor start stop F ∧
        cursor start stop F + count = cursor start stop (F + size) ∧ offset + count ≤ size := by
  unfold flushSpan cursor
  dsimp only
  by_cases hpending : stop - max start (min stop F) = 0
  · rw [if_pos hpending]
    dsimp only
    omega
  rw [if_neg hpending]
  by_cases hbefore : F + size ≤ start
  · rw [if_pos hbefore]
    dsimp only
    omega
  rw [if_neg hbefore]
  by_cases hafter : stop ≤ F
  · rw [if_pos hafter]
    dsimp only
    omega
  rw [if_neg hafter]
  dsimp only
  split_ifs <;> omega

theorem readSpan_eq_flushSpan : readSpan = flushSpan := rfl

theorem cursor_bounds {start stop F : ℕ} (h : start ≤ stop) :
    start ≤ cursor start stop F ∧ cursor start stop F ≤ stop := by
  unfold cursor
  omega

/-- The address at which the piece of a flush begins. -/
def jobStart (s : DiskManagerActor) (job : FlushJob) : ℕ := job.pieceManager.index * s.stdPieceLen

/-- The address at which the piece of a flush ends. -/
def jobStop (s : DiskManagerActor) (job : FlushJob) : ℕ :=
  jobStart s job + job.pieceManager.pieceLength

/-- Where a flush stands. -/
def jobCursor (s : DiskManagerActor) (job : FlushJob) : ℕ :=
  cursor (jobStart s job) (jobStop s job) (fileStart s job.idx)

/-- The bytes a flush has pending are those from its cursor on. -/
def Running (s : DiskManagerActor) (job : FlushJob) : Prop :=
  job.bytesPending = jobStop s job - jobCursor s job

theorem jobCursor_bounds (s : DiskManagerActor) (job : FlushJob) :
    jobStart s job ≤ jobCursor s job ∧ jobCursor s job ≤ jobStop s job :=
  cursor_bounds (Nat.le_add_right _ _)

theorem jobCursor_begin (s : DiskManagerActor) (m : PieceRequestManager) :
    jobCursor s (.begin m) = jobStart s (.begin m) := by
  unfold jobCursor cursor fileStart FlushJob.begin
  simp

theorem running_begin (s : DiskManagerActor) (m : PieceRequestManager) :
    Running s (.begin m) := by
  unfold Running
  rw [jobCursor_begin]
  unfold jobStop FlushJob.begin
  dsimp only
  omega

/-- INTERNAL: at the end of the list of files nothing is pending.
SOURCE: disk_manager.rs:66-110 -/
theorem jobCursor_end {s : DiskManagerActor} {job : FlushJob} (hidx : job.idx = s.handles.length)
    (hstop : jobStop s job ≤ totalSize s) : jobCursor s job = jobStop s job := by
  have hbounds := jobCursor_bounds s job
  unfold jobCursor cursor at *
  rw [hidx, fileStart_length] at *
  omega

/-! ## Flushing -/

/-- The seek or the write of a round is answered with an error in that round. -/
def Reported : IoOutcome → Prop
  | .ok | .lateError _ => False
  | .seekError | .transferError _ => True

instance (io : IoOutcome) : Decidable (Reported io) := by
  cases io <;> unfold Reported <;> infer_instance

theorem length_writtenOf_le (io : IoOutcome) (data : Bytes) :
    (writtenOf io data).length ≤ data.length := by
  cases io with
  | ok => exact Nat.le_refl _
  | seekError => exact Nat.zero_le _
  | transferError written | lateError written =>
    unfold writtenOf failedWrite
    rw [List.length_take, List.length_dropLast]
    omega

/-- INTERNAL: a write inside a file is a write to the stream, when no other file of the list is the
same. -/
theorem overlays_writeFile {s : DiskManagerActor} {j start offset : ℕ} {file : LocalFile}
    {path : PathBuf} {data : Bytes} (hhandle : s.handles[j]? = some (start, path))
    (hseg : (segments s)[j]? = some (file.size, path)) (hfits : offset + data.length ≤ file.size) :
    (Separate (segments s) →
      Overlays 0 (stream (s.writeFile j offset data)) (stream s) (fileStart s j + offset) data) ∧
    (Distinct (segments s) → Fits s.disk (segments s) →
      Fits (s.writeFile j offset data).disk (segments s)) := by
  unfold stream
  rw [segments_writeFile, disk_writeFile hhandle, ← startOf_segments]
  exact ⟨fun hseparate => overlays_write 0 hseparate s.disk hseg hfits,
    fun hdistinct h => h.write 0 hdistinct hseg hfits⟩

/-- The flush goes on with the next file, `count` bytes further. -/
def Advances (s : DiskManagerActor) (job : FlushJob) (count : ℕ) : Prop :=
  Running s (job.advance count) ∧ jobCursor s (job.advance count) = jobCursor s job + count

/-- Bytes, at most this many, that are written at the offset of the file go to the cursor. -/
def WritesAtCursor (s : DiskManagerActor) (job : FlushJob) (offset count : ℕ) : Prop :=
  ∀ data : Bytes, data.length ≤ count →
    (Separate (segments s) →
      Overlays 0 (stream (s.writeFile job.idx offset data)) (stream s) (jobCursor s job) data) ∧
    (Distinct (segments s) → Fits s.disk (segments s) →
      Fits (s.writeFile job.idx offset data).disk (segments s))

theorem flushRound_done {s : DiskManagerActor} {job : FlushJob} (hspan : s.flushSpanOf job = .done)
    (getData : ℕ → ℕ → Bytes) (io : IoOutcome) : s.flushRound job getData io = .reply true := by
  unfold flushRound
  rw [hspan]

theorem flushRound_skip {s : DiskManagerActor} {job : FlushJob} (hspan : s.flushSpanOf job = .skip)
    (getData : ℕ → ℕ → Bytes) (io : IoOutcome) :
    s.flushRound job getData io = .next (s, job.advance 0) := by
  unfold flushRound
  rw [hspan]

/-- INTERNAL: a round that asks for a slice writes what its outcome lets through of the answer, and
ends the flush when the error is reported.
SOURCE: disk_manager.rs:88-109 -/
theorem flushRound_part {s : DiskManagerActor} {job : FlushJob} {offset count : ℕ}
    (hspan : s.flushSpanOf job = .part offset count) (getData : ℕ → ℕ → Bytes) (io : IoOutcome) :
    let data := getData (sliceOf job count).1 (sliceOf job count).2
    s.flushRound job getData io =
      if Reported io then .failed (s.writeFile job.idx offset (writtenOf io data), job)
      else .next (s.writeFile job.idx offset (writtenOf io data), job.advance count) := by
  intro data
  unfold flushRound
  rw [hspan]
  cases io with
  | ok | lateError written => exact (if_neg not_false).symm
  | transferError written => exact (if_pos trivial).symm
  | seekError =>
    rw [if_pos (show Reported .seekError from trivial), writtenOf, writeFile_nil]

/-- INTERNAL: what the guards of a round of a flush come to, in terms of its cursor.
SOURCE: disk_manager.rs:66-87 -/
theorem flushSpanOf_spec {s : DiskManagerActor} {job : FlushJob}
    (hidx : job.idx < s.handles.length) (hjob : Running s job) :
    match s.flushSpanOf job with
    | .done => jobCursor s job = jobStop s job
    | .skip => jobCursor s (job.advance 0) = jobCursor s job
    | .part offset count => fileStart s job.idx + offset = jobCursor s job ∧
        jobCursor s (job.advance count) = jobCursor s job + count ∧
        fileStart s job.idx + (offset + count) ≤ fileStart s (job.idx + 1) := by
  obtain ⟨file, path, hfile, hhandle, -, hnext⟩ := exists_file hidx
  have hspan : s.flushSpanOf job =
      flushSpan (jobStart s job) (jobStop s job) (jobStop s job - jobCursor s job)
        (fileStart s job.idx) file.size := by
    unfold flushSpanOf
    rw [hhandle, hfile, hjob]
    rfl
  have hspec := flushSpan_spec (Nat.le_add_right (jobStart s job) job.pieceManager.pieceLength)
    (fileStart s job.idx) file.size
  rw [← hnext] at hspec
  change match flushSpan (jobStart s job) (jobStop s job) (jobStop s job - jobCursor s job)
    (fileStart s job.idx) file.size with
    | .done => _ | .skip => _ | .part _ _ => _ at hspec
  rw [hspan]
  cases hcase : flushSpan (jobStart s job) (jobStop s job) (jobStop s job - jobCursor s job)
    (fileStart s job.idx) file.size with
  | done | skip =>
    rw [hcase] at hspec
    exact hspec
  | part offset count =>
    rw [hcase] at hspec
    obtain ⟨hoffset, hcount, hfits⟩ := hspec
    exact ⟨hoffset, hcount.symm, by omega⟩

/-- INTERNAL: everything a round of a flush can do. It ends the loop with nothing pending, passes
over a file, or asks for the slice from the cursor on and writes there.
SOURCE: disk_manager.rs:66-109 -/
theorem flushSpanOf_cases {s : DiskManagerActor} {job : FlushJob}
    (hidx : job.idx < s.handles.length) (hjob : Running s job) :
    (s.flushSpanOf job = .done ∧ jobCursor s job = jobStop s job) ∨
      (s.flushSpanOf job = .skip ∧ Advances s job 0) ∨
      ∃ offset count, s.flushSpanOf job = .part offset count ∧
        sliceOf job count =
          (jobCursor s job - jobStart s job, jobCursor s job - jobStart s job + count) ∧
        Advances s job count ∧ WritesAtCursor s job offset count := by
  have hspec := flushSpanOf_spec hidx hjob
  have hbounds := jobCursor_bounds s job
  have hrunning {count : ℕ} (h : jobCursor s (job.advance count) = jobCursor s job + count) :
      Advances s job count := by
    refine ⟨?_, h⟩
    change job.bytesPending - count = jobStop s job - jobCursor s (job.advance count)
    rw [h, hjob]
    omega
  cases hcase : s.flushSpanOf job with
  | done =>
    rw [hcase] at hspec
    exact Or.inl ⟨rfl, hspec⟩
  | skip =>
    rw [hcase] at hspec
    exact Or.inr (Or.inl ⟨rfl, hrunning hspec⟩)
  | part offset count =>
    rw [hcase] at hspec
    obtain ⟨hoffset, hcount, hfits⟩ := hspec
    have hslice : job.pieceManager.pieceLength - job.bytesPending =
        jobCursor s job - jobStart s job := by
      rw [hjob]
      unfold jobStop at *
      omega
    refine Or.inr (Or.inr ⟨offset, count, rfl, ?_, hrunning hcount, ?_⟩)
    · unfold sliceOf
      rw [hslice]
    · obtain ⟨file, path, -, hhandle, hseg, hnext⟩ := exists_file hidx
      intro data hdata
      rw [← hoffset]
      exact overlays_writeFile hhandle hseg (by omega)

/-- INTERNAL: the guards of a round at the end of the list of files. -/
theorem flushSpanOf_ne_done {s : DiskManagerActor} {job : FlushJob}
    (h : s.flushSpanOf job ≠ .done) : job.idx < s.handles.length := by
  by_contra hge
  unfold flushSpanOf at h
  rw [List.getElem?_eq_none (not_lt.mp hge)] at h
  exact h rfl

/-- INTERNAL: a round that does not end the flush goes on with the next file, for the same piece,
and opens and closes no file.
SOURCE: disk_manager.rs:66-109 -/
theorem next_of_flushRound {s t : DiskManagerActor} {job next : FlushJob}
    {getData : ℕ → ℕ → Bytes} {io : IoOutcome}
    (h : s.flushRound job getData io = .next (t, next)) :
    job.idx < s.handles.length ∧ next.idx = job.idx + 1 ∧
      next.pieceManager = job.pieceManager ∧ t.files = s.files ∧ t.handles = s.handles := by
  cases hspan : s.flushSpanOf job with
  | done =>
    rw [flushRound_done hspan] at h
    cases h
  | skip =>
    have hlt := flushSpanOf_ne_done (show s.flushSpanOf job ≠ .done by rw [hspan]; exact nofun)
    rw [flushRound_skip hspan] at h
    cases h
    exact ⟨hlt, rfl, rfl, rfl, rfl⟩
  | part offset count =>
    have hlt := flushSpanOf_ne_done (show s.flushSpanOf job ≠ .done by rw [hspan]; exact nofun)
    rw [flushRound_part hspan] at h
    split_ifs at h
    cases h
    exact ⟨hlt, rfl, rfl, rfl, rfl⟩

/-- INTERNAL: a round that fails is for the same piece.
SOURCE: disk_manager.rs:88-106 -/
theorem failed_of_flushRound {s t : DiskManagerActor} {job next : FlushJob}
    {getData : ℕ → ℕ → Bytes} {io : IoOutcome}
    (h : s.flushRound job getData io = .failed (t, next)) : next = job := by
  cases hspan : s.flushSpanOf job with
  | done =>
    rw [flushRound_done hspan] at h
    cases h
  | skip =>
    rw [flushRound_skip hspan] at h
    cases h
  | part offset count =>
    rw [flushRound_part hspan] at h
    split_ifs at h
    cases h
    rfl

theorem flushRound_ok_ne_failed {s : DiskManagerActor} {job : FlushJob}
    {getData : ℕ → ℕ → Bytes} {next : DiskManagerActor × FlushJob} :
    s.flushRound job getData .ok ≠ .failed next := by
  unfold flushRound
  split <;> exact nofun

/-- INTERNAL: a flush that ends with its last round has succeeded.
SOURCE: disk_manager.rs:110-111 -/
theorem reply_of_flushRound {s : DiskManagerActor} {job : FlushJob} {getData : ℕ → ℕ → Bytes}
    {io : IoOutcome} {reply : Bool} (h : s.flushRound job getData io = .reply reply) :
    s.flushSpanOf job = .done ∧ reply = true := by
  cases hspan : s.flushSpanOf job with
  | done =>
    rw [flushRound_done hspan] at h
    cases h
    exact ⟨rfl, rfl⟩
  | skip =>
    rw [flushRound_skip hspan] at h
    cases h
  | part offset count =>
    rw [flushRound_part hspan] at h
    split_ifs at h

/-- The piece actor answers with no more than it is asked for. -/
def AnswersAtMost (getData : ℕ → ℕ → Bytes) : Prop :=
  ∀ a b, (getData a b).length ≤ b - a

/-- The piece actor answers with full slices of a piece of `length` bytes. -/
def AnswersInFull (getData : ℕ → ℕ → Bytes) (length : ℕ) : Prop :=
  ∀ a b, a ≤ b → b ≤ length → (getData a b).length = b - a

/-- The piece actor answers with the slices of `data`. -/
def Answers (getData : ℕ → ℕ → Bytes) (data : Bytes) : Prop :=
  ∀ a b, a ≤ b → b ≤ data.length → getData a b = (data.drop a).take (b - a)

/-- INTERNAL: what is left of a flush from a round on that asks for a slice.
SOURCE: disk_manager.rs:88-109 -/
theorem flushLoop_part {getData : ℕ → ℕ → ℕ → Bytes} {io : ℕ → IoOutcome}
    {rounds offset count : ℕ} {s : DiskManagerActor} {job : FlushJob}
    (hspan : s.flushSpanOf job = .part offset count) :
    let data := writtenOf (io job.idx)
      (getData job.idx (sliceOf job count).1 (sliceOf job count).2)
    let t := s.writeFile job.idx offset data
    let result := flushLoop getData io rounds t (job.advance count)
    flushLoop getData io (rounds + 1) s job =
      if Reported (io job.idx) then ⟨t, false, [], []⟩
      else { result with
        asked := sliceOf job count :: result.asked
        written := data ++ result.written } := by
  rw [flushLoop, flushRound_part hspan]
  intro data t result
  split_ifs
  · rfl
  · rw [hspan]

/-- INTERNAL: what is left of a flush from a round on that passes over a file.
SOURCE: disk_manager.rs:72-74 -/
theorem flushLoop_skip {getData : ℕ → ℕ → ℕ → Bytes} {io : ℕ → IoOutcome} {rounds : ℕ}
    {s : DiskManagerActor} {job : FlushJob} (hspan : s.flushSpanOf job = .skip) :
    flushLoop getData io (rounds + 1) s job = flushLoop getData io rounds s (job.advance 0) := by
  rw [flushLoop, flushRound_skip hspan, hspan]

/-- INTERNAL: a round that ends the loop is the last.
SOURCE: disk_manager.rs:69-71, disk_manager.rs:75-77 -/
theorem flushLoop_done {getData : ℕ → ℕ → ℕ → Bytes} {io : ℕ → IoOutcome} {rounds : ℕ}
    {s : DiskManagerActor} {job : FlushJob} (hspan : s.flushSpanOf job = .done) :
    flushLoop getData io (rounds + 1) s job = ⟨s, true, [], []⟩ := by
  rw [flushLoop, flushRound_done hspan]

/-- The same files are open, as parts of the same content. -/
structure SameTable (t s : DiskManagerActor) : Prop where
  files : t.files = s.files
  handles : t.handles = s.handles
  stdPieceLen : t.stdPieceLen = s.stdPieceLen

theorem SameTable.refl (s : DiskManagerActor) : SameTable s s := ⟨rfl, rfl, rfl⟩

theorem SameTable.trans {s t u : DiskManagerActor} (h : SameTable u t) (h' : SameTable t s) :
    SameTable u s :=
  ⟨h.files.trans h'.files, h.handles.trans h'.handles, h.stdPieceLen.trans h'.stdPieceLen⟩

theorem SameTable.segments_eq {s t : DiskManagerActor} (h : SameTable t s) :
    segments t = segments s := by
  unfold segments
  rw [h.files, h.handles]

theorem SameTable.fileStart_eq {s t : DiskManagerActor} (h : SameTable t s) (j : ℕ) :
    fileStart t j = fileStart s j := by
  unfold fileStart
  rw [h.files]

/-- INTERNAL: a flush opens and closes no file.
SOURCE: disk_manager.rs:62-112 -/
theorem flushLoop_sameTable (getData : ℕ → ℕ → ℕ → Bytes) (io : ℕ → IoOutcome) (rounds : ℕ)
    (s : DiskManagerActor) (job : FlushJob) :
    SameTable (flushLoop getData io rounds s job).actor s := by
  induction rounds generalizing s job with
  | zero => exact .refl s
  | succ rounds ih =>
    cases hspan : s.flushSpanOf job with
    | done =>
      rw [flushLoop_done hspan]
      exact .refl s
    | skip =>
      rw [flushLoop_skip hspan]
      exact ih s _
    | part offset count =>
      rw [flushLoop_part hspan]
      split_ifs
      · exact ⟨rfl, rfl, rfl⟩
      · exact (ih _ _).trans ⟨rfl, rfl, rfl⟩

/-- What the rest of a flush leaves as it is: every byte that is there outside the addresses from
`start` to `stop`. -/
structure FlushKeeps (s : DiskManagerActor) (result : FlushResult) (start stop : ℕ) : Prop where
  outside : Separate (segments s) → KeepsOutside 0 (stream result.actor) (stream s) start stop
  fits : Distinct (segments s) → Fits s.disk (segments s) → Fits result.actor.disk (segments s)

theorem FlushKeeps.refl (s : DiskManagerActor) (reply : Bool) (start stop : ℕ) :
    FlushKeeps s ⟨s, reply, [], []⟩ start stop :=
  ⟨fun _ => .refl 0 (stream s) _ _, fun _ => id⟩

theorem advance_idx_add {job : FlushJob} {rounds n : ℕ} (count : ℕ)
    (h : job.idx + (rounds + 1) = n) : (job.advance count).idx + rounds = n := by
  rw [← h]
  change job.idx + 1 + rounds = _
  omega

/-- INTERNAL: a flush changes nothing outside its piece, whatever the piece actor answers and
however its writes end. The induction is on the rounds left.
SOURCE: disk_manager.rs:62-112 -/
theorem flushLoop_keeps {getData : ℕ → ℕ → ℕ → Bytes} (io : ℕ → IoOutcome)
    (hanswers : ∀ idx, AnswersAtMost (getData idx)) {rounds : ℕ} {s : DiskManagerActor}
    (job : FlushJob) (hrounds : job.idx + rounds = s.handles.length) (hjob : Running s job) :
    FlushKeeps s (flushLoop getData io rounds s job) (jobStart s job) (jobStop s job) := by
  induction rounds generalizing s job with
  | zero => exact .refl s true _ _
  | succ rounds ih =>
    have hidx : job.idx < s.handles.length := by omega
    have hnext (count : ℕ) := advance_idx_add count hrounds
    rcases flushSpanOf_cases hidx hjob with ⟨hspan, -⟩ | ⟨hspan, hrunning, -⟩ |
      ⟨offset, count, hspan, hslice, ⟨hrunning, hcursor⟩, hwrites⟩
    · rw [flushLoop_done hspan]
      exact .refl s true _ _
    · rw [flushLoop_skip hspan]
      exact ih (job.advance 0) (hnext 0) hrunning
    · rw [flushLoop_part hspan]
      have hbounds := jobCursor_bounds s job
      have hbounds' := jobCursor_bounds s (job.advance count)
      rw [hcursor] at hbounds'
      change _ ∧ _ ≤ jobStop s job at hbounds'
      have hanswer := (length_writtenOf_le (io job.idx) _).trans
        (hanswers job.idx (sliceOf job count).1 (sliceOf job count).2)
      generalize writtenOf (io job.idx)
        (getData job.idx (sliceOf job count).1 (sliceOf job count).2) = data at *
      rw [hslice] at hanswer
      obtain ⟨hover, hfits⟩ := hwrites data (by omega)
      have hkept (hseparate : Separate (segments s)) :=
        (hover hseparate).outside.mono hbounds.1 (show _ ≤ jobStop s job by omega)
      split_ifs with hreported
      · exact ⟨hkept, hfits⟩
      · have hrest := ih (s := s.writeFile job.idx offset data) (job.advance count) (hnext count)
          hrunning
        exact ⟨fun hseparate => (hkept hseparate).trans (hrest.outside hseparate),
          fun hdistinct h => hrest.fits hdistinct (hfits hdistinct h)⟩

/-- INTERNAL: a flush changes nothing outside its piece.
SOURCE: disk_manager.rs:62-112 -/
theorem flushPieceToDisk_keeps {s : DiskManagerActor} {m : PieceRequestManager}
    {getData : ℕ → ℕ → ℕ → Bytes} (io : ℕ → IoOutcome)
    (hanswers : ∀ idx, AnswersAtMost (getData idx)) :
    FlushKeeps s (s.flushPieceToDisk m getData io) (m.index * s.stdPieceLen)
      (m.index * s.stdPieceLen + m.pieceLength) :=
  flushLoop_keeps io hanswers (.begin m) (Nat.zero_add _) (running_begin s m)

/-- What the rest of a flush of a piece of `length` bytes comes to when it has the bytes from
`from_` to `stop` of the stream still to write. -/
structure Flushed (s : DiskManagerActor) (getData : ℕ → ℕ → ℕ → Bytes) (result : FlushResult)
    (from_ stop length : ℕ) : Prop where
  reply : result.reply = true
  length_written : result.written.length = stop - from_
  overlays : Separate (segments s) →
    Overlays 0 (stream result.actor) (stream s) from_ result.written
  asked : ∀ slice ∈ result.asked, slice.1 ≤ slice.2 ∧ slice.2 ≤ length
  written : ∀ data, (∀ idx, Answers (getData idx) data) → data.length = length →
    result.written = data.drop (length - (stop - from_))

/-- INTERNAL: with the cursor at the end nothing is left to write. -/
theorem flushed_of_cursor_end {s : DiskManagerActor} {job : FlushJob}
    (getData : ℕ → ℕ → ℕ → Bytes) (h : jobCursor s job = jobStop s job) :
    Flushed s getData ⟨s, true, [], []⟩ (jobCursor s job) (jobStop s job)
      job.pieceManager.pieceLength := by
  rw [h]
  refine ⟨rfl, (Nat.sub_self _).symm, fun _ => Overlays.refl 0 (stream s) _, by simp, ?_⟩
  intro data _ hlen
  rw [Nat.sub_self, Nat.sub_zero, ← hlen, List.drop_length]

/-- INTERNAL: the rest of a flush without errors, from any round on, when the piece actor answers
in full. The induction is on the rounds left; the cursor of the job says which bytes are still to
write.
SOURCE: disk_manager.rs:62-112 -/
theorem flushLoop_spec {getData : ℕ → ℕ → ℕ → Bytes} {rounds : ℕ} {s : DiskManagerActor}
    (job : FlushJob) (hanswers : ∀ idx, AnswersInFull (getData idx) job.pieceManager.pieceLength)
    (hrounds : job.idx + rounds = s.handles.length) (hstop : jobStop s job ≤ totalSize s)
    (hjob : Running s job) :
    Flushed s getData (flushLoop getData (fun _ => .ok) rounds s job) (jobCursor s job)
      (jobStop s job) job.pieceManager.pieceLength := by
  induction rounds generalizing s job with
  | zero => exact flushed_of_cursor_end getData (jobCursor_end hrounds hstop)
  | succ rounds ih =>
    have hidx : job.idx < s.handles.length := by omega
    have hnext (count : ℕ) := advance_idx_add count hrounds
    rcases flushSpanOf_cases hidx hjob with ⟨hspan, hend⟩ | ⟨hspan, hrunning, hcursor⟩ |
      ⟨offset, count, hspan, hslice, ⟨hrunning, hcursor⟩, hwrites⟩
    · rw [flushLoop_done hspan]
      exact flushed_of_cursor_end getData hend
    · rw [flushLoop_skip hspan]
      have hrest := ih (job.advance 0) hanswers (hnext 0) hstop hrunning
      rwa [hcursor, Nat.add_zero] at hrest
    · rw [flushLoop_part hspan, if_neg (show ¬ Reported .ok from not_false), hslice, writtenOf] at *
      -- the answer has `count` bytes, so the round takes the cursor as far as it writes
      have hbounds := jobCursor_bounds s job
      have hbounds' := jobCursor_bounds s (job.advance count)
      have hstop' : jobStop s (job.advance count) = jobStop s job := rfl
      have hlen : jobStop s job = jobStart s job + job.pieceManager.pieceLength := rfl
      rw [hcursor, hstop'] at hbounds'
      have hanswer := hanswers job.idx (jobCursor s job - jobStart s job)
        (jobCursor s job - jobStart s job + count) (by omega) (by omega)
      rw [Nat.add_sub_cancel_left] at hanswer
      dsimp only
      generalize hdata : getData job.idx (jobCursor s job - jobStart s job)
        (jobCursor s job - jobStart s job + count) = data at *
      obtain ⟨hover, -⟩ := hwrites data hanswer.le
      have hrest := ih (s := s.writeFile job.idx offset data) (job.advance count) hanswers
        (hnext count) hstop hrunning
      have hcursor' : jobCursor (s.writeFile job.idx offset data) (job.advance count) =
          jobCursor s job + data.length := by
        rw [hanswer]
        exact hcursor
      rw [hcursor'] at hrest
      refine ⟨hrest.reply, ?_, fun hseparate => (hover hseparate).append (hrest.overlays hseparate),
        ?_, ?_⟩
      · have hlength := hrest.length_written
        change _ = jobStop s job - (jobCursor s job + data.length) at hlength
        rw [List.length_append, hlength]
        omega
      · intro slice hmem
        rcases List.mem_cons.mp hmem with rfl | hmem
        · dsimp only
          omega
        · exact hrest.asked slice hmem
      · intro whole hwhole hlength
        have hlast := hrest.written whole hwhole hlength
        change _ = whole.drop (job.pieceManager.pieceLength -
          (jobStop s job - (jobCursor s job + data.length))) at hlast
        rw [hwhole job.idx _ _ (by omega) (by omega), Nat.add_sub_cancel_left] at hdata
        rw [hlast, ← hdata, hdata, hanswer,
          show job.pieceManager.pieceLength - (jobStop s job - (jobCursor s job + count)) =
            jobCursor s job - jobStart s job + count by omega,
          show job.pieceManager.pieceLength - (jobStop s job - jobCursor s job) =
            jobCursor s job - jobStart s job by omega, ← hdata, ← List.drop_drop,
          List.take_append_drop]

/-- INTERNAL: a flush without errors of a piece that lies inside the files overlays the stream with
the bytes it writes, and asks for slices of the piece only.
SOURCE: disk_manager.rs:62-112 -/
theorem flushPieceToDisk_spec {s : DiskManagerActor} {m : PieceRequestManager}
    {getData : ℕ → ℕ → ℕ → Bytes} (hanswers : ∀ idx, AnswersInFull (getData idx) m.pieceLength)
    (hstop : m.index * s.stdPieceLen + m.pieceLength ≤ totalSize s) :
    Flushed s getData (s.flushPieceToDisk m getData fun _ => .ok) (m.index * s.stdPieceLen)
      (m.index * s.stdPieceLen + m.pieceLength) m.pieceLength := by
  have hspec := flushLoop_spec (.begin m) hanswers (Nat.zero_add _) hstop (running_begin s m)
  rw [jobCursor_begin] at hspec
  exact hspec

/-- No write fails after `write_all` has taken its bytes. -/
def Lands (io : ℕ → IoOutcome) : Prop := ∀ idx written, io idx ≠ .lateError written

/-- INTERNAL: a flush that is answered `true` met no error, unless a write of it failed later.
SOURCE: disk_manager.rs:88-106 -/
theorem flushLoop_eq_of_reply {getData : ℕ → ℕ → ℕ → Bytes} {io : ℕ → IoOutcome} {rounds : ℕ}
    {s : DiskManagerActor} {job : FlushJob}
    (hlands : Lands io)
    (h : (flushLoop getData io rounds s job).reply = true) :
    flushLoop getData io rounds s job = flushLoop getData (fun _ => .ok) rounds s job := by
  induction rounds generalizing s job with
  | zero => rfl
  | succ rounds ih =>
    cases hspan : s.flushSpanOf job with
    | done => rw [flushLoop_done hspan, flushLoop_done hspan]
    | skip =>
      rw [flushLoop_skip hspan] at h ⊢
      rw [flushLoop_skip hspan]
      exact ih h
    | part offset count =>
      rw [flushLoop_part hspan] at h ⊢
      rw [flushLoop_part hspan]
      cases hio : io job.idx with
      | ok =>
        simp only [hio, Reported, if_false] at h ⊢
        rw [ih h]
      | seekError => simp [hio, Reported] at h
      | transferError written => simp [hio, Reported] at h
      | lateError written => exact absurd hio (hlands job.idx written)

end Fissure.Analysis
