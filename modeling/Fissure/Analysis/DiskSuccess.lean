import Fissure.Analysis.DiskLayout

/-!
# When the disk actor's success means that all was done

Both loops of the disk actor count the pending bytes down by what they meant to move, and end with
the list of the files. So a flush whose piece actor has stopped is answered `true` though nothing
was written, as is one whose write fails after `write_all` took the bytes, and a read that goes past
the last file is answered with fewer bytes than it was asked for. `flushLoop_progress` and
`readLoop_cases` say what the loops move from any round on; `success_means_complete_iff` says for
which requests success means complete.
-/

set_option autoImplicit false

namespace Fissure.Analysis

open Fissure.Library Fissure.Model Fissure.Interface
open Fissure.Model.DiskManagerActor

variable {s t : DiskManagerActor} {start stop : ℕ}

/-! ## The files that a loop touches -/

/-- A loop over the range from `start` to `stop` seeks in file `j`. -/
def Touches (s : DiskManagerActor) (start stop j : ℕ) : Prop :=
  j < s.files.length ∧ start < stop ∧ start < fileStart s (j + 1) ∧ fileStart s j < stop

instance (s : DiskManagerActor) (start stop j : ℕ) : Decidable (Touches s start stop j) :=
  inferInstanceAs (Decidable (_ ∧ _ ∧ _ ∧ _))

/-- File `j` has room for bytes of the range from `start` to `stop`. -/
def Shares (s : DiskManagerActor) (start stop j : ℕ) : Prop :=
  Touches s start stop j ∧ fileStart s j < fileStart s (j + 1)

/-- Some byte of the range that belongs to file `j` is not there. -/
def Missing (s : DiskManagerActor) (start stop j : ℕ) : Prop :=
  ∃ x, start ≤ x ∧ x < stop ∧ fileStart s j ≤ x ∧ x < fileStart s (j + 1) ∧ stream s x = none

/-- INTERNAL: when the loops stop, pass over a file, or seek in it.
SOURCE: disk_manager.rs:66-77, disk_manager.rs:118-129 -/
theorem flushSpan_touches (h : start ≤ stop) (F size : ℕ) :
    match flushSpan start stop (stop - cursor start stop F) F size with
    | .done => stop ≤ start ∨ stop ≤ F
    | .skip => F + size ≤ start
    | .part _ _ => start < stop ∧ start < F + size ∧ F < stop := by
  unfold flushSpan cursor
  dsimp only
  by_cases hpending : stop - max start (min stop F) = 0
  · rw [if_pos hpending]
    dsimp only
    omega
  rw [if_neg hpending]
  by_cases hbefore : F + size ≤ start
  · rwa [if_pos hbefore]
  rw [if_neg hbefore]
  by_cases hafter : stop ≤ F
  · rw [if_pos hafter]
    exact Or.inr hafter
  rw [if_neg hafter]
  dsimp only
  omega

/-- INTERNAL: where the loops stop they touch no further file. -/
theorem not_touches_of_done {j idx : ℕ} (h : stop ≤ start ∨ stop ≤ fileStart s idx)
    (hj : idx ≤ j) : ¬ Touches s start stop j := by
  rintro ⟨-, hlt, -, hstop⟩
  have hmono := fileStart_mono s hj
  omega

theorem not_touches_of_skip {idx : ℕ} (h : fileStart s (idx + 1) ≤ start) :
    ¬ Touches s start stop idx :=
  fun htouches => absurd htouches.2.2.1 (Nat.not_lt.mpr h)

/-- INTERNAL: what holds of the touched files from `idx` on holds of `idx` and of those after it. -/
theorem forall_touched_iff {P : ℕ → Prop} {idx : ℕ} :
    (∀ j, idx ≤ j → P j) ↔ P idx ∧ ∀ j, idx + 1 ≤ j → P j := by
  constructor
  · exact fun h => ⟨h idx (Nat.le_refl _), fun j hj => h j (by omega)⟩
  · rintro ⟨hidx, h⟩ j hj
    rcases Nat.eq_or_lt_of_le hj with rfl | hlt
    · exact hidx
    · exact h j hlt

/-! ## Flushing -/

/-- INTERNAL: the guards of a round of a flush, and what they say about the file.
SOURCE: disk_manager.rs:66-77 -/
theorem flushSpanOf_touches {job : FlushJob} (hidx : job.idx < s.handles.length)
    (hjob : Running s job) :
    match s.flushSpanOf job with
    | .done => jobStop s job ≤ jobStart s job ∨ jobStop s job ≤ fileStart s job.idx
    | .skip => fileStart s (job.idx + 1) ≤ jobStart s job
    | .part _ _ => Touches s (jobStart s job) (jobStop s job) job.idx := by
  obtain ⟨file, content, hfile, hhandle, -, hnext⟩ := exists_file hidx
  have hspan : s.flushSpanOf job =
      flushSpan (jobStart s job) (jobStop s job) (jobStop s job - jobCursor s job)
        (fileStart s job.idx) file.size := by
    unfold flushSpanOf
    rw [hhandle, hfile, hjob]
    rfl
  have hle : jobStart s job ≤ jobStop s job := Nat.le_add_right _ _
  have htouches := flushSpan_touches hle (fileStart s job.idx) file.size
  rw [hspan]
  unfold jobCursor
  rw [length_handles] at hidx
  revert htouches
  cases flushSpan (jobStart s job) (jobStop s job)
    (jobStop s job - cursor (jobStart s job) (jobStop s job) (fileStart s job.idx))
    (fileStart s job.idx) file.size with
  | done => exact id
  | skip =>
    rw [hnext]
    exact id
  | part offset count =>
    rintro ⟨hlt, hbefore, hafter⟩
    exact ⟨hidx, hlt, by rwa [hnext], hafter⟩

/-- INTERNAL: a flush is answered `true` exactly when no error is reported to it. The induction is on
the rounds left.
SOURCE: disk_manager.rs:62-112 -/
theorem flushLoop_reply_iff {getData : ℕ → ℕ → ℕ → Bytes} {io : ℕ → IoOutcome} {rounds : ℕ}
    (job : FlushJob) (hrounds : job.idx + rounds = s.handles.length) (hjob : Running s job) :
    (flushLoop getData io rounds s job).reply = true ↔
      ∀ j, job.idx ≤ j → Touches s (jobStart s job) (jobStop s job) j → ¬ Reported (io j) := by
  induction rounds generalizing s job with
  | zero =>
    refine iff_of_true rfl fun j hj htouches => ?_
    have hlt := htouches.1
    rw [length_handles] at hrounds
    omega
  | succ rounds ih =>
    have hidx : job.idx < s.handles.length := by omega
    have hnext (count : ℕ) := advance_idx_add count hrounds
    have htouches := flushSpanOf_touches hidx hjob
    rcases flushSpanOf_cases hidx hjob with ⟨hspan, -⟩ | ⟨hspan, hrunning, -⟩ |
      ⟨offset, count, hspan, -, ⟨hrunning, -⟩, -⟩
    · rw [hspan] at htouches
      rw [flushLoop_done hspan]
      exact iff_of_true rfl fun j hj htouched => absurd htouched (not_touches_of_done htouches hj)
    · rw [hspan] at htouches
      rw [flushLoop_skip hspan]
      refine (ih (job.advance 0) (hnext 0) hrunning).trans (Iff.symm (forall_touched_iff.trans ?_))
      exact and_iff_right fun h => absurd h (not_touches_of_skip htouches)
    · rw [hspan] at htouches
      rw [forall_touched_iff, forall_prop_of_true htouches, flushLoop_part hspan]
      split_ifs with hreported
      · exact iff_of_false (by simp) fun h => h.1 hreported
      · exact (ih (s := s.writeFile job.idx offset _) (job.advance count) (hnext count)
          hrunning).trans (and_iff_right hreported).symm

/-- Where a loop over the range from `start` to `stop` stands after the last file. -/
def lastCursor (s : DiskManagerActor) (start stop : ℕ) : ℕ := cursor start stop (totalSize s)

theorem cursor_mono {F F' : ℕ} (h : F ≤ F') : cursor start stop F ≤ cursor start stop F' := by
  unfold cursor
  omega

/-- INTERNAL: the files together have room for the whole range exactly when it is empty or does not
reach past their end. -/
theorem lastCursor_eq_iff (h : start ≤ stop) :
    lastCursor s start stop = stop ↔ start = stop ∨ stop ≤ totalSize s := by
  unfold lastCursor cursor
  omega

/-- INTERNAL: the cursor moves at a file exactly when the file shares bytes with the range. -/
theorem shares_iff_of_touches {j : ℕ} (h : Touches s start stop j) :
    Shares s start stop j ↔
      cursor start stop (fileStart s j) < cursor start stop (fileStart s (j + 1)) := by
  obtain ⟨-, hlt, hbefore, hafter⟩ := id h
  unfold Shares cursor
  constructor
  · rintro ⟨-, hsize⟩
    omega
  · intro hmoves
    exact ⟨h, by omega⟩

/-- The piece actor has stopped. -/
def Stopped (getData : ℕ → ℕ → Bytes) : Prop := getData = fun _ _ => []

/-- How far the rest of a flush gets to which no error is reported: it writes at most what the files
have room for, it writes all of that exactly when the piece actor answers in full wherever the files
share bytes with the piece and none of these writes fails later, and then it writes it over the
piece. -/
structure FlushProgress (s : DiskManagerActor) (job : FlushJob) (getData : ℕ → ℕ → ℕ → Bytes)
    (io : ℕ → IoOutcome) (result : FlushResult) : Prop where
  le : jobCursor s job + result.written.length ≤ lastCursor s (jobStart s job) (jobStop s job)
  full_iff : jobCursor s job + result.written.length =
      lastCursor s (jobStart s job) (jobStop s job) ↔
    ∀ j, job.idx ≤ j → Shares s (jobStart s job) (jobStop s job) j →
      AnswersInFull (getData j) job.pieceManager.pieceLength ∧ io j = .ok
  placed : jobCursor s job + result.written.length =
      lastCursor s (jobStart s job) (jobStop s job) →
    result.actor.disk = writeAcross 0 s.disk ((segments s).drop job.idx)
      (jobCursor s job - fileStart s job.idx) result.written
  overlays : jobCursor s job + result.written.length =
      lastCursor s (jobStart s job) (jobStop s job) → Separate (segments s) →
    Overlays 0 (stream result.actor) (stream s) (jobCursor s job) result.written

/-- INTERNAL: where no further file is touched there is nothing more to write. -/
theorem flushProgress_of_end {job : FlushJob} (getData : ℕ → ℕ → ℕ → Bytes) (io : ℕ → IoOutcome)
    (hend : jobCursor s job = lastCursor s (jobStart s job) (jobStop s job))
    (h : ∀ j, job.idx ≤ j → ¬ Touches s (jobStart s job) (jobStop s job) j) :
    FlushProgress s job getData io ⟨s, true, [], []⟩ where
  le := Nat.le_of_eq hend
  full_iff := iff_of_true hend fun j hj hshares => absurd hshares.1 (h j hj)
  placed _ := (writeAcross_nil 0 s.disk _ _).symm
  overlays _ _ := .refl 0 (stream s) _

/-- INTERNAL: at the file at which the cursor moves, the answer has all the bytes exactly when the
piece actor is there.
SOURCE: disk_manager.rs:96-109, piece_manager.rs:274-283 -/
theorem answer_full_iff {job : FlushJob} {getData : ℕ → ℕ → Bytes} {count : ℕ}
    (hanswers : Stopped getData ∨ AnswersInFull getData job.pieceManager.pieceLength)
    (hslice : sliceOf job count =
      (jobCursor s job - jobStart s job, jobCursor s job - jobStart s job + count))
    (hshares : Shares s (jobStart s job) (jobStop s job) job.idx ↔ 0 < count)
    (hcursor : jobCursor s (job.advance count) = jobCursor s job + count) :
    (getData (sliceOf job count).1 (sliceOf job count).2).length ≤ count ∧
      ((getData (sliceOf job count).1 (sliceOf job count).2).length = count ↔
        (Shares s (jobStart s job) (jobStop s job) job.idx →
          AnswersInFull getData job.pieceManager.pieceLength)) := by
  have hbounds := jobCursor_bounds s job
  have hbounds' := (jobCursor_bounds s (job.advance count)).2
  change _ ≤ jobStart s job + job.pieceManager.pieceLength at hbounds'
  have hfull (h : AnswersInFull getData job.pieceManager.pieceLength) :
      (getData (sliceOf job count).1 (sliceOf job count).2).length = count := by
    rw [hslice, h _ _ (Nat.le_add_right _ _) (by omega), Nat.add_sub_cancel_left]
  rcases hanswers with hstopped | hanswers
  · rw [Stopped] at hstopped
    rw [hstopped] at hfull ⊢
    refine ⟨Nat.zero_le _, fun hzero hcount => ?_, fun h => ?_⟩
    · rw [hshares] at hcount
      simp only [List.length_nil] at hzero
      omega
    · by_contra hne
      simp only [List.length_nil] at hne
      exact hne (hfull (h (hshares.mpr (by omega))))
  · exact ⟨(hfull hanswers).le, iff_of_true (hfull hanswers) fun _ => hanswers⟩

/-- INTERNAL: of an answer all is written exactly when the write does not fail later, or there is
nothing to write.
SOURCE: disk_manager.rs:98-106 -/
theorem length_writtenOf_eq_iff {io : IoOutcome} (hio : ¬ Reported io) (data : Bytes) :
    (writtenOf io data).length = data.length ↔ (0 < data.length → io = .ok) := by
  cases io with
  | ok => exact iff_of_true rfl fun _ => rfl
  | seekError | transferError written => exact absurd trivial hio
  | lateError written =>
    unfold writtenOf failedWrite
    rw [List.length_take, List.length_dropLast]
    simp only [reduceCtorEq, imp_false]
    omega

/-- INTERNAL: at the file at which the cursor moves, all bytes are written exactly when the piece
actor is there and the write does not fail later.
SOURCE: disk_manager.rs:96-109, piece_manager.rs:274-283 -/
theorem written_full_iff {job : FlushJob} {getData : ℕ → ℕ → Bytes} {io : IoOutcome} {count : ℕ}
    (hio : ¬ Reported io)
    (hanswers : Stopped getData ∨ AnswersInFull getData job.pieceManager.pieceLength)
    (hslice : sliceOf job count =
      (jobCursor s job - jobStart s job, jobCursor s job - jobStart s job + count))
    (hshares : Shares s (jobStart s job) (jobStop s job) job.idx ↔ 0 < count)
    (hcursor : jobCursor s (job.advance count) = jobCursor s job + count) :
    (writtenOf io (getData (sliceOf job count).1 (sliceOf job count).2)).length ≤ count ∧
      ((writtenOf io (getData (sliceOf job count).1 (sliceOf job count).2)).length = count ↔
        (Shares s (jobStart s job) (jobStop s job) job.idx →
          AnswersInFull getData job.pieceManager.pieceLength ∧ io = .ok)) := by
  obtain ⟨hle, hfull⟩ := answer_full_iff hanswers hslice hshares hcursor
  generalize getData (sliceOf job count).1 (sliceOf job count).2 = answer at *
  have hwritten := length_writtenOf_eq_iff hio answer
  have hwrittenLe := length_writtenOf_le io answer
  refine ⟨by omega, ?_⟩
  rw [forall_and, ← hfull, hshares]
  constructor
  · intro h
    exact ⟨by omega, fun hpos => hwritten.mp (by omega) (by omega)⟩
  · rintro ⟨hanswer, hok⟩
    rw [← hanswer]
    exact hwritten.mpr fun hpos => hok (by omega)

/-- INTERNAL: what is written at the file of this round, and what comes after it across the files
from the next one on, is written across the files from this one on.
SOURCE: disk_manager.rs:66-110 -/
theorem writeAcross_round {job : FlushJob} {offset count : ℕ} (hidx : job.idx < s.handles.length)
    (hjob : Running s job) (hspan : flushSpanOf s job = .part offset count)
    (hcursor : jobCursor s (job.advance count) = jobCursor s job + count) {data rest : Bytes}
    (hdata : data.length = count)
    (hroom : jobCursor s job + count + rest.length ≤ lastCursor s (jobStart s job) (jobStop s job)) :
    writeAcross 0 (s.writeFile job.idx offset data).disk ((segments s).drop (job.idx + 1))
        (jobCursor s job + count - fileStart s (job.idx + 1)) rest =
      writeAcross 0 s.disk ((segments s).drop job.idx) (jobCursor s job - fileStart s job.idx)
        (data ++ rest) := by
  obtain ⟨file, path, -, hhandle, hseg, hfileNext⟩ := exists_file hidx
  obtain ⟨hlt, hget⟩ := List.getElem?_eq_some_iff.mp hseg
  have htouches := flushSpanOf_touches hidx hjob
  have hspec := flushSpanOf_spec hidx hjob
  rw [hspan] at htouches hspec
  obtain ⟨hoffset, -, hfits⟩ := hspec
  -- the rest goes to the next file, or there is none
  have hrest : rest = [] ∨ offset + data.length = file.size := by
    rw [← List.length_eq_zero_iff]
    have hend : lastCursor s (jobStart s job) (jobStop s job) ≤ jobStop s job :=
      (cursor_bounds (Nat.le_add_right _ _)).2
    have hnextCursor : cursor (jobStart s job) (jobStop s job) (fileStart s (job.idx + 1)) =
      jobCursor s job + count := hcursor
    unfold cursor at hnextCursor
    have hbefore := htouches.2.2.1
    omega
  rw [List.drop_eq_getElem_cons hlt, hget,
    show jobCursor s job - fileStart s job.idx = offset by omega, disk_writeFile hhandle,
    writeAcross_cons 0 s.disk path _ (by omega) hrest]
  congr 1
  omega

/-- INTERNAL: a file that ends at or before the piece is passed over. -/
theorem FlushProgress.skip {job : FlushJob} {getData : ℕ → ℕ → ℕ → Bytes} {io : ℕ → IoOutcome}
    {result : FlushResult} (hidx : job.idx < s.handles.length) (hjob : Running s job)
    (hspan : flushSpanOf s job = .skip) (hcursor : jobCursor s (job.advance 0) = jobCursor s job)
    (h : FlushProgress s (job.advance 0) getData io result) :
    FlushProgress s job getData io result := by
  obtain ⟨hle, hfull, hplaced, hover⟩ := h
  rw [hcursor] at hle hfull hplaced hover
  have htouches := flushSpanOf_touches hidx hjob
  rw [hspan] at htouches
  refine ⟨hle, hfull.trans (Iff.symm (forall_touched_iff.trans ?_)), fun hall => ?_, hover⟩
  · exact and_iff_right fun h => absurd h.1 (not_touches_of_skip htouches)
  · obtain ⟨file, path, -, -, hseg, hfileNext⟩ := exists_file hidx
    obtain ⟨hlt, hget⟩ := List.getElem?_eq_some_iff.mp hseg
    have hbefore := (jobCursor_bounds s job).1
    dsimp only at htouches
    rw [hplaced hall, List.drop_eq_getElem_cons hlt, hget, writeAcross, if_neg (by omega)]
    change writeAcross 0 s.disk _ (jobCursor s job - fileStart s (job.idx + 1)) _ = _
    congr 1
    omega

/-- INTERNAL: how far a flush gets from any round on, when no error is reported to it and the piece
actor may stop at any time. The induction is on the rounds left.
SOURCE: disk_manager.rs:62-112 -/
theorem flushLoop_progress {getData : ℕ → ℕ → ℕ → Bytes} {io : ℕ → IoOutcome} {rounds : ℕ}
    (job : FlushJob)
    (hanswers : ∀ idx, Stopped (getData idx) ∨
      AnswersInFull (getData idx) job.pieceManager.pieceLength)
    (hreply : (flushLoop getData io rounds s job).reply = true)
    (hrounds : job.idx + rounds = s.handles.length) (hjob : Running s job) :
    FlushProgress s job getData io (flushLoop getData io rounds s job) := by
  induction rounds generalizing s job with
  | zero =>
    refine flushProgress_of_end getData io ?_ fun j hj htouches => ?_
    · unfold jobCursor lastCursor
      rw [show job.idx = s.handles.length from hrounds, fileStart_length]
    · have hlt := htouches.1
      rw [length_handles] at hrounds
      omega
  | succ rounds ih =>
    have hidx : job.idx < s.handles.length := by omega
    have hnext (count : ℕ) := advance_idx_add count hrounds
    have htouches := flushSpanOf_touches hidx hjob
    rcases flushSpanOf_cases hidx hjob with ⟨hspan, hend⟩ | ⟨hspan, hrunning, hcursor⟩ |
      ⟨offset, count, hspan, hslice, ⟨hrunning, hcursor⟩, hwrites⟩
    · rw [hspan] at htouches
      rw [flushLoop_done hspan]
      refine flushProgress_of_end getData io ?_ fun j hj => not_touches_of_done htouches hj
      have hmono : jobCursor s job ≤ lastCursor s (jobStart s job) (jobStop s job) :=
        cursor_mono (fileStart_le_totalSize s job.idx)
      have hbound : lastCursor s (jobStart s job) (jobStop s job) ≤ jobStop s job :=
        (cursor_bounds (Nat.le_add_right _ _)).2
      omega
    · rw [flushLoop_skip hspan] at hreply ⊢
      exact (ih (job.advance 0) hanswers hreply (hnext 0) hrunning).skip hidx hjob hspan hcursor
    · rw [flushLoop_part hspan] at hreply ⊢
      by_cases hreported : Reported (io job.idx)
      · rw [if_pos hreported] at hreply
        cases hreply
      rw [if_neg hreported] at hreply ⊢
      rw [hspan] at htouches
      have hshares : Shares s (jobStart s job) (jobStop s job) job.idx ↔ 0 < count := by
        have hmoves := shares_iff_of_touches htouches
        change _ ↔ jobCursor s job < jobCursor s (job.advance count) at hmoves
        rw [hmoves, hcursor]
        omega
      obtain ⟨hlen, hhere⟩ := written_full_iff hreported (hanswers job.idx) hslice hshares hcursor
      generalize writtenOf (io job.idx) (getData job.idx (sliceOf job count).1
        (sliceOf job count).2) = data at *
      obtain ⟨hover, -⟩ := hwrites data hlen
      obtain ⟨hle', hfull', hplaced', hover'⟩ := ih (s := s.writeFile job.idx offset data)
        (job.advance count) hanswers hreply (hnext count) hrunning
      have hcursor' : jobCursor (s.writeFile job.idx offset data) (job.advance count) =
          jobCursor s job + count := hcursor
      rw [hcursor'] at hle' hfull' hplaced' hover'
      change _ ≤ lastCursor s (jobStart s job) (jobStop s job) at hle'
      change _ = lastCursor s (jobStart s job) (jobStop s job) ↔ _ at hfull'
      change _ = lastCursor s (jobStart s job) (jobStop s job) → _ at hplaced' hover'
      refine ⟨?_, ?_, fun hall => ?_, fun hall hseparate => ?_⟩
      · rw [List.length_append]
        omega
      · rw [List.length_append]
        refine Iff.trans ?_ (Iff.symm (forall_touched_iff.trans (and_congr hhere hfull').symm))
        omega
      · rw [List.length_append] at hall
        exact (hplaced' (by omega)).trans
          (writeAcross_round hidx hjob hspan hcursor (by omega) (by omega))
      · rw [List.length_append] at hall
        have hcount : data.length = count := by omega
        refine (hover hseparate).append ?_
        rw [hcount]
        exact hover' (by omega) hseparate

/-! ## Reading -/

/-- A read meets an error: a seek or read fails, or the file does not have all the bytes. -/
def ReadFails (s : DiskManagerActor) (io : ℕ → IoOutcome) (start stop j : ℕ) : Prop :=
  Touches s start stop j ∧ (io j ≠ .ok ∨ Missing s start stop j)

/-- INTERNAL: the bytes of the range that a file has room for are read exactly when all of them are
there, and then they are those of the stream.
SOURCE: disk_manager.rs:149-160 -/
theorem readExact_cases {j offset count size : ℕ} {path : PathBuf}
    (hseg : (segments s)[j]? = some (size, path))
    (hnext : fileStart s (j + 1) = fileStart s j + size) (htouches : Touches s start stop j)
    (hoffset : fileStart s j + offset = cursor start stop (fileStart s j))
    (hcount : cursor start stop (fileStart s j) + count = cursor start stop (fileStart s (j + 1))) :
    (readExact (s.disk path) offset count = none ∧ Missing s start stop j) ∨
      ∃ d, readExact (s.disk path) offset count = some d ∧ d.length = count ∧
        Carries (stream s) (cursor start stop (fileStart s j)) d ∧ ¬ Missing s start stop j := by
  obtain ⟨-, hlt, hbefore, hafter⟩ := htouches
  rw [hnext] at hbefore hcount
  have hfits : offset + count ≤ size := by
    unfold cursor at *
    omega
  -- the addresses of the range in this file are those from the cursor on
  cases hread : readExact (s.disk path) offset count with
  | none =>
    left
    refine ⟨rfl, ?_⟩
    unfold readExact at hread
    split_ifs at hread with hzero hlen
    have hlast := stream_file hseg (show offset + count - 1 < size by omega)
    rw [List.getElem?_eq_none (by omega)] at hlast
    refine ⟨_, ?_, ?_, ?_, ?_, hlast⟩ <;> unfold cursor at * <;> omega
  | some d =>
    obtain ⟨hlen, hd⟩ := readExact_eq_some_iff.mp hread
    refine Or.inr ⟨d, rfl, hlen, ?_, ?_⟩
    · intro k hk
      rw [← hoffset, Nat.add_assoc, stream_file hseg (by omega), hd k (by omega)]
    · rintro ⟨x, hstart, hstop, hfirst, hlast, hnone⟩
      have hk : x - fileStart s j - offset < d.length := by
        unfold cursor at *
        omega
      have hx := stream_file hseg (show x - fileStart s j < size by omega)
      rw [show fileStart s j + (x - fileStart s j) = x by omega, hnone,
        show x - fileStart s j = offset + (x - fileStart s j - offset) by unfold cursor at *; omega,
        hd _ (by omega), List.getElem?_eq_getElem hk] at hx
      cases hx

/-- INTERNAL: what a read comes to from any round on: it meets an error, or it collects the bytes of
the range that the files have room for. The induction is on the rounds left.
SOURCE: disk_manager.rs:113-166 -/
theorem readLoop_cases {io : ℕ → IoOutcome} (hle : start ≤ stop) {rounds : ℕ} (idx : ℕ)
    (hrounds : idx + rounds = s.handles.length) (data : Bytes) :
    (s.readLoop start stop io rounds idx (stop - cursor start stop (fileStart s idx)) data = none ∧
        ∃ j, idx ≤ j ∧ ReadFails s io start stop j) ∨
      ∃ d, s.readLoop start stop io rounds idx (stop - cursor start stop (fileStart s idx)) data =
          some (data ++ d) ∧
        cursor start stop (fileStart s idx) + d.length = lastCursor s start stop ∧
        Carries (stream s) (cursor start stop (fileStart s idx)) d ∧
        ∀ j, idx ≤ j → ¬ ReadFails s io start stop j := by
  induction rounds generalizing idx data with
  | zero =>
    refine Or.inr ⟨[], by rw [readLoop, List.append_nil], ?_, nofun, fun j hj hfails => ?_⟩
    · rw [show idx = s.handles.length from hrounds, fileStart_length]
      rfl
    · have hlt := hfails.1.1
      rw [length_handles] at hrounds
      omega
  | succ rounds ih =>
    have hidx : idx < s.handles.length := by omega
    obtain ⟨file, path, hfile, hhandle, hseg, hnext⟩ := exists_file hidx
    have hspec := flushSpan_spec hle (fileStart s idx) file.size
    have htouches := flushSpan_touches hle (fileStart s idx) file.size
    unfold readLoop readRound
    simp only [hhandle, hfile, readSpan_eq_flushSpan]
    rw [← hnext] at hspec htouches
    cases hcase : flushSpan start stop (stop - cursor start stop (fileStart s idx))
        (fileStart s idx) file.size with
    | done =>
      rw [hcase] at hspec htouches
      refine Or.inr ⟨[], by simp, ?_, nofun, fun j hj hfails => ?_⟩
      · have hmono : cursor start stop (fileStart s idx) ≤ lastCursor s start stop :=
          cursor_mono (fileStart_le_totalSize s idx)
        have hbound : lastCursor s start stop ≤ stop := (cursor_bounds hle).2
        rw [hspec, List.length_nil] at *
        omega
      · exact not_touches_of_done htouches hj hfails.1
    | skip =>
      rw [hcase] at hspec htouches
      have hnot : ¬ ReadFails s io start stop idx := fun h => not_touches_of_skip htouches h.1
      have hrest := ih (idx + 1) (by omega) data
      rw [show cursor start stop (fileStart s (idx + 1)) = _ from hspec] at hrest
      rcases hrest with ⟨hnone, j, hj, hfails⟩ | ⟨d, hsome, hlen, hcarries, hall⟩
      · exact Or.inl ⟨hnone, j, by omega, hfails⟩
      · exact Or.inr ⟨d, hsome, hlen, hcarries, forall_touched_iff.mpr ⟨hnot, hall⟩⟩
    | part offset count =>
      rw [hcase] at hspec htouches
      obtain ⟨hoffset, hcount, -⟩ := hspec
      have htouched : Touches s start stop idx := ⟨by rwa [← length_handles], htouches⟩
      rcases readExact_cases hseg hnext htouched hoffset hcount with ⟨hread, hmissing⟩ |
        ⟨d, hread, hlen, hcarries, hthere⟩
      · refine Or.inl ⟨?_, idx, Nat.le_refl _, htouched, Or.inr hmissing⟩
        simp only [hread]
        cases io idx <;> rfl
      · cases hio : io idx with
        | seekError | transferError written | lateError written =>
          exact Or.inl ⟨rfl, idx, Nat.le_refl _, htouched, Or.inl (by simp [hio])⟩
        | ok =>
          have hnot : ¬ ReadFails s io start stop idx := by
            rintro ⟨-, hbad | hbad⟩
            · exact hbad hio
            · exact hthere hbad
          simp only [hread]
          have hrest := ih (idx + 1) (by omega) (data ++ d)
          rw [← hcount, Nat.sub_add_eq] at hrest
          rcases hrest with ⟨hnone, j, hj, hfails⟩ | ⟨d', hsome, hlen', hcarries', hall⟩
          · exact Or.inl ⟨hnone, j, by omega, hfails⟩
          · refine Or.inr ⟨d ++ d', ?_, ?_, ?_, forall_touched_iff.mpr ⟨hnot, hall⟩⟩
            · rw [hsome, List.append_assoc]
            · rw [List.length_append]
              omega
            · rw [hlen.symm] at hcarries'
              exact hcarries.append hcarries'

/-! ## Requests whose success means that they are complete -/

/-- The piece actor is there, with a buffer of the length of the piece. -/
def Serves (m : PieceRequestManager) (getData : ℕ → ℕ → Bytes) : Prop :=
  ∃ actor : PieceRequestManagerActor, actor.data.length = m.pieceLength ∧ getData = actor.getData

/-- If the flush is answered `true`, then as many bytes as the piece has were written, over its
range, and they are found there unless the flush overwrote itself. -/
def FlushComplete (s : DiskManagerActor) (m : PieceRequestManager) (e : DiskEvent) : Prop :=
  ∀ t, diskStep s e = some (t, .flushed) →
    let written := (s.flushPieceToDisk m e.getData e.io).written
    written.length = m.pieceLength ∧
      t.disk = writeAcross 0 s.disk (segments s) (m.index * s.stdPieceLen) written ∧
      (Separate (segments s) → Carries (stream t) (m.index * s.stdPieceLen) written)

/-- If the read is answered with bytes, they are as many as were asked for and those of the
stream. -/
def ReadComplete (s : DiskManagerActor) (pieceIndex offset length : ℕ) (e : DiskEvent) : Prop :=
  ∀ t d, diskStep s e = some (t, .data d) →
    d.length = length ∧ Carries (stream s) (pieceIndex * s.stdPieceLen + offset) d

/-- An error is reported to the flush; or the files have room for the piece, and whenever a file
shares bytes with it, its actor is there and the write does not fail later. -/
def FlushCovered (s : DiskManagerActor) (m : PieceRequestManager) (e : DiskEvent) : Prop :=
  let start := m.index * s.stdPieceLen
  let stop := start + m.pieceLength
  (∃ j, Touches s start stop j ∧ Reported (e.io j)) ∨
    (m.pieceLength = 0 ∨ stop ≤ totalSize s) ∧
      ∀ j, Shares s start stop j → Serves m (e.getData j) ∧ e.io j = .ok

/-- The read meets an error, or it asks for nothing, or its range ends inside the files. -/
def ReadCovered (s : DiskManagerActor) (pieceIndex offset length : ℕ) (e : DiskEvent) : Prop :=
  let start := pieceIndex * s.stdPieceLen + offset
  let stop := start + length
  (∃ j, ReadFails s e.io start stop j) ∨ length = 0 ∨ stop ≤ totalSize s

theorem Serves.inFull {m : PieceRequestManager} {getData : ℕ → ℕ → Bytes} (h : Serves m getData) :
    AnswersInFull getData m.pieceLength := by
  obtain ⟨actor, hlength, rfl⟩ := h
  rw [← hlength]
  exact (answers_getData actor).inFull

/-- INTERNAL: a flush is answered `true` exactly when no error is reported to it.
SOURCE: disk_manager.rs:62-112 -/
theorem flushPieceToDisk_reply_iff {m : PieceRequestManager} {getData : ℕ → ℕ → ℕ → Bytes}
    {io : ℕ → IoOutcome} :
    (s.flushPieceToDisk m getData io).reply = true ↔
      ∀ j, Touches s (m.index * s.stdPieceLen) (m.index * s.stdPieceLen + m.pieceLength) j →
        ¬ Reported (io j) := by
  refine (flushLoop_reply_iff (.begin m) (Nat.zero_add s.handles.length) (running_begin s m)).trans ?_
  exact ⟨fun h j => h j (Nat.zero_le _), fun h j _ => h j⟩

/-- INTERNAL: when the bytes that a flush wrote are the whole piece.
SOURCE: disk_manager.rs:62-112 -/
theorem flush_whole_iff {m : PieceRequestManager} {getData : ℕ → ℕ → ℕ → Bytes}
    {io : ℕ → IoOutcome} (hanswers : ∀ idx, Stopped (getData idx) ∨ Serves m (getData idx))
    (hreply : (s.flushPieceToDisk m getData io).reply = true) :
    ((s.flushPieceToDisk m getData io).written.length = m.pieceLength ∧
      (s.flushPieceToDisk m getData io).actor.disk = writeAcross 0 s.disk (segments s)
        (m.index * s.stdPieceLen) (s.flushPieceToDisk m getData io).written ∧
      (Separate (segments s) → Carries (stream (s.flushPieceToDisk m getData io).actor)
        (m.index * s.stdPieceLen) (s.flushPieceToDisk m getData io).written)) ↔
    (m.pieceLength = 0 ∨ m.index * s.stdPieceLen + m.pieceLength ≤ totalSize s) ∧
      ∀ j, Shares s (m.index * s.stdPieceLen) (m.index * s.stdPieceLen + m.pieceLength) j →
        Serves m (getData j) ∧ io j = .ok := by
  have hinFull (idx : ℕ) := (hanswers idx).imp_right Serves.inFull
  have hprogress := flushLoop_progress (.begin m) hinFull hreply (Nat.zero_add s.handles.length)
    (running_begin s m)
  change FlushProgress s (.begin m) getData io (s.flushPieceToDisk m getData io) at hprogress
  generalize s.flushPieceToDisk m getData io = result at hprogress ⊢
  obtain ⟨hle, hfull, hplaced, hover⟩ := hprogress
  rw [jobCursor_begin] at hle hfull hplaced hover
  generalize hstart : m.index * s.stdPieceLen = start
  have hjob : jobStart s (.begin m) = start := hstart
  have hjob' : jobStop s (.begin m) = start + m.pieceLength := by rw [jobStop, hjob]; rfl
  rw [hjob, hjob'] at hle hfull hplaced hover
  have hlast := lastCursor_eq_iff (s := s) (Nat.le_add_right start m.pieceLength)
  have hbound : lastCursor s start (start + m.pieceLength) ≤ start + m.pieceLength :=
    (cursor_bounds (Nat.le_add_right _ _)).2
  have hserves : (∀ j, 0 ≤ j → Shares s start (start + m.pieceLength) j →
      AnswersInFull (getData j) m.pieceLength ∧ io j = .ok) ↔
      ∀ j, Shares s start (start + m.pieceLength) j → Serves m (getData j) ∧ io j = .ok := by
    refine ⟨fun h j hshares => ?_,
      fun h j _ hshares => ⟨(h j hshares).1.inFull, (h j hshares).2⟩⟩
    obtain ⟨hall, hio⟩ := h j (Nat.zero_le _) hshares
    rcases hanswers j with hstopped | hserves
    · -- a stopped actor does not answer in full for a piece that is not empty
      have hlt := hshares.1.2.1
      have hwhole := hall 0 m.pieceLength (Nat.zero_le _) (Nat.le_refl _)
      rw [show getData j = _ from hstopped, List.length_nil] at hwhole
      omega
    · exact ⟨hserves, hio⟩
  rw [← hserves]
  refine Iff.trans ?_ (and_congr_right' hfull)
  constructor
  · rintro ⟨hwritten, -⟩
    omega
  · rintro ⟨hroom, hall⟩
    have hplace := hplaced hall
    change _ = writeAcross 0 s.disk (segments s) (start - 0) _ at hplace
    exact ⟨by omega, hplace, fun hseparate => carries_of_overlays (hover hall hseparate)⟩

/-- INTERNAL: what a read comes to: it meets an error, or it collects the bytes of the range that
the files have room for.
SOURCE: disk_manager.rs:113-166 -/
theorem getDataWithLength_cases (s : DiskManagerActor) (pieceIndex offset length : ℕ)
    (io : ℕ → IoOutcome) {start : ℕ} (hstart : pieceIndex * s.stdPieceLen + offset = start) :
    (s.getDataWithLength pieceIndex offset length io = none ∧
        ∃ j, ReadFails s io start (start + length) j) ∨
      ∃ d, s.getDataWithLength pieceIndex offset length io = some d ∧
        start + d.length = lastCursor s start (start + length) ∧ Carries (stream s) start d ∧
        ∀ j, ¬ ReadFails s io start (start + length) j := by
  have hle := Nat.le_add_right start length
  have hbegin : cursor start (start + length) (fileStart s 0) = start := by
    unfold cursor fileStart
    simp
  have hcases : _ ∨ ∃ d, s.readLoop start (start + length) io _ 0 _ [] = _ ∧ _ :=
    readLoop_cases hle 0 (Nat.zero_add s.handles.length) []
  rw [hbegin] at hcases
  unfold getDataWithLength
  rw [hstart]
  rcases hcases with ⟨hnone, j, -, hfails⟩ | ⟨d, hsome, hlen, hcarries, hall⟩
  · exact Or.inl ⟨hnone, j, hfails⟩
  · exact Or.inr ⟨d, hsome, hlen, hcarries, fun j => hall j (Nat.zero_le _)⟩

/-- INTERNAL: a range that the stream carries is read back, when no seek or read fails. -/
theorem getDataWithLength_spec {pieceIndex offset : ℕ} {data : Bytes}
    (hcarries : Carries (stream s) (pieceIndex * s.stdPieceLen + offset) data)
    (hstop : pieceIndex * s.stdPieceLen + offset + data.length ≤ totalSize s) :
    s.getDataWithLength pieceIndex offset data.length (fun _ => .ok) = some data := by
  generalize hstart : pieceIndex * s.stdPieceLen + offset = start at hcarries hstop
  rcases getDataWithLength_cases s pieceIndex offset data.length (fun _ => .ok) hstart with
    ⟨-, j, -, hbad | ⟨x, hlo, hhi, -, -, hmissing⟩⟩ | ⟨d, hsome, hlen, hd, -⟩
  · exact absurd rfl hbad
  · have hx := hcarries (x - start) (by omega)
    rw [Nat.add_sub_cancel' hlo, hmissing, List.getElem?_eq_getElem (by omega)] at hx
    cases hx
  · have hlast := (lastCursor_eq_iff (Nat.le_add_right start data.length)).mpr (Or.inr hstop)
    have hlength : d.length = data.length := by omega
    rw [hsome]
    refine congrArg some (List.ext_getElem? fun k => ?_)
    by_cases hk : k < data.length
    · rw [← hd k (hlength ▸ hk), hcarries k hk]
    · rw [List.getElem?_eq_none (by omega), List.getElem?_eq_none (by omega)]

/-- **For which requests success means complete.** For every layout of the files and whatever they
hold, and every piece actor that may stop at any time: a flush that is answered `true` has written
the whole piece over its range exactly when it is `FlushCovered`, and a read that is answered with
bytes has all the bytes of its range exactly when it is `ReadCovered`.
SOURCE: disk_manager.rs:62-166, piece_manager.rs:137-152, piece_manager.rs:274-283 -/
theorem success_means_complete_iff (s : DiskManagerActor) (e : DiskEvent) :
    (∀ m, e.msg = .flushPieceToDisk m →
      (∀ idx, Stopped (e.getData idx) ∨ Serves m (e.getData idx)) →
      (FlushComplete s m e ↔ FlushCovered s m e)) ∧
    ∀ pieceIndex offset length, e.msg = .getDataWithLength pieceIndex offset length →
      (ReadComplete s pieceIndex offset length e ↔ ReadCovered s pieceIndex offset length e) := by
  constructor
  · intro m hmsg hanswers
    have hreply : (s.flushPieceToDisk m e.getData e.io).reply = true ↔ _ :=
      flushPieceToDisk_reply_iff
    unfold FlushComplete FlushCovered diskStep
    rw [hmsg]
    by_cases hok : (s.flushPieceToDisk m e.getData e.io).reply = true
    · have hnot : ¬ ∃ j, Touches s (m.index * s.stdPieceLen)
          (m.index * s.stdPieceLen + m.pieceLength) j ∧ Reported (e.io j) := by
        rintro ⟨j, htouches, hbad⟩
        exact hreply.mp hok j htouches hbad
      simp only [or_iff_right hnot]
      rw [← flush_whole_iff hanswers hok]
      simp [hok]
    · refine iff_of_true (fun t ht => ?_) (Or.inl ?_)
      · simp [hok] at ht
      · rw [hreply] at hok
        push Not at hok
        exact hok
  · intro pieceIndex offset length hmsg
    unfold ReadComplete ReadCovered diskStep
    rw [hmsg]
    generalize hstart : pieceIndex * s.stdPieceLen + offset = start
    dsimp only
    rcases getDataWithLength_cases s pieceIndex offset length e.io hstart with
      ⟨hnone, hfails⟩ | ⟨d, hsome, hlen, hcarries, hall⟩
    · refine iff_of_true (fun t d hd => ?_) (Or.inl hfails)
      rw [hnone] at hd
      cases hd
    · have hnot : ¬ ∃ j, ReadFails s e.io start (start + length) j := not_exists.mpr hall
      have hlast := lastCursor_eq_iff (s := s) (Nat.le_add_right start length)
      simp only [or_iff_right hnot, hsome, Option.map_some]
      constructor
      · intro h
        obtain ⟨hlength, -⟩ := h s d rfl
        omega
      · rintro hroom t d' hd'
        cases hd'
        exact ⟨by omega, hcarries⟩

/-- A flush of the first of the nine bytes' pieces. -/
def firstFlush : DiskEvent := flushOf fourFiles nineBytes 0

/-- The same flush when the piece actor has stopped. -/
def stoppedFlush : DiskEvent := { firstFlush with getData := fun _ _ _ => [] }

/-- The same flush when its write to the first file fails after `write_all` took the bytes. -/
def lateFlush : DiskEvent :=
  { firstFlush with io := fun idx => if idx = 0 then .lateError 1 else .ok }

/-- A request for one byte of a piece that the nine bytes do not have. -/
def readBeyondFiles : DiskEvent := ⟨.getDataWithLength 3 0 1, fun _ _ _ => [], fun _ => .ok⟩

/-- A flush of a piece that is there and a read behind the last file. -/
theorem success_means_complete_iff_nineBytes :
    let first := managerHolding fourFiles nineBytes 0
    (FlushComplete fourFilesDisk first firstFlush ↔ FlushCovered fourFilesDisk first firstFlush) ∧
    (ReadComplete fourFilesDisk 3 0 1 readBeyondFiles ↔
      ReadCovered fourFilesDisk 3 0 1 readBeyondFiles) := by
  intro first
  have hserves (idx : ℕ) : Serves first (firstFlush.getData idx) :=
    ⟨pieceHolding (pieceOf fourFiles nineBytes 0), rfl, rfl⟩
  exact ⟨(success_means_complete_iff fourFilesDisk firstFlush).1 _ rfl fun idx =>
      Or.inr (hserves idx),
    (success_means_complete_iff fourFilesDisk readBeyondFiles).2 3 0 1 rfl⟩

/-- Nothing is written for a piece whose actor has stopped, less than the piece when a write fails
late, and nothing is read behind the last file; all of them are answered as a success. -/
theorem success_without_bytes :
    let first := managerHolding fourFiles nineBytes 0
    (∃ t, diskStep fourFilesDisk stoppedFlush = some (t, .flushed)) ∧
    ¬ FlushComplete fourFilesDisk first stoppedFlush ∧
    (∃ t, diskStep fourFilesDisk lateFlush = some (t, .flushed)) ∧
    ¬ FlushComplete fourFilesDisk first lateFlush ∧
    diskStep fourFilesDisk readBeyondFiles = some (fourFilesDisk, .data []) ∧
    ¬ ReadComplete fourFilesDisk 3 0 1 readBeyondFiles := by
  have hstopped : ∃ t, diskStep fourFilesDisk stoppedFlush = some (t, .flushed) := ⟨_, rfl⟩
  have hlate : ∃ t, diskStep fourFilesDisk lateFlush = some (t, .flushed) := ⟨_, rfl⟩
  have hread : diskStep fourFilesDisk readBeyondFiles = some (fourFilesDisk, .data []) := rfl
  refine ⟨hstopped, fun h => ?_, hlate, fun h => ?_, hread, fun h => ?_⟩
  · obtain ⟨t, ht⟩ := hstopped
    have hlen := (h t ht).1
    revert hlen
    decide +kernel
  · obtain ⟨t, ht⟩ := hlate
    have hlen := (h t ht).1
    revert hlen
    decide +kernel
  · have hlen := (h _ _ hread).1
    revert hlen
    decide

end Fissure.Analysis
