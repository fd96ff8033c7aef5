import Fissure.Analysis.DiskSteps
import Fissure.Library.Transition
import Fissure.Model.PieceManager

/-!
# The layout of the content on disk

The pieces of a torrent cut its content into disjoint ranges that cover it
(`exists_piece`, `pieces_disjoint`), and the files cut the same stream into other ranges. A flush
of a piece writes the range of that piece and no other (`FlushesPiece.keeps`). So flushes of pieces
that hold the content, in any order, leave every file with its part of the content, as long as no
two entries of the list of files open one file (`files_hold_content_iff`).
-/

set_option autoImplicit false

namespace Fissure.Analysis

open Fissure.Library Fissure.Model Fissure.Interface
open Fissure.Model.DiskManagerActor

/-! ## The pieces of the content -/

section Pieces

variable {m : MetaInfo}

/-- The bytes of piece `i`. -/
def pieceOf (m : MetaInfo) (content : Bytes) (i : ℕ) : Bytes :=
  (content.drop (i * m.info.pieceLength)).take (m.pieceLen i)

theorem piece_le_totalLength (h : 0 < m.info.pieceLength) {i : ℕ} (hi : i < m.pieceCount) :
    i * m.info.pieceLength + m.pieceLen i ≤ m.totalLength := by
  have hlt := (MetaInfo.lt_pieceCount_iff h).mp hi
  unfold MetaInfo.pieceLen
  omega

theorem length_pieceOf (h : 0 < m.info.pieceLength) {content : Bytes}
    (hcontent : content.length = m.totalLength) {i : ℕ} (hi : i < m.pieceCount) :
    (pieceOf m content i).length = m.pieceLen i := by
  have hle := piece_le_totalLength h hi
  unfold pieceOf
  rw [List.length_take, List.length_drop, hcontent]
  omega

theorem pieces_disjoint (m : MetaInfo) {i j : ℕ} (hij : i ≠ j) :
    i * m.info.pieceLength + m.pieceLen i ≤ j * m.info.pieceLength ∨
      j * m.info.pieceLength + m.pieceLen j ≤ i * m.info.pieceLength := by
  have hnext {a b : ℕ} (hab : a < b) :
      a * m.info.pieceLength + m.pieceLen a ≤ b * m.info.pieceLength := by
    have hmul := Nat.mul_le_mul_right m.info.pieceLength hab
    rw [Nat.succ_mul] at hmul
    unfold MetaInfo.pieceLen
    omega
  rcases Nat.lt_or_gt_of_ne hij with hlt | hgt
  · exact Or.inl (hnext hlt)
  · exact Or.inr (hnext hgt)

theorem exists_piece (h : 0 < m.info.pieceLength) {x : ℕ} (hx : x < m.totalLength) :
    ∃ i < m.pieceCount, i * m.info.pieceLength ≤ x ∧
      x < i * m.info.pieceLength + m.pieceLen i := by
  have hdiv := Nat.div_add_mod' x m.info.pieceLength
  have hmod := Nat.mod_lt x h
  refine ⟨x / m.info.pieceLength, ?_, by omega, ?_⟩
  · rw [MetaInfo.lt_pieceCount_iff h]
    omega
  · unfold MetaInfo.pieceLen
    omega

end Pieces

/-! ## The disk actor of a torrent -/

/-- The entries of a list of files: their sizes, and the files that their paths lead to. -/
def entries (fileSystem : FileSystem) (downloadPath : PathBuf) (files : List LocalFile) :
    List (ℕ × Option PathBuf) :=
  files.map fun file => (file.size, fileSystem.fileAt (downloadPath.push file.path))

/-- The disk actor serves the torrent: it has its piece length and files of its sizes, and no two
of them that hold something are one. -/
structure DiskOf (m : MetaInfo) (s : DiskManagerActor) : Prop where
  stdPieceLen_eq : s.stdPieceLen = m.info.pieceLength
  sizes : s.files.map LocalFile.size = m.fileLengths
  separate : Separate (segments s)

theorem totalSize_eq {m : MetaInfo} {s : DiskManagerActor}
    (h : s.files.map LocalFile.size = m.fileLengths) : totalSize s = m.totalLength := by
  unfold totalSize MetaInfo.totalLength
  rw [h]

theorem DiskOf.totalSize_eq {m : MetaInfo} {s : DiskManagerActor} (h : DiskOf m s) :
    totalSize s = m.totalLength :=
  Analysis.totalSize_eq h.sizes

theorem DiskOf.of_sameTable {m : MetaInfo} {s t : DiskManagerActor} (h : DiskOf m s)
    (hsame : SameTable t s) : DiskOf m t where
  stdPieceLen_eq := by rw [hsame.stdPieceLen, h.stdPieceLen_eq]
  sizes := by rw [hsame.files, h.sizes]
  separate := by
    rw [hsame.segments_eq]
    exact h.separate

/-- INTERNAL: no request opens or closes a file.
SOURCE: disk_manager.rs:59-170 -/
theorem diskStep_sameTable {s t : DiskManagerActor} {e : DiskEvent} {r : DiskReply}
    (h : diskStep s e = some (t, r)) : SameTable t s := by
  unfold diskStep at h
  cases hmsg : e.msg with
  | flushPieceToDisk pieceManager =>
    rw [hmsg] at h
    dsimp only at h
    split_ifs at h
    cases h
    exact flushLoop_sameTable _ _ _ _ _
  | getDataWithLength pieceIndex offset length =>
    rw [hmsg] at h
    obtain ⟨data, -, hdata⟩ := Option.map_eq_some_iff.mp h
    cases hdata
    exact .refl s

theorem run_sameTable {s t : DiskManagerActor} {es : List DiskEvent}
    (h : run diskStep s es = some t) : SameTable t s := by
  have hstep (u : DiskManagerActor) (e : DiskEvent) (v : DiskManagerActor) (r : DiskReply)
      (hsame : SameTable u s) (hu : diskStep u e = some (v, r)) : SameTable v s :=
    (diskStep_sameTable hu).trans hsame
  exact run_invariant hstep (.refl s) h

section New

variable {fileSystem : FileSystem} {downloadPath : PathBuf} {files : List LocalFile}
  {stdPieceLen : ℕ} {s : DiskManagerActor}

/-- INTERNAL: the files that are opened are those that the paths of the list lead to.
SOURCE: disk_manager.rs:30-51 -/
theorem entries_eq_of_openFiles {byteOffset : ℕ} {handles : List (ℕ × PathBuf)}
    (h : openFiles fileSystem downloadPath byteOffset files = some handles) :
    entries fileSystem downloadPath files =
      (List.zipWith (fun file handle => (file.size, handle.2)) files handles).map
        (Prod.map id some) := by
  induction files generalizing byteOffset handles with
  | nil => rfl
  | cons file files ih =>
    unfold openFiles at h
    simp only [Option.bind_eq_bind, Option.bind_eq_some_iff, Option.some.injEq] at h
    obtain ⟨handle, hhandle, rest, hrest, rfl⟩ := h
    rw [List.zipWith_cons_cons, List.map_cons, ← ih hrest, Prod.map_apply, ← hhandle]
    rfl

theorem entries_eq (h : DiskManagerActor.new fileSystem downloadPath files stdPieceLen = some s) :
    entries fileSystem downloadPath files = (segments s).map (Prod.map id some) := by
  obtain ⟨-, hfiles, -, hopen⟩ := new_eq_some h
  rw [entries_eq_of_openFiles hopen, segments, hfiles]

/-- INTERNAL: whether the opened files are distinct can be told from the list. -/
theorem separate_entries_iff
    (h : DiskManagerActor.new fileSystem downloadPath files stdPieceLen = some s) :
    Separate (entries fileSystem downloadPath files) ↔ Separate (segments s) := by
  rw [entries_eq h]
  exact separate_map_iff (Option.some_injective _) (segments s)

theorem distinct_entries_iff
    (h : DiskManagerActor.new fileSystem downloadPath files stdPieceLen = some s) :
    Distinct (entries fileSystem downloadPath files) ↔ Distinct (segments s) := by
  rw [entries_eq h]
  exact distinct_map_iff (Option.some_injective _) (segments s)

/-- INTERNAL: `DiskManagerActor::new` is the disk actor of the torrent it is called for.
SOURCE: disk_manager.rs:25-58, torrent_manager.rs:42-60 -/
theorem diskOf_new {m : MetaInfo} (hfiles : m.localFiles = some files)
    (h : DiskManagerActor.new fileSystem downloadPath files m.getStandardPieceLen = some s)
    (hseparate : Separate (entries fileSystem downloadPath files)) : DiskOf m s := by
  obtain ⟨hlen, hs, -⟩ := new_eq_some h
  exact ⟨hlen, by rw [hs, MetaInfo.size_localFiles hfiles], (separate_entries_iff h).mp hseparate⟩

end New

/-- INTERNAL: files that are empty are not too long. -/
theorem fits_of_empty {s : DiskManagerActor}
    (hempty : ∀ handle ∈ s.handles, s.disk handle.2 = []) : Fits s.disk (segments s) := by
  intro seg hseg
  obtain ⟨j, hj⟩ := List.mem_iff_getElem?.mp hseg
  have hlt := (List.getElem?_eq_some_iff.mp hj).1
  rw [length_segments] at hlt
  obtain ⟨file, path, -, hhandle, hseg', -⟩ := exists_file hlt
  rw [hseg', Option.some.injEq] at hj
  rw [← hj, hempty _ (List.mem_of_getElem? hhandle)]
  exact Nat.zero_le _

/-! ## One flush of a piece -/

/-- The event is a flush of piece `i`, which `pieceManager` manages. -/
structure FlushesPiece (m : MetaInfo) (i : ℕ) (pieceManager : PieceRequestManager)
    (e : DiskEvent) : Prop where
  lt : i < m.pieceCount
  msg : e.msg = .flushPieceToDisk pieceManager
  index_eq : pieceManager.index = i
  pieceLength_eq : m.getPieceLength i = some pieceManager.pieceLength

/-- The answers are those of a piece actor, or of none when it is gone. -/
def FromPieceActor (getData : ℕ → ℕ → Bytes) : Prop :=
  getData = (fun _ _ => []) ∨ ∃ actor : PieceRequestManagerActor, getData = actor.getData

section Flush

variable {m : MetaInfo} {i : ℕ} {pieceManager : PieceRequestManager} {s : DiskManagerActor}
  {e : DiskEvent}

theorem FlushesPiece.pieceLength_eq_pieceLen (hmeta : m.WellSized)
    (h : FlushesPiece m i pieceManager e) : pieceManager.pieceLength = m.pieceLen i := by
  have hlength := h.pieceLength_eq
  rw [MetaInfo.getPieceLength_eq hmeta h.lt, Option.some.injEq] at hlength
  exact hlength.symm

/-- INTERNAL: a live piece actor answers with the slices of its buffer.
SOURCE: piece_manager.rs:137-152 -/
theorem answers_getData (actor : PieceRequestManagerActor) : Answers actor.getData actor.data := by
  intro a b hab hb
  unfold PieceRequestManagerActor.getData
  rw [if_pos ⟨hb, hab⟩]

theorem FromPieceActor.atMost {getData : ℕ → ℕ → Bytes} (h : FromPieceActor getData) :
    AnswersAtMost getData := by
  intro a b
  rcases h with rfl | ⟨actor, rfl⟩
  · exact Nat.zero_le _
  · unfold PieceRequestManagerActor.getData
    split_ifs
    · rw [List.length_take]
      exact Nat.min_le_left _ _
    · exact Nat.zero_le _

theorem Answers.inFull {getData : ℕ → ℕ → Bytes} {data : Bytes} (h : Answers getData data) :
    AnswersInFull getData data.length := by
  intro a b hab hb
  rw [h a b hab hb, List.length_take, List.length_drop]
  omega

/-- INTERNAL: a flush of a piece changes nothing outside the piece.
SOURCE: disk_manager.rs:62-112 -/
theorem FlushesPiece.keeps (hmeta : m.WellSized) (hlen : s.stdPieceLen = m.info.pieceLength)
    (h : FlushesPiece m i pieceManager e) (hanswers : ∀ idx, AnswersAtMost (e.getData idx)) :
    FlushKeeps s (s.flushPieceToDisk pieceManager e.getData e.io)
      (i * m.info.pieceLength) (i * m.info.pieceLength + m.pieceLen i) := by
  rw [← h.pieceLength_eq_pieceLen hmeta, ← hlen, ← h.index_eq]
  exact flushPieceToDisk_keeps e.io hanswers

/-- INTERNAL: a flush without errors of a piece whose actor answers in full overlays the piece.
SOURCE: disk_manager.rs:62-112 -/
theorem FlushesPiece.flushed (hmeta : m.WellSized) (hlen : s.stdPieceLen = m.info.pieceLength)
    (hsizes : s.files.map LocalFile.size = m.fileLengths) (h : FlushesPiece m i pieceManager e)
    (hanswers : ∀ idx, AnswersInFull (e.getData idx) (m.pieceLen i)) :
    Flushed s e.getData (s.flushPieceToDisk pieceManager e.getData fun _ => .ok)
      (i * m.info.pieceLength) (i * m.info.pieceLength + m.pieceLen i) (m.pieceLen i) := by
  have hle := piece_le_totalLength hmeta.pieceLength_pos h.lt
  have hstop : pieceManager.index * s.stdPieceLen + pieceManager.pieceLength ≤ totalSize s := by
    rw [h.index_eq, hlen, h.pieceLength_eq_pieceLen hmeta, totalSize_eq hsizes]
    exact hle
  rw [← h.pieceLength_eq_pieceLen hmeta] at hanswers ⊢
  have hspec := flushPieceToDisk_spec hanswers hstop
  rw [h.index_eq, hlen] at hspec
  exact hspec

/-- INTERNAL: a flush that the actor goes on from was answered `true`.
SOURCE: disk_manager.rs:62-112 -/
theorem FlushesPiece.diskStep_eq_some (h : FlushesPiece m i pieceManager e) {t : DiskManagerActor}
    {r : DiskReply} (hstep : diskStep s e = some (t, r)) :
    (s.flushPieceToDisk pieceManager e.getData e.io).reply = true ∧
      t = (s.flushPieceToDisk pieceManager e.getData e.io).actor := by
  unfold diskStep at hstep
  rw [h.msg] at hstep
  dsimp only at hstep
  split_ifs at hstep with hreply
  · cases hstep
    exact ⟨hreply, rfl⟩

end Flush

/-! ## Flushing the content -/

/-- The event is a flush of piece `i` without an error, and what answers it has the bytes of the
content in its buffer. -/
structure FlushesContent (m : MetaInfo) (content : Bytes) (i : ℕ)
    (pieceManager : PieceRequestManager) (e : DiskEvent) : Prop
    extends FlushesPiece m i pieceManager e where
  holds : ∀ idx, ∃ actor : PieceRequestManagerActor,
    actor.data = pieceOf m content i ∧ e.getData idx = actor.getData
  io_ok : ∀ idx, e.io idx = .ok

/-- What a flush of piece `i` of the content does in any state. -/
structure WritesPiece (m : MetaInfo) (content : Bytes) (i : ℕ) (s : DiskManagerActor)
    (result : FlushResult) : Prop where
  reply : result.reply = true
  overlays : Overlays 0 (stream result.actor) (stream s) (i * m.info.pieceLength)
    (pieceOf m content i)
  asked : ∀ slice ∈ result.asked, slice.1 ≤ slice.2 ∧ slice.2 ≤ (pieceOf m content i).length

section Content

variable {m : MetaInfo} {content : Bytes} {i : ℕ} {pieceManager : PieceRequestManager}
  {s : DiskManagerActor} {e : DiskEvent}

theorem FlushesContent.answers (h : FlushesContent m content i pieceManager e) (idx : ℕ) :
    Answers (e.getData idx) (pieceOf m content i) := by
  obtain ⟨actor, hdata, hget⟩ := h.holds idx
  rw [hget, ← hdata]
  exact answers_getData actor

/-- INTERNAL: one flush of the content goes through, whatever files its entries open.
SOURCE: disk_manager.rs:62-112 -/
theorem FlushesContent.flushed (hmeta : m.WellSized) (hlen : s.stdPieceLen = m.info.pieceLength)
    (hsizes : s.files.map LocalFile.size = m.fileLengths) (hcontent : content.length = m.totalLength)
    (h : FlushesContent m content i pieceManager e) :
    Flushed s e.getData (s.flushPieceToDisk pieceManager e.getData e.io)
        (i * m.info.pieceLength) (i * m.info.pieceLength + m.pieceLen i) (m.pieceLen i) ∧
      (s.flushPieceToDisk pieceManager e.getData e.io).written = pieceOf m content i := by
  have hlength := length_pieceOf hmeta.pieceLength_pos hcontent h.lt
  have hflushed := h.toFlushesPiece.flushed hmeta hlen hsizes (fun idx => by
    rw [← hlength]
    exact (h.answers idx).inFull)
  have hwritten := hflushed.written _ h.answers hlength
  rw [Nat.add_sub_cancel_left, Nat.sub_self, List.drop_zero] at hwritten
  rw [show e.io = fun _ => .ok from funext h.io_ok]
  exact ⟨hflushed, hwritten⟩

/-- INTERNAL: one flush of the content.
SOURCE: disk_manager.rs:62-112 -/
theorem FlushesContent.writesPiece (hmeta : m.WellSized) (hdisk : DiskOf m s)
    (hcontent : content.length = m.totalLength) (h : FlushesContent m content i pieceManager e) :
    WritesPiece m content i s (s.flushPieceToDisk pieceManager e.getData e.io) ∧
      FlushKeeps s (s.flushPieceToDisk pieceManager e.getData e.io)
        (i * m.info.pieceLength) (i * m.info.pieceLength + m.pieceLen i) := by
  have hlength := length_pieceOf hmeta.pieceLength_pos hcontent h.lt
  obtain ⟨hflushed, hwritten⟩ := h.flushed hmeta hdisk.stdPieceLen_eq hdisk.sizes hcontent
  have hkeeps := h.keeps hmeta hdisk.stdPieceLen_eq (fun idx => by
    obtain ⟨actor, -, hget⟩ := h.holds idx
    exact FromPieceActor.atMost (Or.inr ⟨actor, hget⟩))
  refine ⟨⟨hflushed.reply, ?_, ?_⟩, hkeeps⟩
  · rw [← hwritten]
    exact hflushed.overlays hdisk.separate
  · rw [hlength]
    exact hflushed.asked

/-- INTERNAL: what the actor answers to a flush of the content.
SOURCE: disk_manager.rs:62-112 -/
theorem FlushesContent.diskStep_eq (h : FlushesContent m content i pieceManager e)
    (hreply : (s.flushPieceToDisk pieceManager e.getData e.io).reply = true) :
    diskStep s e = some ((s.flushPieceToDisk pieceManager e.getData e.io).actor, .flushed) := by
  unfold diskStep
  rw [h.msg]
  exact if_pos hreply

/-- INTERNAL: a run of flushes of the content goes through, and the stream carries every piece
that it carried or that was flushed. The induction is on the run.
SOURCE: disk_manager.rs:59-112 -/
theorem run_flushesContent (hmeta : m.WellSized) (hcontent : content.length = m.totalLength)
    {es : List DiskEvent}
    (hes : ∀ e ∈ es, ∃ i pieceManager, FlushesContent m content i pieceManager e)
    (hdisk : DiskOf m s) (hdistinct : Distinct (segments s)) (hfits : Fits s.disk (segments s)) :
    ∃ t, run diskStep s es = some t ∧ DiskOf m t ∧ Fits t.disk (segments t) ∧
      ∀ i < m.pieceCount,
        (Carries (stream s) (i * m.info.pieceLength) (pieceOf m content i) ∨
          ∃ e ∈ es, ∃ pieceManager, FlushesContent m content i pieceManager e) →
        Carries (stream t) (i * m.info.pieceLength) (pieceOf m content i) := by
  induction es generalizing s with
  | nil =>
    refine ⟨s, rfl, hdisk, hfits, ?_⟩
    rintro i - (hcarries | ⟨e, hmem, -⟩)
    · exact hcarries
    · cases hmem
  | cons e es ih =>
    rw [List.forall_mem_cons] at hes
    obtain ⟨⟨j, pieceManager, he⟩, hes⟩ := hes
    obtain ⟨hwrites, hkeeps⟩ := he.writesPiece hmeta hdisk hcontent
    have hsame : SameTable (s.flushPieceToDisk pieceManager e.getData e.io).actor s :=
      flushLoop_sameTable _ _ _ _ _
    obtain ⟨t, ht, hdisk', hfits', hcarries⟩ := ih hes (hdisk.of_sameTable hsame)
      (by rwa [hsame.segments_eq]) (by rw [hsame.segments_eq]; exact hkeeps.fits hdistinct hfits)
    refine ⟨t, ?_, hdisk', hfits', ?_⟩
    · rw [run_cons_some es (he.diskStep_eq hwrites.reply)]
      exact ht
    · intro i hi hpiece
      apply hcarries i hi
      by_cases hij : i = j
      · subst hij
        exact Or.inl (carries_of_overlays hwrites.overlays)
      rcases hpiece with hpiece | ⟨e', hmem, pieceManager', he'⟩
      · left
        apply hpiece.keepsOutside (hkeeps.outside hdisk.separate)
        rw [length_pieceOf hmeta.pieceLength_pos hcontent hi]
        exact pieces_disjoint m hij
      · rcases List.mem_cons.mp hmem with rfl | hmem
        · -- the event is a flush of one piece only
          have hmsg := he'.msg
          rw [he.msg] at hmsg
          cases hmsg
          exact absurd (he'.index_eq.symm.trans he.index_eq) hij
        · exact Or.inr ⟨e', hmem, pieceManager', he'⟩

/-- Every file is its part of the content, and as long as it is to be. -/
def FilesHold (s : DiskManagerActor) (content : Bytes) : Prop :=
  ∀ j file, s.files[j]? = some file →
    ∃ path, s.handles[j]? = some (fileStart s j, path) ∧
      s.disk path = (content.drop (fileStart s j)).take file.size ∧
      (s.disk path).length = file.size

/-- INTERNAL: when the stream carries all pieces of the content, every file is its part of the
content. -/
theorem filesHold_of_carries (hmeta : m.WellSized) (hcontent : content.length = m.totalLength)
    (hdisk : DiskOf m s) (hfits : Fits s.disk (segments s))
    (hcarries : ∀ i < m.pieceCount,
      Carries (stream s) (i * m.info.pieceLength) (pieceOf m content i)) :
    FilesHold s content := by
  intro j file hfile
  have hj : j < s.handles.length := by
    rw [length_handles]
    exact (List.getElem?_eq_some_iff.mp hfile).1
  obtain ⟨file', path, hfile', hhandle, hseg, hnext⟩ := exists_file hj
  rw [hfile, Option.some.injEq] at hfile'
  subst hfile'
  have hlength : (s.disk path).length ≤ file.size := hfits _ (List.mem_of_getElem? hseg)
  have hend : fileStart s j + file.size ≤ m.totalLength := by
    rw [← hnext, ← hdisk.totalSize_eq]
    unfold fileStart totalSize
    have hsplit := List.sum_take_add_sum_drop (s.files.map LocalFile.size) (j + 1)
    omega
  -- every byte of the file lies in a piece
  have hbyte : ∀ k < file.size, (s.disk path)[k]? = content[fileStart s j + k]? := by
    intro k hk
    obtain ⟨i, hi, hlow, hhigh⟩ := exists_piece hmeta.pieceLength_pos
      (show fileStart s j + k < m.totalLength by omega)
    have hcarried := hcarries i hi (fileStart s j + k - i * m.info.pieceLength)
      (by rw [length_pieceOf hmeta.pieceLength_pos hcontent hi]; omega)
    rw [show i * m.info.pieceLength + (fileStart s j + k - i * m.info.pieceLength) =
      fileStart s j + k by omega] at hcarried
    unfold pieceOf at hcarried
    rw [List.getElem?_take_of_lt (by omega), List.getElem?_drop,
      show i * m.info.pieceLength + (fileStart s j + k - i * m.info.pieceLength) =
        fileStart s j + k by omega] at hcarried
    rw [← hcarried]
    exact (stream_file hseg hk).symm
  have hslice : ((content.drop (fileStart s j)).take file.size).length = file.size := by
    rw [List.length_take, List.length_drop, hcontent]
    omega
  have hheld : s.disk path = (content.drop (fileStart s j)).take file.size := by
    apply List.ext_getElem?
    intro k
    by_cases hk : k < file.size
    · rw [hbyte k hk, List.getElem?_take_of_lt hk, List.getElem?_drop]
    · rw [List.getElem?_eq_none (by omega), List.getElem?_eq_none (by omega)]
  exact ⟨path, hhandle, hheld, by rw [hheld, hslice]⟩

/-- Flushes of pieces that hold the content, in any order and with repeats, all succeed. Each
writes the bytes of its piece, changes no other byte that was written and asks its piece actor
for slices inside the buffer; and once every piece was flushed each file is its part of the
content. -/
def LaysOut (m : MetaInfo) (start : DiskManagerActor) (content : Bytes) : Prop :=
  ∀ es : List DiskEvent,
    (∀ e ∈ es, ∃ i pieceManager, FlushesContent m content i pieceManager e) →
    ∃ t, run diskStep start es = some t ∧
      (∀ i pieceManager e, FlushesContent m content i pieceManager e →
        WritesPiece m content i t (t.flushPieceToDisk pieceManager e.getData e.io)) ∧
      ((∀ i < m.pieceCount, ∃ e ∈ es, ∃ pieceManager, FlushesContent m content i pieceManager e) →
        FilesHold t content)

end Content

/-! ## Contents that tell two addresses apart -/

/-- A piece actor with `data` in its buffer. -/
def pieceHolding (data : Bytes) : PieceRequestManagerActor :=
  (PieceRequestManagerActor.new data.length [] 4).storeBlock 0 data

/-- The manager of piece `i` of the content. -/
def managerHolding (m : MetaInfo) (content : Bytes) (i : ℕ) : PieceRequestManager :=
  ⟨i, [], (pieceOf m content i).length, 0⟩

/-- A flush of piece `i` of the content. -/
def flushOf (m : MetaInfo) (content : Bytes) (i : ℕ) : DiskEvent where
  msg := .flushPieceToDisk (managerHolding m content i)
  getData _ := (pieceHolding (pieceOf m content i)).getData
  io _ := .ok

/-- `length` bytes, all zero but for the one at `x`. -/
def probe (length x : ℕ) : Bytes := (List.replicate length 0).set x 1

theorem length_probe (length x : ℕ) : (probe length x).length = length := by simp [probe]

theorem probe_self {length x : ℕ} (h : x < length) : (probe length x)[x]? = some 1 := by
  simp [probe, h]

theorem probe_ne {length x y : ℕ} (hne : y ≠ x) (h : y < length) :
    (probe length x)[y]? = some 0 := by
  rw [probe, List.getElem?_set_ne hne.symm, List.getElem?_replicate, if_pos h]

section Probe

variable {m : MetaInfo} {content : Bytes}

/-- INTERNAL: a piece that is received as one block is what the buffer holds.
SOURCE: piece_manager.rs:98-105 -/
theorem data_pieceHolding (data : Bytes) : (pieceHolding data).data = data := by
  change PieceRequestManagerActor.storedData (List.replicate data.length 0) 0 data = data
  unfold PieceRequestManagerActor.storedData
  rw [if_pos (by simp)]
  by_cases hnil : data = []
  · simp [hnil]
  · rw [writeAt, if_neg hnil]
    simp

theorem flushesContent_flushOf (hmeta : m.WellSized) (hcontent : content.length = m.totalLength)
    {i : ℕ} (hi : i < m.pieceCount) :
    FlushesContent m content i (managerHolding m content i) (flushOf m content i) := by
  have hlength := length_pieceOf hmeta.pieceLength_pos hcontent hi
  refine ⟨⟨hi, rfl, rfl, ?_⟩, fun _ => ⟨_, data_pieceHolding _, rfl⟩, fun _ => rfl⟩
  rw [MetaInfo.getPieceLength_eq hmeta hi]
  exact congrArg some hlength.symm

/-- INTERNAL: all pieces of a content can be flushed, whatever files the entries open.
SOURCE: disk_manager.rs:59-112 -/
theorem run_flushOf (hmeta : m.WellSized) (hcontent : content.length = m.totalLength)
    {s : DiskManagerActor} (hlen : s.stdPieceLen = m.info.pieceLength)
    (hsizes : s.files.map LocalFile.size = m.fileLengths) {is : List ℕ}
    (his : ∀ i ∈ is, i < m.pieceCount) :
    ∃ t, run diskStep s (is.map (flushOf m content)) = some t := by
  induction is generalizing s with
  | nil => exact ⟨s, rfl⟩
  | cons i is ih =>
    rw [List.forall_mem_cons] at his
    have he := flushesContent_flushOf hmeta hcontent his.1
    obtain ⟨hflushed, -⟩ := he.flushed hmeta hlen hsizes hcontent
    have hstep := he.diskStep_eq hflushed.reply
    have hsame := diskStep_sameTable hstep
    rw [List.map_cons, run_cons_some _ hstep]
    exact ih (hsame.stdPieceLen.trans hlen) (by rw [hsame.files, hsizes]) his.2

end Probe

/-! ## Which lists of files are laid out -/

section Layout

variable {m : MetaInfo} {start : DiskManagerActor}

/-- INTERNAL: any content is laid out over distinct files.
SOURCE: disk_manager.rs:59-112 -/
theorem laysOut_of_distinct (hmeta : m.WellSized) {content : Bytes}
    (hcontent : content.length = m.totalLength) (hdisk : DiskOf m start)
    (hdistinct : Distinct (segments start)) (hfits : Fits start.disk (segments start)) :
    LaysOut m start content := by
  intro es hes
  obtain ⟨t, ht, hdisk', hfits', hcarries⟩ :=
    run_flushesContent hmeta hcontent hes hdisk hdistinct hfits
  exact ⟨t, ht, fun i pieceManager e he => (he.writesPiece hmeta hdisk' hcontent).1, fun hall =>
    filesHold_of_carries hmeta hcontent hdisk' hfits' fun i hi => hcarries i hi (Or.inr (hall i hi))⟩

/-- INTERNAL: two entries that open one file cannot both get their part of a content in which these
parts begin with different bytes, nor parts of different lengths. -/
theorem distinct_of_laysOut (hmeta : m.WellSized)
    (hsizes : start.files.map LocalFile.size = m.fileLengths)
    (h : ∀ content : Bytes, content.length = m.totalLength → LaysOut m start content) :
    Distinct (segments start) := by
  apply List.pairwise_iff_getElem.mpr
  intro a b ha hb hab hpath
  rw [length_segments] at ha hb
  obtain ⟨fileA, path, hfileA, hhandleA, hsegA, hnextA⟩ := exists_file ha
  obtain ⟨fileB, pathB, hfileB, hhandleB, hsegB, hnextB⟩ := exists_file hb
  rw [(List.getElem?_eq_some_iff.mp hsegA).2, (List.getElem?_eq_some_iff.mp hsegB).2] at hpath ⊢
  obtain rfl : path = pathB := hpath
  have hmono := fileStart_mono start (show a + 1 ≤ b from hab)
  have hend := fileStart_le_totalSize start (b + 1)
  rw [totalSize_eq hsizes] at hend
  have hlength := length_probe m.totalLength (fileStart start b)
  obtain ⟨t, ht, -, hall⟩ := h _ hlength ((List.range m.pieceCount).map (flushOf m _)) (by
    rw [List.forall_mem_map]
    exact fun i hi => ⟨i, _, flushesContent_flushOf hmeta hlength (List.mem_range.mp hi)⟩)
  have hsame := run_sameTable ht
  have hhold := hall fun i hi => ⟨_, List.mem_map_of_mem (List.mem_range.mpr hi), _,
    flushesContent_flushOf hmeta hlength hi⟩
  obtain ⟨pathA, hhandleA', hheldA, hlenA⟩ := hhold a fileA (by rw [hsame.files, hfileA])
  obtain ⟨pathB, hhandleB', hheldB, hlenB⟩ := hhold b fileB (by rw [hsame.files, hfileB])
  rw [hsame.handles, hsame.fileStart_eq, hhandleA] at hhandleA'
  rw [hsame.handles, hsame.fileStart_eq, hhandleB] at hhandleB'
  cases hhandleA'
  cases hhandleB'
  -- both parts are what the one file holds
  by_contra hroom
  have hsize : fileA.size = fileB.size := hlenA.symm.trans hlenB
  have hpos : 0 < fileA.size := by
    dsimp only at hroom
    omega
  have hfirst := congrArg (·[0]?) (hheldA.symm.trans hheldB)
  simp only [hsame.fileStart_eq] at hfirst
  rw [List.getElem?_take_of_lt hpos, List.getElem?_take_of_lt (hsize ▸ hpos), List.getElem?_drop,
    List.getElem?_drop, Nat.add_zero, Nat.add_zero, probe_self (by omega),
    probe_ne (by omega) (by omega)] at hfirst
  exact absurd hfirst (by decide)

end Layout

/-- **Which lists of files are laid out right.** For every torrent whose files can be opened and
are empty at first: whatever the content, flushes of its pieces in any order lay it out over the
files exactly when no two entries of the list lead to one file, unless both are to be empty.
SOURCE: disk_manager.rs:25-58, disk_manager.rs:62-112, torrent_meta.rs:98-130,
piece_manager.rs:137-152 -/
theorem files_hold_content_iff {m : MetaInfo} {fileSystem : FileSystem} {downloadPath : PathBuf}
    {files : List LocalFile} {start : DiskManagerActor} (hmeta : m.WellSized)
    (hfiles : m.localFiles = some files)
    (hnew : DiskManagerActor.new fileSystem downloadPath files m.getStandardPieceLen = some start)
    (hempty : ∀ handle ∈ start.handles, start.disk handle.2 = []) :
    (∀ content : Bytes, m.downloadSize = some content.length → LaysOut m start content) ↔
      Distinct (entries fileSystem downloadPath files) := by
  obtain ⟨-, hsame, -⟩ := new_eq_some hnew
  have hsizes : start.files.map LocalFile.size = m.fileLengths := by
    rw [hsame, MetaInfo.size_localFiles hfiles]
  simp only [MetaInfo.downloadSize_eq hmeta, Option.some.injEq]
  rw [distinct_entries_iff hnew]
  constructor
  · exact fun h => distinct_of_laysOut hmeta hsizes fun content hcontent => h content hcontent.symm
  · intro hdistinct content hcontent
    have hdisk := diskOf_new hfiles hnew ((separate_entries_iff hnew).mpr hdistinct.separate)
    exact laysOut_of_distinct hmeta hcontent.symm hdisk hdistinct (fits_of_empty hempty)

/-! ## Nine bytes in four files -/

/-- Pieces of four bytes, files of three, zero, two and four bytes. -/
def fourFiles : MetaInfo where
  announce := ""
  announceList := none
  info :=
    { name := "content"
      pieceLength := 4
      piecesHash := List.replicate 60 0
      length := none
      files := some [⟨3, ["a"]⟩, ⟨0, ["b"]⟩, ⟨2, ["c"]⟩, ⟨4, ["d"]⟩] }

theorem wellSized_fourFiles : fourFiles.WellSized := ⟨rfl, by decide, by decide⟩

/-- The disk actor of the four files, all of them empty. -/
def fourFilesDisk : DiskManagerActor :=
  (DiskManagerActor.new .empty "dl".toList (fourFiles.localFiles.get rfl)
    fourFiles.getStandardPieceLen).get (by decide +kernel)

/-- What the four files are to hold. -/
def nineBytes : Bytes := [1, 2, 3, 4, 5, 6, 7, 8, 9]

/-- The pieces are flushed out of order, one of them twice. -/
theorem files_hold_content_iff_nineBytes :
    ∃ t, run diskStep fourFilesDisk ([2, 0, 1, 0].map (flushOf fourFiles nineBytes)) = some t ∧
      t.disk "dl/d".toList = [6, 7, 8, 9] := by
  have hmem : ∀ i ∈ [2, 0, 1, 0], i < fourFiles.pieceCount := by decide
  have hes : ∀ e ∈ [2, 0, 1, 0].map (flushOf fourFiles nineBytes),
      ∃ i pieceManager, FlushesContent fourFiles nineBytes i pieceManager e := by
    rw [List.forall_mem_map]
    exact fun i hi => ⟨i, _, flushesContent_flushOf wellSized_fourFiles rfl (hmem i hi)⟩
  obtain ⟨t, ht, -, hall⟩ := (files_hold_content_iff wellSized_fourFiles
    (Option.some_get (show fourFiles.localFiles.isSome = true from rfl)).symm
    (show _ = some fourFilesDisk from (Option.some_get _).symm) (fun _ _ => rfl)).mpr
    (by decide +kernel) nineBytes rfl _ hes
  refine ⟨t, ht, ?_⟩
  obtain ⟨path, hhandle, hheld, -⟩ := hall (by
    intro i hi
    have hall : ∀ i < fourFiles.pieceCount, i ∈ [2, 0, 1, 0] := by decide
    exact ⟨_, List.mem_map_of_mem (hall i hi), _,
      flushesContent_flushOf wellSized_fourFiles rfl hi⟩) 3 ⟨PathBuf.collect ["d"], 4⟩
    (by rw [(run_sameTable ht).files]; rfl)
  have hpath : fourFilesDisk.handles[3]? = some (5, "dl/d".toList) := by decide +kernel
  rw [(run_sameTable ht).handles, (run_sameTable ht).fileStart_eq, hpath] at hhandle
  cases hhandle
  rwa [(run_sameTable ht).fileStart_eq] at hheld

/-- Two files of two bytes with one path. -/
def equalPaths : MetaInfo where
  announce := ""
  announceList := none
  info :=
    { name := "content"
      pieceLength := 4
      piecesHash := List.replicate 20 0
      length := none
      files := some [⟨2, ["a"]⟩, ⟨2, ["a"]⟩] }

/-- The disk actor of the two files, which are one. -/
def equalPathsDisk : DiskManagerActor :=
  (DiskManagerActor.new .empty "dl".toList (equalPaths.localFiles.get rfl)
    equalPaths.getStandardPieceLen).get (by decide +kernel)

/-- The second half of the piece takes the place of the first. -/
theorem equal_paths_overwrite :
    (∃ t, run diskStep equalPathsDisk [flushOf equalPaths [1, 2, 3, 4] 0] = some t ∧
      t.disk "dl/a".toList = [3, 4]) ∧
    ¬ LaysOut equalPaths equalPathsDisk [1, 2, 3, 4] := by
  have hrun : ∃ t, run diskStep equalPathsDisk [flushOf equalPaths [1, 2, 3, 4] 0] = some t ∧
      t.disk "dl/a".toList = [3, 4] := by
    refine ⟨(run diskStep equalPathsDisk [flushOf equalPaths [1, 2, 3, 4] 0]).get
      (by decide +kernel), (Option.some_get _).symm, by decide +kernel⟩
  refine ⟨hrun, fun h => ?_⟩
  obtain ⟨t, ht, hheld⟩ := hrun
  have hmeta : equalPaths.WellSized := ⟨rfl, by decide, by decide⟩
  have hflush := flushesContent_flushOf hmeta
    (show ([1, 2, 3, 4] : Bytes).length = equalPaths.totalLength from rfl)
    (show 0 < equalPaths.pieceCount by decide)
  obtain ⟨u, hu, -, hall⟩ := h [flushOf equalPaths [1, 2, 3, 4] 0] (by
    rw [List.forall_mem_singleton]
    exact ⟨0, _, hflush⟩)
  rw [ht, Option.some.injEq] at hu
  subst hu
  obtain ⟨path, hhandle, hpart, -⟩ := hall (by
    intro i hi
    have hzero : ∀ i < equalPaths.pieceCount, i = 0 := by decide
    rw [hzero i hi]
    exact ⟨_, List.mem_singleton_self _, _, hflush⟩) 0 ⟨PathBuf.collect ["a"], 2⟩
    (by rw [(run_sameTable ht).files]; rfl)
  have hpath : equalPathsDisk.handles[0]? = some (0, "dl/a".toList) := by decide +kernel
  rw [(run_sameTable ht).handles, (run_sameTable ht).fileStart_eq, hpath] at hhandle
  cases hhandle
  rw [hheld, (run_sameTable ht).fileStart_eq] at hpart
  revert hpart
  decide +kernel

end Fissure.Analysis
