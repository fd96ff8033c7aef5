import Fissure.Analysis.DiskSuccess

/-!
# Reading back what was flushed

After a flush of a piece the stream carries what was flushed, at the address of the piece
(`FlushesPiece.carries`). No flush of another piece and no read changes these bytes
(`carries_step`), so a read of a range of the piece answers with that range of what was flushed
last, however short the files are. That holds of the lists of files in which no file is that of two
entries, and of no others (`read_undoes_flush_iff`).
-/

set_option autoImplicit false

namespace Fissure.Analysis

open Fissure.Library Fissure.Model Fissure.Interface
open Fissure.Model.DiskManagerActor

variable {m : MetaInfo} {i : ℕ} {pieceManager : PieceRequestManager} {s t : DiskManagerActor}
  {e : DiskEvent} {r : DiskReply}

/-- What the disk actor of a torrent is asked for: a flush of some piece, which its actor answers
or, being gone, does not, or a range of some piece. -/
def DiskRequest (m : MetaInfo) (e : DiskEvent) : Prop :=
  (∃ j pieceManager, FlushesPiece m j pieceManager e ∧ ∀ idx, FromPieceActor (e.getData idx)) ∨
    ∃ j offset length, e.msg = .getDataWithLength j offset length

/-- The piece actor is there for the whole flush. Its buffer may change in between. -/
def Answered (pieceManager : PieceRequestManager) (e : DiskEvent) : Prop :=
  ∀ idx, ∃ actor : PieceRequestManagerActor,
    actor.data.length = pieceManager.pieceLength ∧ e.getData idx = actor.getData

/-- Whatever was flushed and read before and between, a read of a range of a piece gives that range
of what was last flushed for the piece, if that flush was answered `true` and no write of it failed
later, and leaves the files as they are. -/
def ReadsBack (m : MetaInfo) (start : DiskManagerActor) : Prop :=
  ∀ (xs ys : List DiskEvent) (e read : DiskEvent) (s t : DiskManagerActor) (i offset length : ℕ)
    (pieceManager : PieceRequestManager),
    (∀ x ∈ xs, DiskRequest m x) → run diskStep start xs = some s →
    FlushesPiece m i pieceManager e → Answered pieceManager e → Lands e.io →
    (∀ y ∈ ys, DiskRequest m y ∧ ∀ pieceManager, ¬ FlushesPiece m i pieceManager y) →
    run diskStep s (e :: ys) = some t → offset + length ≤ pieceManager.pieceLength →
    read.msg = .getDataWithLength i offset length → (∀ idx, read.io idx = .ok) →
    let written := (s.flushPieceToDisk pieceManager e.getData e.io).written
    written.length = pieceManager.pieceLength ∧
      diskStep t read = some (t, .data ((written.drop offset).take length))

/-! ## Files that are separate are read back -/

/-- INTERNAL: a read changes nothing.
SOURCE: disk_manager.rs:113-166 -/
theorem eq_of_diskStep_read {j offset length : ℕ} (h : e.msg = .getDataWithLength j offset length)
    (hstep : diskStep s e = some (t, r)) : t = s := by
  unfold diskStep at hstep
  rw [h] at hstep
  obtain ⟨data, -, hdata⟩ := Option.map_eq_some_iff.mp hstep
  cases hdata
  rfl

/-- INTERNAL: a flush changes nothing outside its piece, also when a write of it fails.
SOURCE: disk_manager.rs:62-112 -/
theorem FlushesPiece.step_keeps (hmeta : m.WellSized) (hdisk : DiskOf m s)
    (h : FlushesPiece m i pieceManager e) (hanswers : ∀ idx, FromPieceActor (e.getData idx))
    (hstep : diskStep s e = some (t, r)) :
    KeepsOutside 0 (stream t) (stream s) (i * m.info.pieceLength)
      (i * m.info.pieceLength + m.pieceLen i) := by
  obtain ⟨-, rfl⟩ := h.diskStep_eq_some hstep
  have hkeeps := h.keeps hmeta hdisk.stdPieceLen_eq fun idx => (hanswers idx).atMost
  exact hkeeps.outside hdisk.separate

/-- INTERNAL: after a flush that its actor answered the stream carries what was flushed, and that
is a whole piece.
SOURCE: disk_manager.rs:62-112 -/
theorem FlushesPiece.carries (hmeta : m.WellSized) (hdisk : DiskOf m s)
    (h : FlushesPiece m i pieceManager e) (hanswered : Answered pieceManager e)
    (hlands : Lands e.io) (hstep : diskStep s e = some (t, r)) :
    let written := (s.flushPieceToDisk pieceManager e.getData e.io).written
    written.length = m.pieceLen i ∧ Carries (stream t) (i * m.info.pieceLength) written := by
  obtain ⟨hreply, rfl⟩ := h.diskStep_eq_some hstep
  have hok : s.flushPieceToDisk pieceManager e.getData e.io =
      s.flushPieceToDisk pieceManager e.getData fun _ => .ok :=
    flushLoop_eq_of_reply hlands hreply
  have hflushed := h.flushed hmeta hdisk.stdPieceLen_eq hdisk.sizes fun idx => by
    obtain ⟨actor, hlength, hget⟩ := hanswered idx
    rw [hget, ← h.pieceLength_eq_pieceLen hmeta, ← hlength]
    exact (answers_getData actor).inFull
  have hlength := hflushed.length_written
  rw [Nat.add_sub_cancel_left] at hlength
  rw [hok]
  exact ⟨hlength, carries_of_overlays (hflushed.overlays hdisk.separate)⟩

/-- INTERNAL: what is carried for a piece is carried on as long as that piece is not flushed. -/
theorem carries_step (hmeta : m.WellSized) {data : Bytes} (hdata : data.length = m.pieceLen i)
    (hdisk : DiskOf m s) (hcarries : Carries (stream s) (i * m.info.pieceLength) data)
    (h : DiskRequest m e) (hother : ∀ pieceManager, ¬ FlushesPiece m i pieceManager e)
    (hstep : diskStep s e = some (t, r)) : Carries (stream t) (i * m.info.pieceLength) data := by
  rcases h with ⟨j, pieceManager, hflush, hanswers⟩ | ⟨j, offset, length, hread⟩
  · have hij : i ≠ j := by
      rintro rfl
      exact hother pieceManager hflush
    have hdisjoint := pieces_disjoint m hij
    rw [← hdata] at hdisjoint
    exact hcarries.keepsOutside (hflush.step_keeps hmeta hdisk hanswers hstep) hdisjoint
  · rw [eq_of_diskStep_read hread hstep]
    exact hcarries

/-- INTERNAL: over separate files every read gives back what was last flushed. -/
theorem readsBack_of_separate {start : DiskManagerActor} (hmeta : m.WellSized)
    (hdisk : DiskOf m start) : ReadsBack m start := by
  intro xs ys e read s t i offset length pieceManager hxs hs hflush hanswered hlands hys ht hrange
    hread hio written
  have hdisk : DiskOf m s := hdisk.of_sameTable (run_sameTable hs)
  obtain ⟨u, reply, hstep, ht⟩ := run_cons_eq_some.mp ht
  obtain ⟨hlength, hcarries⟩ := hflush.carries hmeta hdisk hanswered hlands hstep
  -- the stream carries what was flushed until the read
  obtain ⟨hdisk', hcarries'⟩ :=
    run_invariant_of_forall
      (fun t => DiskOf m t ∧ Carries (stream t) (i * m.info.pieceLength) written)
      (fun _ _ _ _ hinv hevent hstep => ⟨hinv.1.of_sameTable (diskStep_sameTable hstep),
        carries_step hmeta hlength hinv.1 hinv.2 hevent.1 hevent.2 hstep⟩)
      ⟨hdisk.of_sameTable (diskStep_sameTable hstep), hcarries⟩ hys ht
  have hpiece := hflush.pieceLength_eq_pieceLen hmeta
  refine ⟨hlength.trans hpiece.symm, ?_⟩
  have hle : offset + length ≤ written.length := by
    rw [hlength, ← hpiece]
    exact hrange
  have hslice := hcarries'.slice offset length hle
  have hslice_length : ((written.drop offset).take length).length = length := by
    rw [List.length_take, List.length_drop]
    omega
  have hstop := piece_le_totalLength hmeta.pieceLength_pos hflush.lt
  rw [← hdisk'.stdPieceLen_eq] at hslice hstop
  have hspec := getDataWithLength_spec hslice (by
    rw [hslice_length, hdisk'.totalSize_eq]
    omega)
  rw [hslice_length] at hspec
  unfold diskStep
  rw [hread, funext hio]
  dsimp only
  rw [hspec]
  rfl

/-! ## Files that are read back are separate -/

section Converse

variable {content : Bytes} {start : DiskManagerActor}

/-- INTERNAL: the piece of a content that is flushed as a whole is answered for. -/
theorem diskRequest_flushOf (hmeta : m.WellSized) (hcontent : content.length = m.totalLength)
    (hi : i < m.pieceCount) : DiskRequest m (flushOf m content i) :=
  Or.inl ⟨i, _, (flushesContent_flushOf hmeta hcontent hi).toFlushesPiece, fun _ => Or.inr ⟨_, rfl⟩⟩

/-- INTERNAL: where reads give back what was flushed, the stream has the bytes of every piece that
was flushed, unless it was flushed again.
SOURCE: disk_manager.rs:113-166 -/
theorem stream_of_readsBack (h : ReadsBack m start) (hmeta : m.WellSized)
    (hlen : start.stdPieceLen = m.info.pieceLength)
    (hsizes : start.files.map LocalFile.size = m.fileLengths)
    (hcontent : content.length = m.totalLength) (is js : List ℕ)
    (his : ∀ j ∈ is ++ i :: js, j < m.pieceCount) (hjs : i ∉ js)
    (ht : run diskStep start ((is ++ i :: js).map (flushOf m content)) = some t) {x : ℕ}
    (hlow : i * m.info.pieceLength ≤ x) (hhigh : x < i * m.info.pieceLength + m.pieceLen i) :
    stream t x = content[x]? := by
  rw [List.map_append, run_append] at ht
  obtain ⟨s, hs, ht⟩ := ht
  have hsame := run_sameTable hs
  have hflush := flushesContent_flushOf hmeta hcontent (his i (by simp))
  have hlength := length_pieceOf hmeta.pieceLength_pos hcontent (his i (by simp))
  obtain ⟨-, hwritten⟩ := hflush.flushed hmeta (hsame.stdPieceLen.trans hlen)
    (by rw [hsame.files, hsizes]) hcontent
  obtain ⟨-, hreply⟩ := h (is.map (flushOf m content)) (js.map (flushOf m content)) _
    ⟨.getDataWithLength i (x - i * m.info.pieceLength) 1, fun _ _ _ => [], fun _ => .ok⟩ s t i
    (x - i * m.info.pieceLength) 1 _
    (by
      rw [List.forall_mem_map]
      exact fun j hj => diskRequest_flushOf hmeta hcontent (his j (by simp [hj])))
    hs hflush.toFlushesPiece
    (fun _ => ⟨_, by rw [data_pieceHolding]; rfl, rfl⟩) (fun _ _ => nofun)
    (by
      rw [List.forall_mem_map]
      refine fun j hj => ⟨diskRequest_flushOf hmeta hcontent (his j (by simp [hj])), ?_⟩
      rintro other ⟨-, hmsg, hindex, -⟩
      cases hmsg
      cases hindex
      exact hjs hj)
    ht (by change _ ≤ (pieceOf m content i).length; omega) rfl fun _ => rfl
  rw [hwritten] at hreply
  -- what is read is what the stream has
  have hstart : i * t.stdPieceLen + (x - i * m.info.pieceLength) = x := by
    rw [(run_sameTable ht).stdPieceLen, hsame.stdPieceLen, hlen]
    omega
  unfold diskStep at hreply
  obtain ⟨d, hd, hreply⟩ := Option.map_eq_some_iff.mp hreply
  cases hreply
  rcases getDataWithLength_cases t i (x - i * m.info.pieceLength) 1 _ hstart with
    ⟨hnone, -⟩ | ⟨d, hsome, -, hcarries, -⟩
  · rw [hnone] at hd
    cases hd
  · rw [hsome, Option.some.injEq] at hd
    subst hd
    have hbyte := hcarries 0 (by rw [List.length_take, List.length_drop]; omega)
    rw [Nat.add_zero, List.getElem?_take_of_lt Nat.one_pos, List.getElem?_drop, Nat.add_zero] at hbyte
    rw [hbyte, pieceOf, List.getElem?_take_of_lt (by omega), List.getElem?_drop]
    congr 1
    omega

/-- INTERNAL: two entries with room that open one file are not both read back, for a content in which
their parts begin with different bytes. -/
theorem separate_of_readsBack (h : ReadsBack m start) (hmeta : m.WellSized)
    (hlen : start.stdPieceLen = m.info.pieceLength)
    (hsizes : start.files.map LocalFile.size = m.fileLengths) : Separate (segments start) := by
  apply List.pairwise_iff_getElem.mpr
  intro a b ha hb hab hpath
  rw [length_segments] at ha hb
  obtain ⟨fileA, path, -, -, hsegA, hnextA⟩ := exists_file ha
  obtain ⟨fileB, pathB, -, -, hsegB, hnextB⟩ := exists_file hb
  rw [(List.getElem?_eq_some_iff.mp hsegA).2, (List.getElem?_eq_some_iff.mp hsegB).2] at hpath ⊢
  obtain rfl : path = pathB := hpath
  by_contra hroom
  dsimp only at hroom
  have hmono := fileStart_mono start (show a + 1 ≤ b from hab)
  have hend := fileStart_le_totalSize start (b + 1)
  rw [totalSize_eq hsizes] at hend
  have hlength := length_probe m.totalLength (fileStart start b)
  obtain ⟨i, hi, hlow, hhigh⟩ := exists_piece hmeta.pieceLength_pos
    (show fileStart start a < m.totalLength by omega)
  obtain ⟨j, hj, hlow', hhigh'⟩ := exists_piece hmeta.pieceLength_pos
    (show fileStart start b < m.totalLength by omega)
  -- one run after which both bytes can be read
  obtain ⟨t, ht, hfirst, hsecond⟩ : ∃ t, SameTable t start ∧ stream t (fileStart start a) = some 0 ∧
      stream t (fileStart start b) = some 1 := by
    rw [← probe_self (show fileStart start b < m.totalLength by omega),
      ← probe_ne (show fileStart start a ≠ fileStart start b by omega)
        (show fileStart start a < m.totalLength by omega)]
    by_cases hij : i = j
    · subst hij
      have hcount : ∀ k ∈ [i], k < m.pieceCount := by simpa using hi
      obtain ⟨t, ht⟩ := run_flushOf hmeta hlength hlen hsizes hcount
      exact ⟨t, run_sameTable ht,
        stream_of_readsBack h hmeta hlen hsizes hlength [] [] hcount (by simp) ht hlow hhigh,
        stream_of_readsBack h hmeta hlen hsizes hlength [] [] hcount (by simp) ht hlow' hhigh'⟩
    · have hcount : ∀ k ∈ [i, j], k < m.pieceCount := by simpa using ⟨hi, hj⟩
      obtain ⟨t, ht⟩ := run_flushOf hmeta hlength hlen hsizes hcount
      exact ⟨t, run_sameTable ht,
        stream_of_readsBack h hmeta hlen hsizes hlength [] [j] hcount (by simpa using hij) ht hlow
          hhigh,
        stream_of_readsBack h hmeta hlen hsizes hlength [i] [] hcount (by simp) ht hlow' hhigh'⟩
  have hsame := ht.segments_eq
  rw [← hsame] at hsegA hsegB
  have hreadA := stream_file hsegA (show 0 < fileA.size by omega)
  have hreadB := stream_file hsegB (show 0 < fileB.size by omega)
  rw [ht.fileStart_eq, Nat.add_zero] at hreadA hreadB
  rw [hreadB, ← hreadA, hfirst] at hsecond
  exact absurd hsecond (by decide)

end Converse

/-- The four files after flushes of piece one and then of piece zero; the last file is still one
byte short. -/
def twoPiecesFlushed : DiskManagerActor :=
  (run diskStep fourFilesDisk [flushOf fourFiles nineBytes 1, flushOf fourFiles nineBytes 0]).get
    (by decide +kernel)

/-- A request for two bytes of piece one that lie in two files. -/
def readAcrossFiles : DiskEvent := ⟨.getDataWithLength 1 0 2, fun _ _ _ => [], fun _ => .ok⟩

/-- Two files of one byte with one path, as two pieces. -/
def equalPieces : MetaInfo where
  announce := ""
  announceList := none
  info :=
    { name := "content"
      pieceLength := 1
      piecesHash := List.replicate 40 0
      length := none
      files := some [⟨1, ["a"]⟩, ⟨1, ["a"]⟩] }

/-- The disk actor of the two files, which are one. -/
def equalPiecesDisk : DiskManagerActor :=
  (DiskManagerActor.new .empty "dl".toList (equalPieces.localFiles.get rfl)
    equalPieces.getStandardPieceLen).get (by decide +kernel)

/-- The files after both pieces were flushed, the second one last. -/
def bothFlushed : DiskManagerActor :=
  (run diskStep equalPiecesDisk [flushOf equalPieces [7, 8] 0, flushOf equalPieces [7, 8] 1]).get
    (by decide +kernel)

/-- A request for the byte of the first piece. -/
def readFirst : DiskEvent := ⟨.getDataWithLength 0 0 1, fun _ _ _ => [], fun _ => .ok⟩

end Fissure.Analysis
