import Fissure.Analysis.DownloadRefinement

/-!
# A complete download

When every piece is in the log, the files hold one content all of whose pieces have the digests of
the torrent (`complete_download`). Whoever has another content with these digests has found two
different pieces with the same hash, so as long as the hash tells pieces apart the files are the
content that the torrent was made from.
-/

set_option autoImplicit false

namespace Fissure.Analysis

open Fissure.Library Fissure.Model Fissure.Interface
open Fissure.Model.TorrentSystem Fissure.Model.DiskManagerActor

section

variable {sha1 : Bytes → Bytes} {torrent : ClientTorrentMetaInfo} {options : PeerOptions}
  {s t : TorrentSystem} {m : MetaInfo}

/-! ## The files -/

/-- The same files are open as at first, and none is longer than it is to be. -/
structure FilesOf (start disk : DiskManagerActor) : Prop where
  same : SameTable disk start
  fits : Fits disk.disk (segments start)

/-- INTERNAL: every step keeps the files. -/
theorem filesOf_step (hmeta : torrent.rawTorrent.WellSized)
    (hs : SystemInv sha1 torrent options s) {start : DiskManagerActor}
    (hdistinct : Distinct (segments start)) (hfiles : FilesOf start s.disk) {e : SystemEvent}
    {r : Unit} (h : systemStep sha1 s e = some (t, r)) : FilesOf start t.disk := by
  cases flushMove_of_systemStep h with
  | keeps _ _ _ hdisk _ _ =>
    rw [hdisk]
    exact hfiles
  | begins _ _ _ _ _ _ hdisk _ _ =>
    rw [hdisk]
    exact hfiles
  | flushes _ p job job' result hf _ hdisk _ _ =>
    rcases hdisk with hdisk | ⟨hruns, hround⟩
    · rw [hdisk]
      exact hfiles
    · obtain ⟨hsame, -, hfits⟩ := hs.roundLeaves_keeps hmeta hruns hf hround
      rw [hfiles.same.segments_eq] at hfits
      exact ⟨hsame.trans hfiles.same, hfits hdistinct hfiles.fits⟩
  | ends _ _ _ _ _ hdisk _ _ _ =>
    rw [hdisk]
    exact hfiles

/-- INTERNAL: the file that was opened for an entry of the list is the one its path leads to.
SOURCE: disk_manager.rs:30-51 -/
theorem segment_of_new {fileSystem : FileSystem} {downloadPath : PathBuf} {files : List LocalFile}
    {stdPieceLen j : ℕ} {disk : DiskManagerActor} {file : LocalFile} {path : PathBuf}
    (h : DiskManagerActor.new fileSystem downloadPath files stdPieceLen = some disk)
    (hfile : files[j]? = some file) (hpath : (segments disk)[j]? = some (file.size, path)) :
    fileSystem.fileAt (downloadPath.push file.path) = some path := by
  have hentry := congrArg (·[j]?) (entries_eq h)
  simp only [entries, List.getElem?_map, hfile, hpath, Option.map_some] at hentry
  exact congrArg Prod.snd (Option.some.inj hentry)

/-- INTERNAL: files that are not too long at first. -/
theorem fits_of_new {fileSystem : FileSystem} {downloadPath : PathBuf} {files : List LocalFile}
    {stdPieceLen : ℕ} {disk : DiskManagerActor}
    (h : DiskManagerActor.new fileSystem downloadPath files stdPieceLen = some disk)
    (hfits : ∀ file ∈ files, ∀ path, fileSystem.fileAt (downloadPath.push file.path) = some path →
      (fileSystem.content path).length ≤ file.size) :
    Fits disk.disk (segments disk) := by
  obtain ⟨-, hfiles, hcontent, -⟩ := new_eq_some h
  intro seg hseg
  obtain ⟨j, hj⟩ := List.mem_iff_getElem?.mp hseg
  have hlt := (List.getElem?_eq_some_iff.mp hj).1
  rw [length_segments] at hlt
  obtain ⟨file, path, hfile, -, hseg', -⟩ := exists_file hlt
  rw [hseg', Option.some.injEq] at hj
  rw [hfiles] at hfile
  rw [← hj, hcontent]
  exact hfits file (List.mem_of_getElem? hfile) path (segment_of_new h hfile hseg')

/-! ## The content -/

/-- INTERNAL: bytes that are there up to `length` are a content that the stream carries. -/
theorem exists_carried {w : Stream} {length : ℕ} (h : ∀ x < length, w x ≠ none) :
    ∃ content : Bytes, content.length = length ∧ Carries w 0 content := by
  refine ⟨(List.range length).map fun x => (w x).getD 0, by simp, ?_⟩
  intro k hk
  rw [List.length_map, List.length_range] at hk
  obtain ⟨b, hb⟩ := Option.ne_none_iff_exists'.mp (h k hk)
  simp [hb, hk]

/-- INTERNAL: a stream that carries two strings of one length at one place has them equal. -/
theorem carries_unique {w : Stream} {start : ℕ} {data data' : Bytes} (h : Carries w start data)
    (h' : Carries w start data') (hlength : data.length = data'.length) : data = data' := by
  have hbytes := bytesAt_of_carries h
  rw [hlength, bytesAt_of_carries h', Option.some.injEq] at hbytes
  exact hbytes.symm

/-- INTERNAL: when all pieces are on disk the disk carries a content with their digests. -/
theorem exists_content (hmeta : m.WellSized) {disk : DiskManagerActor}
    (h : ∀ p < m.pieceCount, Kept sha1 m disk p) :
    ∃ content : Bytes, content.length = m.totalLength ∧ ∀ p < m.pieceCount,
      m.getPieceHash p = some (sha1 (pieceOf m content p)) ∧
        Carries (stream disk) (p * m.info.pieceLength) (pieceOf m content p) := by
  have hthere : ∀ x < m.totalLength, stream disk x ≠ none := by
    intro x hx
    obtain ⟨p, hp, hlow, hhigh⟩ := exists_piece hmeta.pieceLength_pos hx
    obtain ⟨data, ⟨-, hlen, -⟩, hcarries⟩ := h p hp
    have hbyte := hcarries (x - p * m.info.pieceLength) (by omega)
    rw [Nat.add_sub_cancel' hlow, List.getElem?_eq_getElem (by omega)] at hbyte
    simp [hbyte]
  obtain ⟨content, hcontent, hcarries⟩ := exists_carried hthere
  refine ⟨content, hcontent, fun p hp => ?_⟩
  have hle := piece_le_totalLength hmeta.pieceLength_pos hp
  have hslice := hcarries.slice (p * m.info.pieceLength) (m.pieceLen p) (by omega)
  rw [Nat.zero_add] at hslice
  change Carries _ _ (pieceOf m content p) at hslice
  obtain ⟨data, ⟨-, hlen, hdigest⟩, hdata⟩ := h p hp
  have hsame := carries_unique hdata hslice
    (by rw [length_pieceOf hmeta.pieceLength_pos hcontent hp, hlen])
  exact ⟨hsame ▸ hdigest, hslice⟩

/-- INTERNAL: contents with the same pieces are the same. -/
theorem content_eq_of_pieces (hmeta : m.WellSized) {content content' : Bytes}
    (hcontent : content.length = m.totalLength) (hcontent' : content'.length = m.totalLength)
    (h : ∀ p < m.pieceCount, pieceOf m content p = pieceOf m content' p) : content = content' := by
  apply List.ext_getElem?
  intro x
  by_cases hx : x < m.totalLength
  · obtain ⟨p, hp, hlow, hhigh⟩ := exists_piece hmeta.pieceLength_pos hx
    have hbyte := congrArg (·[x - p * m.info.pieceLength]?) (h p hp)
    simp only [pieceOf] at hbyte
    rw [List.getElem?_take_of_lt (by omega), List.getElem?_take_of_lt (by omega),
      List.getElem?_drop, List.getElem?_drop, Nat.add_sub_cancel' hlow] at hbyte
    exact hbyte
  · rw [List.getElem?_eq_none (by omega), List.getElem?_eq_none (by omega)]

variable {fileSystem : FileSystem} {downloadPath : PathBuf} {start : TorrentSystem}
  {es : List SystemEvent}

/-- **A complete download is the content.** When no two entries of the list of files lead to one
file, unless both are to be empty, all of them could be opened, and none was too long: in every run
in which no block changes what is still to be flushed of a verified buffer and no write fails
without being reported, once every piece is in the log, each file is its part of one content all of
whose pieces have the digests of the torrent, and any other content with these digests comes with
two different pieces of the same hash.
SOURCE: torrent_manager.rs:238-280, disk_manager.rs:25-112 -/
theorem complete_download (hmeta : torrent.rawTorrent.WellSized)
    (hcount : torrent.rawTorrent.pieceCount ≤ 2 ^ 32)
    (hfiles : torrent.rawTorrent.localFiles = some torrent.files)
    (hdistinct : Distinct (entries fileSystem downloadPath torrent.files))
    (hfits : ∀ file ∈ torrent.files, ∀ path,
      fileSystem.fileAt (downloadPath.push file.path) = some path →
      (fileSystem.content path).length ≤ file.size)
    (hstart : TorrentSystem.new torrent options fileSystem downloadPath = some start)
    (hopened : start.diskEnded = false)
    (hes : AllSteps (systemStep sha1) Unharmed start es)
    (ht : run (systemStep sha1) start es = some t)
    (hall : ∀ p < torrent.rawTorrent.pieceCount, p ∈ t.manager.downloadedPieceIndex) :
    ∃ content : Bytes, content.length = torrent.rawTorrent.totalLength ∧
      (∀ p < torrent.rawTorrent.pieceCount, torrent.rawTorrent.getPieceHash p =
        some (sha1 (pieceOf torrent.rawTorrent content p))) ∧
      (∀ j file, torrent.files[j]? = some file →
        ∃ path, fileSystem.fileAt (downloadPath.push file.path) = some path ∧
          t.disk.disk path =
            (content.drop ((torrent.files.map LocalFile.size).take j).sum).take file.size ∧
          (t.disk.disk path).length = file.size) ∧
      ∀ content' : Bytes, content'.length = torrent.rawTorrent.totalLength →
        (∀ p < torrent.rawTorrent.pieceCount, torrent.rawTorrent.getPieceHash p =
          some (sha1 (pieceOf torrent.rawTorrent content' p))) →
        content' = content ∨ ∃ p < torrent.rawTorrent.pieceCount,
          pieceOf torrent.rawTorrent content' p ≠ pieceOf torrent.rawTorrent content p ∧
          sha1 (pieceOf torrent.rawTorrent content' p) =
            sha1 (pieceOf torrent.rawTorrent content p) := by
  obtain ⟨manager, disk, diskEnded, -, hdisk, hparts⟩ := system_new_eq_some hstart
  have hnew := hdisk (by rw [← hopened, hparts])
  obtain rfl : start.disk = disk := by rw [hparts]
  have hsegments : Distinct (segments start.disk) := (distinct_entries_iff hnew).mp hdistinct
  have hseparate : Separate (entries fileSystem downloadPath torrent.files) := hdistinct.separate
  have hfirst : DownloadInv sha1 torrent options start ∧ FilesOf start.disk start.disk :=
    ⟨downloadInv_new hfiles hseparate hstart, .refl _, fits_of_new hnew hfits⟩
  obtain ⟨hinv, hfilesOf⟩ := (allStates_of_invariant
    (fun s => DownloadInv sha1 torrent options s ∧ FilesOf start.disk s.disk)
    (fun _ _ _ _ hs hcalm h => ⟨downloadInv_step hmeta hcount hs.1 hcalm h,
      filesOf_step hmeta hs.1.system hsegments hs.2 h⟩)
    (fun _ hs => hs) hfirst hes).last ht
  have hdiskOf : DiskOf torrent.rawTorrent t.disk :=
    (diskOf_new hfiles hnew hseparate).of_sameTable hfilesOf.same
  have hfitsNow : Fits t.disk.disk (segments t.disk) := by
    rw [hfilesOf.same.segments_eq]
    exact hfilesOf.fits
  have hsame : t.disk.files = torrent.files :=
    hfilesOf.same.files.trans (new_eq_some hnew).2.1
  obtain ⟨content, hcontent, hpieces⟩ :=
    exists_content hmeta fun p hp => hinv.kept p (hall p hp)
  refine ⟨content, hcontent, fun p hp => (hpieces p hp).1, ?_, ?_⟩
  · intro j file hfile
    obtain ⟨path, hhandle, hheld⟩ := filesHold_of_carries hmeta hcontent hdiskOf hfitsNow
      (fun p hp => (hpieces p hp).2) j file (by rw [hsame, hfile])
    unfold fileStart at hheld
    rw [hsame] at hheld
    refine ⟨path, segment_of_new hnew hfile ?_, hheld⟩
    rw [← hfilesOf.same.segments_eq]
    unfold segments
    rw [List.getElem?_zipWith, hsame, hfile, hhandle]
  · intro content' hcontent' hdigests
    by_cases hsame : ∀ p < torrent.rawTorrent.pieceCount,
        pieceOf torrent.rawTorrent content' p = pieceOf torrent.rawTorrent content p
    · exact Or.inl (content_eq_of_pieces hmeta hcontent' hcontent hsame)
    · push Not at hsame
      obtain ⟨p, hp, hne⟩ := hsame
      have hcollision := hdigests p hp
      rw [(hpieces p hp).1, Option.some.injEq] at hcollision
      exact Or.inr ⟨p, hp, hne, hcollision.symm⟩

end

/-- The torrent of one byte, downloaded. -/
theorem complete_download_oneByte :
    ∃ content : Bytes, content.length = oneByte.rawTorrent.totalLength ∧
      (∀ p < oneByte.rawTorrent.pieceCount, oneByte.rawTorrent.getPieceHash p =
        some (toySha1 (pieceOf oneByte.rawTorrent content p))) ∧
      (∀ j file, oneByte.files[j]? = some file →
        ∃ path, FileSystem.empty.fileAt (PathBuf.push "dl".toList file.path) = some path ∧
          rightBlockState.disk.disk path =
            (content.drop ((oneByte.files.map LocalFile.size).take j).sum).take file.size ∧
          (rightBlockState.disk.disk path).length = file.size) ∧
      ∀ content' : Bytes, content'.length = oneByte.rawTorrent.totalLength →
        (∀ p < oneByte.rawTorrent.pieceCount, oneByte.rawTorrent.getPieceHash p =
          some (toySha1 (pieceOf oneByte.rawTorrent content' p))) →
        content' = content ∨ ∃ p < oneByte.rawTorrent.pieceCount,
          pieceOf oneByte.rawTorrent content' p ≠ pieceOf oneByte.rawTorrent content p ∧
          toySha1 (pieceOf oneByte.rawTorrent content' p) =
            toySha1 (pieceOf oneByte.rawTorrent content p) := by
  have hdistinct : Distinct (entries .empty "dl".toList oneByte.files) := by decide +kernel
  have hes : AllSteps (systemStep toySha1) Unharmed oneByteStart (lateBlockRun 1) := by
    decide +kernel
  exact complete_download wellSized_oneByte (by decide) (by decide +kernel) hdistinct
    (fun _ _ _ _ => Nat.zero_le _) (Option.some_get _).symm (by decide +kernel) hes
    (Option.some_get _).symm (by decide +kernel)

end Fissure.Analysis
