import Fissure.Analysis.InfoHash

/-!
# Which torrent files are safe once they are loaded

Loading decodes the torrent file, lists its files and hashes its info; nothing else of what was
decoded is looked at. The sizes, the piece length and the digests are used later, in the actors of
the torrent. `SafeToUse` says that all of that arithmetic is defined, with `u64` additions that do
not overflow; `loads_safely_iff` says for which metainfo loading makes sure of it.
-/

set_option autoImplicit false

namespace Fissure.Analysis

open Fissure.Library Fissure.Library.Bencode Fissure.Model

/-! ## The arithmetic of the metainfo, undefined where it overflows -/

/-- `u64` addition that is undefined when it overflows. -/
def checkedAdd (a b : ℕ) : Option ℕ := if a + b < 2 ^ 64 then some (a + b) else none

/-- `MetaInfo::download_size` with checked additions. -/
def checkedDownloadSize (m : MetaInfo) : Option ℕ := do
  let files ← m.files
  files.foldlM (fun totSize i => checkedAdd totSize i.length) 0

/-- `MetaInfo::get_number_of_pieces` with checked arithmetic. -/
def checkedNumberOfPieces (m : MetaInfo) : Option ℕ := do
  let totalSize ← checkedDownloadSize m
  let sum ← checkedAdd totalSize m.info.pieceLength
  if sum = 0 ∨ m.info.pieceLength = 0 then none else some ((sum - 1) / m.info.pieceLength)

/-- Every later computation on the metainfo is defined. -/
structure SafeToUse (m : MetaInfo) : Prop where
  pieceLength_ne_zero : m.info.pieceLength ≠ 0
  downloadSize : (checkedDownloadSize m).isSome = true
  numberOfPieces : (checkedNumberOfPieces m).isSome = true
  pieceHash : ∀ n, m.getNumberOfPieces = some n →
    ∀ index < n, (m.getPieceHash index).isSome = true

/-- The piece length is not zero, it and the sizes add up without overflow, and there is a digest
for every piece. -/
structure SoundSizes (m : MetaInfo) : Prop where
  pieceLength_ne_zero : m.info.pieceLength ≠ 0
  noOverflow : m.totalLength + m.info.pieceLength < 2 ^ 64
  digests : m.pieceCount * 20 ≤ m.info.piecesHash.length

/-- Loading the file fails, or what it leaves is safe to use. -/
def LoadsSafely (serde : SerdeBencoded)
    (fileSystem : String → Except String (Except String Bytes)) (sha1 : Bytes → Bytes)
    (torrentFilePath : String) : Prop :=
  ∀ t, ClientTorrentMetaInfo.fromTorrentFilePath serde fileSystem sha1 torrentFilePath = some t →
    SafeToUse t.rawTorrent

variable {m : MetaInfo}

/-- INTERNAL: a checked sum is defined exactly when the sum fits `u64`.
SOURCE: torrent_meta.rs:78-84 -/
theorem foldlM_checkedAdd (l : List FileInfo) {acc : ℕ} (hacc : acc < 2 ^ 64) :
    l.foldlM (fun totSize i => checkedAdd totSize i.length) acc =
      if acc + (l.map FileInfo.length).sum < 2 ^ 64 then
        some (acc + (l.map FileInfo.length).sum) else none := by
  induction l generalizing acc with
  | nil =>
    rw [List.foldlM_nil, List.map_nil, List.sum_nil, Nat.add_zero, if_pos hacc]
    rfl
  | cons f l ih =>
    rw [List.foldlM_cons, List.map_cons, List.sum_cons, ← Nat.add_assoc]
    by_cases hf : acc + f.length < 2 ^ 64
    · rw [checkedAdd, if_pos hf]
      exact ih hf
    · rw [checkedAdd, if_neg hf, if_neg (by omega)]
      rfl

theorem checkedDownloadSize_eq (h : m.files.isSome = true) :
    checkedDownloadSize m = if m.totalLength < 2 ^ 64 then some m.totalLength else none := by
  obtain ⟨files, hfiles⟩ := Option.isSome_iff_exists.mp h
  have htotal : m.totalLength = (files.map FileInfo.length).sum := by
    rw [MetaInfo.totalLength, MetaInfo.fileLengths, hfiles, Option.getD_some]
  have hsum := foldlM_checkedAdd files (by decide : 0 < 2 ^ 64)
  rw [Nat.zero_add, ← htotal] at hsum
  rw [checkedDownloadSize, hfiles]
  exact hsum

/-- INTERNAL: a slice of digests lies inside the string for every piece exactly when the string has
twenty bytes for each.
SOURCE: torrent_meta.rs:85-91 -/
theorem getPieceHash_isSome_iff {n : ℕ} :
    (∀ index < n, (m.getPieceHash index).isSome = true) ↔ n * 20 ≤ m.info.piecesHash.length := by
  have hslice (index : ℕ) : (m.getPieceHash index).isSome = true ↔
      index * 20 + 20 ≤ m.info.piecesHash.length := by
    unfold MetaInfo.getPieceHash
    dsimp only
    split_ifs with h
    · exact iff_of_true rfl h
    · exact iff_of_false Bool.false_ne_true h
  simp only [hslice]
  constructor
  · intro h
    rcases Nat.eq_zero_or_pos n with rfl | hn
    · omega
    · have hlast := h (n - 1) (by omega)
      omega
  · intro h index hindex
    omega

/-- INTERNAL: for metainfo that lists files, all computations are defined exactly when its sizes are
sound.
SOURCE: torrent_meta.rs:78-126 -/
theorem safeToUse_iff (h : m.files.isSome = true) : SafeToUse m ↔ SoundSizes m := by
  have hdownload := checkedDownloadSize_eq h
  constructor
  · rintro ⟨hpos, hsize, hpieces, hhash⟩
    have htotal : m.totalLength < 2 ^ 64 := by
      by_contra hlarge
      rw [hdownload, if_neg hlarge] at hsize
      cases hsize
    have hover : m.totalLength + m.info.pieceLength < 2 ^ 64 := by
      by_contra hlarge
      rw [checkedNumberOfPieces, hdownload, if_pos htotal, Option.bind_eq_bind, Option.bind_some,
        checkedAdd, if_neg hlarge] at hpieces
      cases hpieces
    have hwell : m.WellSized := ⟨h, by omega, by omega⟩
    exact ⟨hpos, hover,
      getPieceHash_isSome_iff.mp (hhash _ (MetaInfo.getNumberOfPieces_eq hwell))⟩
  · rintro ⟨hpos, hover, hdigests⟩
    have hwell : m.WellSized := ⟨h, by omega, by omega⟩
    rw [if_pos (by omega)] at hdownload
    refine ⟨hpos, by rw [hdownload]; rfl, ?_, fun n hn => ?_⟩
    · have hsum : ¬ (m.totalLength + m.info.pieceLength = 0 ∨ m.info.pieceLength = 0) := by omega
      rw [checkedNumberOfPieces, hdownload, Option.bind_eq_bind, Option.bind_some, checkedAdd,
        if_pos hover, Option.bind_some, if_neg hsum]
      rfl
    · rw [MetaInfo.getNumberOfPieces_eq hwell, Option.some.injEq] at hn
      rw [getPieceHash_isSome_iff, ← hn]
      exact hdigests

/-! ## Loading -/

variable {serde : SerdeBencoded} {fileSystem : String → Except String (Except String Bytes)}
  {torrentFilePath : String} {content : Bytes}

/-- INTERNAL: loading goes through exactly when the metainfo lists files and its info can be
encoded, and it keeps the metainfo as it was decoded.
SOURCE: client_manager.rs:166-202 -/
theorem fromTorrentFilePath_cases (sha1 : Bytes → Bytes)
    (hread : fileSystem torrentFilePath = .ok (.ok content))
    (hdecode : serde.fromBytes content = .ok m) :
    ((m.files = none ∨ ∃ e, serde.toVec m.info = .error e) ∧
        ClientTorrentMetaInfo.fromTorrentFilePath serde fileSystem sha1 torrentFilePath = none) ∨
      (m.files.isSome = true ∧ (¬ ∃ e, serde.toVec m.info = .error e) ∧
        ∃ t, ClientTorrentMetaInfo.fromTorrentFilePath serde fileSystem sha1 torrentFilePath =
          some t ∧ t.rawTorrent = m) := by
  cases hfiles : m.files with
  | none =>
    refine Or.inl ⟨Or.inl rfl, ?_⟩
    simp [ClientTorrentMetaInfo.fromTorrentFilePath, MetaInfo.new, hread, hdecode,
      MetaInfo.printFiles, hfiles]
  | some files =>
    have hnew : MetaInfo.new serde fileSystem torrentFilePath = some (.ok m) := by
      simp [MetaInfo.new, hread, hdecode, MetaInfo.printFiles, hfiles]
    cases hform : serde.toVec m.info with
    | error e =>
      refine Or.inl ⟨Or.inr ⟨e, rfl⟩, ?_⟩
      simp [ClientTorrentMetaInfo.fromTorrentFilePath, hnew,
        ClientTorrentMetaInfo.fromTorrentFileMeta, MetaInfo.infoBencodedBinaryForm, hform]
    | ok form =>
      refine Or.inr ⟨rfl, by simp, ?_⟩
      simp [ClientTorrentMetaInfo.fromTorrentFilePath, hnew,
        ClientTorrentMetaInfo.fromTorrentFileMeta, MetaInfo.localFiles, hfiles,
        MetaInfo.infoBencodedBinaryForm, hform]

/-- **Which torrent files are safe once they are loaded.** For every torrent file that is decoded:
loading it fails or leaves metainfo on which every later computation is defined exactly when it
lists no files at all, or its info cannot be encoded, or its sizes are sound.
SOURCE: torrent_meta.rs:47-131, client_manager.rs:166-202 -/
theorem loads_safely_iff (sha1 : Bytes → Bytes)
    (hread : fileSystem torrentFilePath = .ok (.ok content))
    (hdecode : serde.fromBytes content = .ok m) :
    LoadsSafely serde fileSystem sha1 torrentFilePath ↔
      m.files = none ∨ (∃ e, serde.toVec m.info = .error e) ∨ SoundSizes m := by
  unfold LoadsSafely
  rcases fromTorrentFilePath_cases sha1 hread hdecode with
    ⟨hfails, hnone⟩ | ⟨hfiles, hform, t, hload, rfl⟩
  · rw [hnone]
    exact iff_of_true nofun (hfails.elim Or.inl fun h => Or.inr (Or.inl h))
  · have hsome : ¬ t.rawTorrent.files = none := Option.isSome_iff_ne_none.mp hfiles
    rw [or_iff_right hsome, or_iff_right hform, ← safeToUse_iff hfiles, hload]
    constructor
    · exact fun h => h t rfl
    · rintro h t' ht'
      cases ht'
      exact h

/-- The info dictionary of a file of one byte with pieces of no bytes. -/
def emptyPiecesInfo : List (Bytes × Bencode) :=
  [(utf8 "length", .int 1), (utf8 "name", .bytes (utf8 "file")), (utf8 "piece length", .int 0),
   (utf8 "pieces", .bytes [])]

/-- What is decoded from the torrent file with that dictionary. -/
def emptyPieces : MetaInfo := ⟨"http://tracker/", none, ⟨"file", 0, [], some 1, none⟩⟩

/-- The album is safe once it is loaded. -/
theorem loads_safely_iff_album :
    LoadsSafely (serdeOf (.dict (torrentOf albumInfo)))
        (fun _ => .ok (.ok (encode (.dict (torrentOf albumInfo))))) (fun _ => albumDigest) "album" ↔
      album.files = none ∨
        (∃ e, (serdeOf (.dict (torrentOf albumInfo))).toVec album.info = .error e) ∨
        SoundSizes album := by
  have hdeserialize : MetaInfo.deserialize (.dict (torrentOf albumInfo)) = some album := by
    decide +kernel
  exact loads_safely_iff _ rfl (fromBytes_serdeOf.mpr hdeserialize)

/-- A torrent file with a piece length of zero is loaded; the number of its pieces is undefined. -/
theorem zero_piece_length_loaded :
    MetaInfo.deserialize (.dict (torrentOf emptyPiecesInfo)) = some emptyPieces ∧
    emptyPieces.getNumberOfPieces = none ∧
    ¬ LoadsSafely (serdeOf (.dict (torrentOf emptyPiecesInfo)))
        (fun _ => .ok (.ok (encode (.dict (torrentOf emptyPiecesInfo))))) (fun _ => []) "file" := by
  have hdeserialize : MetaInfo.deserialize (.dict (torrentOf emptyPiecesInfo)) =
      some emptyPieces := by
    decide +kernel
  refine ⟨hdeserialize, rfl, fun h => ?_⟩
  have hcases := @fromTorrentFilePath_cases _ (serdeOf (.dict (torrentOf emptyPiecesInfo)))
    (fun _ => .ok (.ok (encode (.dict (torrentOf emptyPiecesInfo))))) "file" _ (fun _ => []) rfl
    (fromBytes_serdeOf.mpr hdeserialize)
  rcases hcases with ⟨hfails, -⟩ | ⟨-, -, t, hload, ht⟩
  · rcases hfails with hfiles | ⟨e, he⟩
    · cases hfiles
    · cases he
  · have hsafe := h t hload
    rw [ht] at hsafe
    exact hsafe.pieceLength_ne_zero rfl

end Fissure.Analysis
