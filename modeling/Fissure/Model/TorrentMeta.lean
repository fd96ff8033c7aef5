import Mathlib.Algebra.Order.BigOperators.Group.List
import Fissure.Model.Bits

/-!
# The torrent's metainfo and the peer settings

`models/torrent_meta.rs`, `models/peer_settings.rs` and the data types of
`managers/client_manager.rs`. `u64` sums and differences wrap around (`u64Add`, `u64Sub`), as they do
in a release build; in the calls and rounds of the trackers, where it matters, an overflow panics, as
in a debug build. A slice out of range, a division by zero and the `unwrap` of a missing field panic,
which is `none`. `Consistent` says what a torrent file must satisfy for these computations to be the
intended ones.
-/

set_option autoImplicit false

namespace Fissure.Model

/-- `u64` addition, as in a release build. -/
def u64Add (a b : ℕ) : ℕ := (a + b) % 2 ^ 64

/-- `u64` subtraction, as in a release build. -/
def u64Sub (a b : ℕ) : ℕ := (a + (2 ^ 64 - b)) % 2 ^ 64

/-- `PeerOptions`; the two timeouts are in seconds. -/
structure PeerOptions where
  perPeerInflightCount : ℕ := 25
  perPeerActiveRequestCount : ℕ := 5
  perPieceActivePeerCount : ℕ := 5
  blockRequestTimeout : ℕ := 4
  pieceRequestTimeout : ℕ := 30
  deriving DecidableEq, Repr

/-- `FileInfo`. -/
structure FileInfo where
  length : ℕ
  path : List String
  deriving DecidableEq, Repr

/-- `Info`. `piecesHash` is the key `pieces`, the SHA-1 digests one after the other. -/
structure Info where
  name : String
  pieceLength : ℕ
  piecesHash : Bytes
  /-- single file downloads only -/
  length : Option ℕ
  /-- multi file downloads only -/
  files : Option (List FileInfo)
  deriving DecidableEq, Repr

/-- `MetaInfo`. -/
structure MetaInfo where
  announce : String
  announceList : Option (List (List String))
  info : Info
  deriving DecidableEq, Repr

namespace MetaInfo

/-- `MetaInfo::files`. -/
def files (m : MetaInfo) : Option (List FileInfo) :=
  match m.info.length with
  | some length => some [⟨length, [m.info.name]⟩]
  | none => m.info.files

/-- `MetaInfo::download_size`. -/
def downloadSize (m : MetaInfo) : Option ℕ :=
  m.files.map fun files => files.foldl (fun totSize i => u64Add totSize i.length) 0

/-- `MetaInfo::get_piece_hash`. -/
def getPieceHash (m : MetaInfo) (index : ℕ) : Option Bytes :=
  let startIndex := index * 20
  let endIndex := startIndex + 20
  if endIndex ≤ m.info.piecesHash.length then some ((m.info.piecesHash.drop startIndex).take 20)
  else none

/-- `MetaInfo::get_number_of_pieces`. -/
def getNumberOfPieces (m : MetaInfo) : Option ℕ := do
  let totalSize ← m.downloadSize
  let pieceLen := m.info.pieceLength
  if pieceLen = 0 then none
  else some (u64Sub (u64Add totalSize pieceLen) 1 / pieceLen)

/-- `MetaInfo::get_piece_length`. -/
def getPieceLength (m : MetaInfo) (index : ℕ) : Option ℕ := do
  let totalSize ← m.downloadSize
  let pieceLen := m.info.pieceLength
  let numPieces ← m.getNumberOfPieces
  if numPieces ≤ index then some 0
  else if index = numPieces - 1 then
    let remainder := totalSize % pieceLen
    if remainder = 0 then some pieceLen else some remainder
  else some pieceLen

/-- `MetaInfo::get_standard_piece_len`. -/
def getStandardPieceLen (m : MetaInfo) : ℕ := m.info.pieceLength

/-- The sizes of the torrent's files, in order. -/
def fileLengths (m : MetaInfo) : List ℕ := (m.files.getD []).map FileInfo.length

/-- The size of the download as a natural number. -/
def totalLength (m : MetaInfo) : ℕ := m.fileLengths.sum

/-- The number of pieces as a natural number. -/
def pieceCount (m : MetaInfo) : ℕ := (m.totalLength + m.info.pieceLength - 1) / m.info.pieceLength

/-- The length of piece `i` as a natural number. -/
def pieceLen (m : MetaInfo) (i : ℕ) : ℕ :=
  min m.info.pieceLength (m.totalLength - i * m.info.pieceLength)

/-- The digest of piece `i`. -/
def pieceHash (m : MetaInfo) (i : ℕ) : Bytes := (m.info.piecesHash.drop (i * 20)).take 20

/-- The metainfo lists files, its pieces are not empty and its size fits `u64`. -/
structure WellSized (m : MetaInfo) : Prop where
  hasFiles : m.files.isSome = true
  pieceLength_pos : 0 < m.info.pieceLength
  noOverflow : m.totalLength + m.info.pieceLength - 1 < 2 ^ 64

/-- The metainfo of a well-formed torrent: it has one digest for each piece. -/
structure Consistent (m : MetaInfo) : Prop extends WellSized m where
  hashes : m.info.piecesHash.length = m.pieceCount * 20

/-- The running `u64` sum of sizes is the sum when it stays below `2 ^ 64`. -/
theorem foldl_u64Add (l : List FileInfo) (acc : ℕ)
    (h : acc + (l.map FileInfo.length).sum < 2 ^ 64) :
    l.foldl (fun totSize i => u64Add totSize i.length) acc =
      acc + (l.map FileInfo.length).sum := by
  induction l generalizing acc with
  | nil => simp
  | cons f l ih =>
    rw [List.map_cons, List.sum_cons] at h ⊢
    have hstep : u64Add acc f.length = acc + f.length := Nat.mod_eq_of_lt (by omega)
    rw [List.foldl_cons, hstep, ih _ (by omega)]
    omega

variable {m : MetaInfo}

theorem downloadSize_eq (h : m.WellSized) : m.downloadSize = some m.totalLength := by
  obtain ⟨files, hfiles⟩ := Option.isSome_iff_exists.mp h.hasFiles
  have hpos := h.pieceLength_pos
  have hover := h.noOverflow
  have htotal : m.totalLength = (files.map FileInfo.length).sum := by
    rw [totalLength, fileLengths, hfiles, Option.getD_some]
  unfold downloadSize
  rw [hfiles, Option.map_some, htotal, foldl_u64Add files 0 (by omega), Nat.zero_add]

theorem getNumberOfPieces_eq (h : m.WellSized) : m.getNumberOfPieces = some m.pieceCount := by
  have hpos := h.pieceLength_pos
  have hover := h.noOverflow
  have hsub : u64Sub (u64Add m.totalLength m.info.pieceLength) 1 =
      m.totalLength + m.info.pieceLength - 1 := by
    unfold u64Sub u64Add
    omega
  unfold getNumberOfPieces pieceCount
  rw [downloadSize_eq h]
  simp only [Option.bind_eq_bind, Option.bind_some, if_neg (by omega : ¬ m.info.pieceLength = 0),
    hsub]

theorem lt_pieceCount_iff (h : 0 < m.info.pieceLength) {i : ℕ} :
    i < m.pieceCount ↔ i * m.info.pieceLength < m.totalLength := by
  unfold pieceCount
  rw [Nat.lt_div_iff_mul_lt h]
  omega

/-- `get_piece_length` is what is left of the content at the piece, at most one piece length. -/
theorem getPieceLength_eq (h : m.WellSized) {i : ℕ} (hi : i < m.pieceCount) :
    m.getPieceLength i = some (m.pieceLen i) := by
  have hpos := h.pieceLength_pos
  have hlt := (lt_pieceCount_iff hpos).mp hi
  unfold getPieceLength pieceLen
  rw [downloadSize_eq h, getNumberOfPieces_eq h]
  simp only [Option.bind_eq_bind, Option.bind_some, if_neg (Nat.not_le.mpr hi)]
  by_cases hlast : i = m.pieceCount - 1
  · -- the last piece: the next one would begin at or beyond the end
    have hend : ¬ i + 1 < m.pieceCount := by omega
    rw [lt_pieceCount_iff hpos, Nat.succ_mul] at hend
    have hmod : m.totalLength % m.info.pieceLength =
        (m.totalLength - i * m.info.pieceLength) % m.info.pieceLength := by
      rw [Nat.mul_comm i] at hlt ⊢
      exact (Nat.sub_mul_mod hlt.le).symm
    rw [if_pos hlast, hmod]
    by_cases hfull : m.totalLength - i * m.info.pieceLength = m.info.pieceLength
    · simp [hfull]
    · rw [Nat.mod_eq_of_lt (by omega), if_neg (by omega), Nat.min_eq_right (by omega)]
  · have hnext : i + 1 < m.pieceCount := by omega
    rw [lt_pieceCount_iff hpos, Nat.succ_mul] at hnext
    rw [if_neg hlast, Nat.min_eq_left (by omega)]

theorem getPieceHash_eq (h : m.Consistent) {i : ℕ} (hi : i < m.pieceCount) :
    m.getPieceHash i = some (m.pieceHash i) := by
  have hhash := h.hashes
  have hslice : i * 20 + 20 ≤ m.info.piecesHash.length := by
    have := Nat.mul_le_mul_right 20 hi
    omega
  unfold getPieceHash pieceHash
  rw [if_pos hslice]

end MetaInfo

/-- `std::path::PathBuf` under Unix. -/
abbrev PathBuf := List Char

/-- `PathBuf::push`: an absolute component replaces what precedes it. -/
def PathBuf.push (p component : PathBuf) : PathBuf :=
  if component.head? = some '/' then component
  else if p = [] ∨ p.getLast? = some '/' then p ++ component
  else p ++ '/' :: component

/-- Collecting path components into a `PathBuf`. -/
def PathBuf.collect (components : List String) : PathBuf :=
  components.foldl (fun p c => p.push c.toList) []

/-- `LocalFile`; the size is in bytes. -/
structure LocalFile where
  path : PathBuf
  size : ℕ
  deriving DecidableEq, Repr

/-- The loop over the files in `ClientTorrentMetaInfo::from_torrent_file_meta`. -/
def MetaInfo.localFiles (m : MetaInfo) : Option (List LocalFile) :=
  m.files.map fun files =>
    files.map fun content => ⟨PathBuf.collect content.path, content.length⟩

/-- The local files have the sizes of the torrent's files. -/
theorem MetaInfo.size_localFiles {m : MetaInfo} {files : List LocalFile}
    (h : m.localFiles = some files) : files.map LocalFile.size = m.fileLengths := by
  unfold localFiles at h
  obtain ⟨infos, hinfos, rfl⟩ := Option.map_eq_some_iff.mp h
  rw [fileLengths, hinfos, Option.getD_some, List.map_map]
  rfl

/-- `ClientTorrentMetaInfo`. -/
structure ClientTorrentMetaInfo where
  rawTorrent : MetaInfo
  files : List LocalFile
  infoHash : Bytes
  deriving DecidableEq, Repr

end Fissure.Model
