import Fissure.Library.BencodeStruct
import Fissure.Model.TorrentMeta

/-!
# Torrent files and the info hash

`bee_processor/bee_decoder.rs`, `bee_processor/bee_encoder.rs`, the `serde` attributes of the
structs in `models/torrent_meta.rs` and the constructors of `ClientTorrentMetaInfo` in
`managers/client_manager.rs`. `deserialize` and `serialize` are the derived implementations:
the named fields are looked up and all other keys are skipped, and the fields are written
with their keys in sorted order. The crate `serde_bencoded`, which applies them to bytes, and
SHA-1 are parameters, and so is what the file system answers. A panic is `none`.
-/

set_option autoImplicit false

namespace Fissure.Model

open Fissure.Library Fissure.Library.Bencode

/-- The UTF-8 bytes of a string. -/
def utf8 (s : String) : Bytes := s.toUTF8.data.toList

/-- A `String` is read from a byte string that is valid UTF-8. -/
def readString : Bencode → Option String
  | .bytes b => String.fromUTF8? ⟨b.toArray⟩
  | _ => none

def writeString (s : String) : Bencode := .bytes (utf8 s)

/-- A `u64` is read from an integer in its range. -/
def readU64 : Bencode → Option ℕ
  | .int (.ofNat n) => if n < 2 ^ 64 then some n else none
  | _ => none

def writeU64 (n : ℕ) : Bencode := .int n

/-- `serde_bytes`. -/
def readBytes : Bencode → Option Bytes
  | .bytes b => some b
  | _ => none

/-- `FileInfo`, derived `Deserialize`. -/
def FileInfo.deserialize : Bencode → Option FileInfo
  | .dict d => do
    let length ← requiredField d (utf8 "length") readU64
    let path ← requiredField d (utf8 "path") (readList readString)
    some { length, path }
  | _ => none

/-- `FileInfo`, derived `Serialize`. -/
def FileInfo.serialize (f : FileInfo) : Bencode :=
  .dict (entries
    [(utf8 "length", some (writeU64 f.length)),
     (utf8 "path", some (writeList writeString f.path))])

/-- `Info`, derived `Deserialize`. -/
def Info.deserialize : Bencode → Option Info
  | .dict d => do
    let name ← requiredField d (utf8 "name") readString
    let pieceLength ← requiredField d (utf8 "piece length") readU64
    let piecesHash ← requiredField d (utf8 "pieces") readBytes
    let length ← optionalField d (utf8 "length") readU64
    let files ← optionalField d (utf8 "files") (readList FileInfo.deserialize)
    some { name, pieceLength, piecesHash, length, files }
  | _ => none

/-- `Info`, derived `Serialize`; `length` and `files` are skipped if they are `None`. -/
def Info.serialize (i : Info) : Bencode :=
  .dict (entries
    [(utf8 "files", i.files.map (writeList FileInfo.serialize)),
     (utf8 "length", i.length.map writeU64),
     (utf8 "name", some (writeString i.name)),
     (utf8 "piece length", some (writeU64 i.pieceLength)),
     (utf8 "pieces", some (.bytes i.piecesHash))])

/-- `MetaInfo`, derived `Deserialize`; a missing `announce` is the empty string. -/
def MetaInfo.deserialize : Bencode → Option MetaInfo
  | .dict d => do
    let announce ← optionalField d (utf8 "announce") readString
    let announceList ← optionalField d (utf8 "announce-list") (readList (readList readString))
    let info ← requiredField d (utf8 "info") Info.deserialize
    some { announce := announce.getD "", announceList, info }
  | _ => none

/-- What the client uses of the crate `serde_bencoded`; an error is its text. -/
structure SerdeBencoded where
  /-- `from_bytes::<MetaInfo>` -/
  fromBytes : Bytes → Except String MetaInfo
  /-- `to_vec::<Info>` -/
  toVec : Info → Except String Bytes

/-- `FissureErr`. -/
structure FissureErr where
  errorString : String
  deriving DecidableEq, Repr

/-- `BeeEncoderErr`. -/
structure BeeEncoderErr where
  errorString : String
  deriving DecidableEq, Repr

namespace MetaInfo

/-- `MetaInfo::print_files`; what it logs is left out. -/
def printFiles (m : MetaInfo) : Option Unit := m.files.map fun _ => ()

/-- `MetaInfo::new`. The file system answers `File::open` and then `read_to_end`. -/
def new (serde : SerdeBencoded) (fileSystem : String → Except String (Except String Bytes))
    (torrentFilePath : String) : Option (Except FissureErr MetaInfo) :=
  match fileSystem torrentFilePath with
  | .error e => some (.error ⟨e⟩)
  | .ok (.error e) => some (.error ⟨e⟩)
  | .ok (.ok torrentFileContent) =>
    match serde.fromBytes torrentFileContent with
    | .error e => some (.error ⟨e⟩)
    | .ok metaInfo => do
      metaInfo.printFiles
      some (.ok metaInfo)

/-- `MetaInfo::info_bencoded_binary_form`. -/
def infoBencodedBinaryForm (serde : SerdeBencoded) (m : MetaInfo) : Except BeeEncoderErr Bytes :=
  match serde.toVec m.info with
  | .ok v => .ok v
  | .error e => .error ⟨"[ERROR] Error encoding info value back to bencoded." ++ e⟩

end MetaInfo

namespace ClientTorrentMetaInfo

/-- `ClientTorrentMetaInfo::from_torrent_file_meta`. -/
def fromTorrentFileMeta (serde : SerdeBencoded) (sha1 : Bytes → Bytes)
    (torrentFileMeta : MetaInfo) : Option ClientTorrentMetaInfo := do
  let clientFiles ← torrentFileMeta.localFiles
  match torrentFileMeta.infoBencodedBinaryForm serde with
  | .error _ => none
  | .ok form => some { files := clientFiles, infoHash := sha1 form, rawTorrent := torrentFileMeta }

/-- `ClientTorrentMetaInfo::from_torrent_file_path`. -/
def fromTorrentFilePath (serde : SerdeBencoded)
    (fileSystem : String → Except String (Except String Bytes)) (sha1 : Bytes → Bytes)
    (filePath : String) : Option ClientTorrentMetaInfo := do
  match ← MetaInfo.new serde fileSystem filePath with
  | .ok mi => fromTorrentFileMeta serde sha1 mi
  | .error _ => none

end ClientTorrentMetaInfo

end Fissure.Model
