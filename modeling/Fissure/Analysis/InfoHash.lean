import Fissure.Model.BeeProcessor

/-!
# The info hash of a torrent file

`MetaInfo::new` keeps the keys of the info dictionary that `Info` and `FileInfo` name and
drops all others, and `info_bencoded_binary_form` writes what was kept. `Info.restores` says
when that is the dictionary that was read, and `info_hash_faithful_iff` is the statement about
the file: the hashed bytes are those of the file exactly when there were no other keys.
-/

set_option autoImplicit false

namespace Fissure.Analysis

open Fissure.Library Fissure.Library.Bencode Fissure.Model

/-- The keys that `FileInfo` names. -/
def fileKeys : List Bytes := [utf8 "length", utf8 "path"]

/-- The keys that `Info` names. -/
def infoKeys : List Bytes :=
  [utf8 "files", utf8 "length", utf8 "name", utf8 "piece length", utf8 "pieces"]

/-- An info dictionary has no keys besides those that `Info` names, and the entries of its file
list have none besides those that `FileInfo` names. -/
structure NoExtraKeys (d : List (Bytes × Bencode)) : Prop where
  info : ∀ p ∈ d, p.1 ∈ infoKeys
  files : ∀ files, d.lookup (utf8 "files") = some files → Elements (OnlyKeys fileKeys) files

/-! ## Fields -/

theorem utf8_of_fromUTF8? {b : Bytes} {s : String} (h : String.fromUTF8? ⟨b.toArray⟩ = some s) :
    utf8 s = b := by
  unfold String.fromUTF8? at h
  split at h
  · cases h
    rfl
  · cases h

theorem restores_string : RestoresIff (fun _ => True) readString writeString := by
  intro v s _ hread
  cases v with
  | bytes b => exact iff_of_true (congrArg Bencode.bytes (utf8_of_fromUTF8? hread)) trivial
  | int i | list l | dict d => cases hread

theorem restores_u64 : RestoresIff (fun _ => True) readU64 writeU64 := by
  intro v n _ hread
  unfold readU64 at hread
  split at hread
  · next k =>
    split at hread
    · cases hread
      exact iff_of_true rfl trivial
    · cases hread
  · cases hread

theorem restores_bytes : RestoresIff (fun _ => True) readBytes Bencode.bytes := by
  intro v b _ hread
  cases v with
  | bytes b =>
    cases hread
    exact iff_of_true rfl trivial
  | int i | list l | dict d => cases hread

/-! ## Records -/

/-- A file entry is restored unless it has keys that `FileInfo` does not name. -/
theorem FileInfo.restores :
    RestoresIff (OnlyKeys fileKeys) FileInfo.deserialize FileInfo.serialize := by
  intro v f hv hread
  cases hv with
  | @dict d sorted values =>
    have hd := Canonical.dict sorted values
    obtain ⟨length, hlength, hread⟩ := Option.bind_eq_some_iff.mp hread
    obtain ⟨path, hpath, hread⟩ := Option.bind_eq_some_iff.mp hread
    cases hread
    have hkeys : fileKeys.Pairwise (· < ·) := by decide +kernel
    unfold FileInfo.serialize
    rw [Bencode.dict.injEq, entries_eq_iff hkeys sorted rfl]
    simp only [List.forall_mem_cons, restores_u64.requiredField hd hlength,
      restores_string.list_always.requiredField hd hpath]
    constructor
    · rintro ⟨-, hothers⟩ d' hd'
      cases hd'
      exact hothers
    · exact fun h => ⟨⟨fun _ _ => trivial, fun _ _ => trivial, nofun⟩, h d rfl⟩
  | int i | bytes b | list l => cases hread

/-- An info dictionary is restored exactly when it has no keys that the structs do not name. -/
theorem Info.restores {d : List (Bytes × Bencode)} {i : Info} (hd : Canonical (.dict d))
    (hread : Info.deserialize (.dict d) = some i) : i.serialize = .dict d ↔ NoExtraKeys d := by
  obtain ⟨name, hname, hread⟩ := Option.bind_eq_some_iff.mp hread
  obtain ⟨pieceLength, hpieceLength, hread⟩ := Option.bind_eq_some_iff.mp hread
  obtain ⟨piecesHash, hpieces, hread⟩ := Option.bind_eq_some_iff.mp hread
  obtain ⟨length, hlength, hread⟩ := Option.bind_eq_some_iff.mp hread
  obtain ⟨files, hfiles, hread⟩ := Option.bind_eq_some_iff.mp hread
  cases hread
  have hkeys : infoKeys.Pairwise (· < ·) := by decide +kernel
  unfold Info.serialize
  rw [Bencode.dict.injEq, entries_eq_iff hkeys hd.sortedKeys rfl]
  -- only the file list can fail to be restored
  simp only [List.forall_mem_cons, restores_string.requiredField hd hname,
    restores_u64.requiredField hd hpieceLength, restores_bytes.requiredField hd hpieces,
    restores_u64.optionalField hd hlength, FileInfo.restores.list.optionalField hd hfiles]
  constructor
  · rintro ⟨⟨hentries, -⟩, hothers⟩
    exact ⟨hothers, hentries⟩
  · rintro ⟨hothers, hentries⟩
    exact ⟨⟨hentries, fun _ _ => trivial, fun _ _ => trivial, fun _ _ => trivial,
      fun _ _ => trivial, nofun⟩, hothers⟩

/-! ## The file -/

variable {serde : SerdeBencoded} {fileSystem : String → Except String (Except String Bytes)}
  {torrentFilePath : String} {m : MetaInfo}

/-- What `MetaInfo::new` returns was decoded from the file, and it lists files. -/
theorem new_eq_ok {content : Bytes} (hread : fileSystem torrentFilePath = .ok (.ok content))
    (hnew : MetaInfo.new serde fileSystem torrentFilePath = some (.ok m)) :
    serde.fromBytes content = .ok m ∧ m.files.isSome = true := by
  unfold MetaInfo.new at hnew
  rw [hread] at hnew
  cases hdecode : serde.fromBytes content with
  | error e => simp [hdecode] at hnew
  | ok metaInfo =>
    simp only [hdecode] at hnew
    obtain ⟨_, hprint, hnew⟩ := Option.bind_eq_some_iff.mp hnew
    cases hnew
    obtain ⟨files, hfiles, -⟩ := Option.map_eq_some_iff.mp hprint
    exact ⟨rfl, Option.isSome_of_eq_some hfiles⟩

/-- The info of a decoded file is decoded from the info dictionary. -/
theorem info_of_deserialize {file : List (Bytes × Bencode)} {info : Bencode}
    (hinfo : file.lookup (utf8 "info") = some info)
    (h : MetaInfo.deserialize (.dict file) = some m) : Info.deserialize info = some m.info := by
  obtain ⟨announce, -, h⟩ := Option.bind_eq_some_iff.mp h
  obtain ⟨announceList, -, h⟩ := Option.bind_eq_some_iff.mp h
  obtain ⟨i, hi, h⟩ := Option.bind_eq_some_iff.mp h
  cases h
  rwa [requiredField, hinfo, Option.bind_some] at hi

/-- The info hash is the digest of the encoded info, for a torrent that lists files. -/
theorem fromTorrentFileMeta_eq (sha1 : Bytes → Bytes) {form : Bytes}
    (hform : m.infoBencodedBinaryForm serde = .ok form) (hfiles : m.files.isSome = true) :
    ∃ t, ClientTorrentMetaInfo.fromTorrentFileMeta serde sha1 m = some t ∧
      t.infoHash = sha1 form := by
  obtain ⟨files, hfiles⟩ := Option.isSome_iff_exists.mp hfiles
  unfold ClientTorrentMetaInfo.fromTorrentFileMeta MetaInfo.localFiles
  rw [hfiles, hform]
  exact ⟨_, rfl, rfl⟩

/-- The info dictionary stands in an accepted file behind its key. The bytes that
`info_bencoded_binary_form` returns are those of the dictionary, and the info hash is their
digest, exactly when the dictionary and its file entries have no keys that the structs do not
name. -/
theorem info_hash_faithful_iff {file info : List (Bytes × Bencode)} (sha1 : Bytes → Bytes)
    (hread : fileSystem torrentFilePath = .ok (.ok (encode (.dict file))))
    (hcanonical : Canonical (.dict file))
    (hinfo : file.lookup (utf8 "info") = some (.dict info))
    (hdecode : ∀ metaInfo, serde.fromBytes (encode (.dict file)) = .ok metaInfo →
      MetaInfo.deserialize (.dict file) = some metaInfo)
    (hencode : ∀ i, serde.toVec i = .ok (encode i.serialize))
    (hnew : MetaInfo.new serde fileSystem torrentFilePath = some (.ok m)) :
    netstring (utf8 "info") ++ encode (.dict info) <:+: encode (.dict file) ∧
    ((m.infoBencodedBinaryForm serde = .ok (encode (.dict info)) ∧
      ∃ t, ClientTorrentMetaInfo.fromTorrentFileMeta serde sha1 m = some t ∧
        t.infoHash = sha1 (encode (.dict info))) ↔
      NoExtraKeys info) := by
  obtain ⟨hm, hfiles⟩ := new_eq_ok hread hnew
  have hdeserialize := info_of_deserialize hinfo (hdecode m hm)
  have hform : m.infoBencodedBinaryForm serde = .ok (encode m.info.serialize) := by
    rw [MetaInfo.infoBencodedBinaryForm, hencode]
  refine ⟨encode_entry_within (hcanonical.sortedKeys.lookup_eq_some_iff.mp hinfo), ?_⟩
  rw [← Info.restores (hcanonical.of_lookup hinfo) hdeserialize]
  constructor
  · rintro ⟨h, -⟩
    rw [hform] at h
    exact encode_injective (Except.ok.inj h)
  · intro h
    rw [h] at hform
    exact ⟨hform, fromTorrentFileMeta_eq sha1 hform hfiles⟩

/-- `serde_bencoded` for one torrent file. -/
def serdeOf (torrent : Bencode) : SerdeBencoded where
  fromBytes content :=
    if content = encode torrent then
      (MetaInfo.deserialize torrent).elim (.error "not a torrent") .ok
    else .error "another file"
  toVec i := .ok (encode i.serialize)

theorem fromBytes_serdeOf {torrent : Bencode} :
    (serdeOf torrent).fromBytes (encode torrent) = .ok m ↔
      MetaInfo.deserialize torrent = some m := by
  cases h : MetaInfo.deserialize torrent <;> simp [serdeOf, h]

theorem new_serdeOf {torrent : Bencode} (torrentFilePath : String)
    (h : MetaInfo.deserialize torrent = some m) (hfiles : m.files.isSome = true) :
    MetaInfo.new (serdeOf torrent) (fun _ => .ok (.ok (encode torrent))) torrentFilePath =
      some (.ok m) := by
  obtain ⟨files, hfiles⟩ := Option.isSome_iff_exists.mp hfiles
  simp [MetaInfo.new, fromBytes_serdeOf.mpr h, MetaInfo.printFiles, hfiles]

/-- The info dictionary of a torrent with one file in a directory. -/
def albumInfo : List (Bytes × Bencode) :=
  [(utf8 "files", .list
      [.dict [(utf8 "length", .int 3), (utf8 "path", .list [.bytes (utf8 "song")])]]),
   (utf8 "name", .bytes (utf8 "album")),
   (utf8 "piece length", .int 4),
   (utf8 "pieces", .bytes (List.replicate 20 7))]

/-- The same dictionary with the key that marks a private torrent. -/
def privateInfo : List (Bytes × Bencode) := albumInfo ++ [(utf8 "private", .int 1)]

/-- A torrent file with the given info dictionary. -/
def torrentOf (info : List (Bytes × Bencode)) : List (Bytes × Bencode) :=
  [(utf8 "announce", .bytes (utf8 "http://tracker/")), (utf8 "info", .dict info)]

/-- The SHA-1 digest of `encode (.dict albumInfo)`. -/
def albumDigest : Bytes :=
  [47, 33, 114, 140, 128, 201, 52, 82, 88, 1, 75, 87, 63, 103, 223, 124, 4, 156, 34, 142]

/-- What is decoded from the two torrent files. -/
def album : MetaInfo where
  announce := "http://tracker/"
  announceList := none
  info :=
    { name := "album", pieceLength := 4, piecesHash := List.replicate 20 7, length := none,
      files := some [⟨3, ["song"]⟩] }

theorem canonical_torrentOf {info : List (Bytes × Bencode)} (h : Canonical (.dict info)) :
    Canonical (.dict (torrentOf info)) := by
  have hkeys : [utf8 "announce", utf8 "info"].Pairwise (· < ·) := by decide +kernel
  apply Canonical.dict (.of_keys hkeys rfl)
  simp only [torrentOf, List.forall_mem_cons]
  exact ⟨.bytes _, h, nofun⟩

theorem canonical_privateInfo : Canonical (.dict privateInfo) := by
  apply Canonical.dict (by decide +kernel)
  simp only [privateInfo, albumInfo, List.cons_append, List.nil_append, List.forall_mem_cons]
  refine ⟨?_, .bytes _, .int _, .bytes _, .int _, nofun⟩
  apply Canonical.list
  simp only [List.forall_mem_cons]
  refine ⟨.dict (by decide +kernel) ?_, nofun⟩
  simp only [List.forall_mem_cons]
  refine ⟨.int _, .list ?_, nofun⟩
  simp only [List.forall_mem_cons]
  exact ⟨.bytes _, nofun⟩

theorem canonical_albumInfo : Canonical (.dict albumInfo) := by
  cases canonical_privateInfo with
  | dict sorted values =>
    exact .dict (List.pairwise_append.mp sorted).1
      fun p hp => values p (List.mem_append_left _ hp)

theorem noExtraKeys_albumInfo : NoExtraKeys albumInfo where
  info := by decide +kernel
  files := by
    intro files hfiles l hl entry hentry d hd
    obtain rfl := Option.some.inj hfiles
    cases hl
    obtain rfl := List.mem_singleton.mp hentry
    cases hd
    decide +kernel

/-- The info dictionary of an accepted torrent without other keys is hashed as it stands. -/
theorem info_hash_faithful_album :
    album.infoBencodedBinaryForm (serdeOf (.dict (torrentOf albumInfo))) =
        .ok (encode (.dict albumInfo)) ∧
      ∃ t, ClientTorrentMetaInfo.fromTorrentFileMeta (serdeOf (.dict (torrentOf albumInfo)))
          (fun _ => albumDigest) album = some t ∧
        t.infoHash = albumDigest := by
  have hdeserialize : MetaInfo.deserialize (.dict (torrentOf albumInfo)) = some album := by
    decide +kernel
  have hnew := new_serdeOf "album.torrent" hdeserialize rfl
  refine (info_hash_faithful_iff (fun _ => albumDigest) ?_
    (canonical_torrentOf canonical_albumInfo) ?_ (fun _ => fromBytes_serdeOf.mp) ?_ hnew).2.mpr
      noExtraKeys_albumInfo
  · rfl
  · rfl
  · exact fun _ => rfl

/-- A private torrent is accepted, but its info dictionary is hashed without the key `private`. -/
theorem private_key_not_hashed :
    Canonical (.dict (torrentOf privateInfo)) ∧
    (torrentOf privateInfo).lookup (utf8 "info") = some (.dict privateInfo) ∧
    MetaInfo.new (serdeOf (.dict (torrentOf privateInfo)))
        (fun _ => .ok (.ok (encode (.dict (torrentOf privateInfo))))) "private.torrent" =
      some (.ok album) ∧
    album.infoBencodedBinaryForm (serdeOf (.dict (torrentOf privateInfo))) =
      .ok (encode (.dict albumInfo)) ∧
    encode (.dict albumInfo) ≠ encode (.dict privateInfo) := by
  have hdeserialize : MetaInfo.deserialize (.dict (torrentOf privateInfo)) = some album := by
    decide +kernel
  refine ⟨canonical_torrentOf canonical_privateInfo, rfl, new_serdeOf _ hdeserialize rfl, ?_, ?_⟩
  · exact congrArg Except.ok (by decide +kernel :
      encode album.info.serialize = encode (.dict albumInfo))
  · decide +kernel

end Fissure.Analysis
