import Fissure.Analysis.Completions
import Fissure.Analysis.OutgoingPackets

/-!
# The progress that trackers are told

The manager keeps the progress in megabytes, and an announce turns it into bytes again, once for the
query of an HTTP tracker and once for the packet to a UDP tracker. Both say the same numbers
(`announcesNumbers_iff`), and `downloaded` is the length of the pieces that were persisted
(`announced_numbers`). `left` is never updated, so it is right as long as no piece is persisted
(`progress_announced_iff`).
-/

set_option autoImplicit false

namespace Fissure.Analysis

open Fissure.Library Fissure.Model
open Fissure.Model.TorrentManagerActor

/-! ## The numbers of an announce -/

/-- In every announce with the statistics, over HTTP and over UDP, these are the numbers. The ones
over UDP follow the peer id. -/
def AnnouncesNumbers (stats : TorrentStats) (downloaded left uploaded : ℕ) : Prop :=
  (∀ infoHash peerId port,
    (httpRequest infoHash peerId port stats).downloaded = Nat.repr downloaded ∧
    (httpRequest infoHash peerId port stats).left = Nat.repr left ∧
    (httpRequest infoHash peerId port stats).uploaded = Nat.repr uploaded) ∧
  ∀ (a : Announce) (ourPort : String) (request : Bytes), a.infoHash.length = 20 →
    announceRequest a.cId a.tId a.key a.infoHash a.peerId ourPort stats = some request →
    HasFields (78 + (utf8 a.peerId).length)
      [(36 + (utf8 a.peerId).length, 8, putU64 downloaded),
        (44 + (utf8 a.peerId).length, 8, putU64 left),
        (52 + (utf8 a.peerId).length, 8, putU64 uploaded)] request

/-- INTERNAL: the numbers over UDP follow the peer id, whatever its length.
SOURCE: tracker.rs:113-125 -/
theorem udp_numbers {a : Announce} {ourPort : String} {stats : TorrentStats} {request : Bytes}
    (hhash : a.infoHash.length = 20)
    (h : announceRequest a.cId a.tId a.key a.infoHash a.peerId ourPort stats = some request) :
    HasFields (78 + (utf8 a.peerId).length)
      [(36 + (utf8 a.peerId).length, 8, putU64 (inBytes stats.downloaded)),
        (44 + (utf8 a.peerId).length, 8, putU64 (inBytes stats.left)),
        (52 + (utf8 a.peerId).length, 8, putU64 (inBytes stats.uploaded))] request := by
  unfold announceRequest secondRequestBuf at h
  simp only [Option.bind_eq_bind, Option.bind_eq_some_iff, Option.some.injEq] at h
  obtain ⟨port, -, rfl⟩ := h
  have hlayout : Consecutive 0 (78 + (utf8 a.peerId).length)
      [(0, 8, putU64 a.cId.toNat), (8, 4, putU32 1), (12, 4, putU32 a.tId.toNat),
        (16, 20, a.infoHash), (36, (utf8 a.peerId).length, utf8 a.peerId),
        (36 + (utf8 a.peerId).length, 8, putU64 (inBytes stats.downloaded)),
        (44 + (utf8 a.peerId).length, 8, putU64 (inBytes stats.left)),
        (52 + (utf8 a.peerId).length, 8, putU64 (inBytes stats.uploaded)),
        (60 + (utf8 a.peerId).length, 18, putU32 2 ++ putU32 0 ++ putU32 a.key.toNat ++
          putU32 (2 ^ 32 - 1) ++ putU16 port)] := by
    simp [Consecutive, hhash]
    omega
  obtain ⟨hlength, hfields⟩ := hlayout.hasFields
  constructor
  · simp [appended] at hlength ⊢
    omega
  · intro entry hentry
    have hentry := hfields entry (by simp at hentry ⊢; tauto)
    simpa [appended] using hentry

/-- INTERNAL: a number is determined by its decimal digits. -/
theorem repr_injective {n m : ℕ} (h : Nat.repr n = Nat.repr m) : n = m := by
  have hdigits : Nat.toDigits 10 n = Nat.toDigits 10 m := by
    rw [← Nat.toList_repr, ← Nat.toList_repr, h]
  simpa using congrArg (Nat.ofDigitChars 10 · 0) hdigits

theorem announcesNumbers_iff {stats : TorrentStats} {downloaded left uploaded : ℕ} :
    AnnouncesNumbers stats downloaded left uploaded ↔
      inBytes stats.downloaded = downloaded ∧ inBytes stats.left = left ∧
        inBytes stats.uploaded = uploaded := by
  constructor
  · rintro ⟨hhttp, -⟩
    obtain ⟨hdownloaded, hleft, huploaded⟩ := hhttp [] "" ""
    exact ⟨repr_injective hdownloaded, repr_injective hleft, repr_injective huploaded⟩
  · rintro ⟨rfl, rfl, rfl⟩
    exact ⟨fun _ _ _ => ⟨rfl, rfl, rfl⟩, fun a ourPort request hhash h => udp_numbers hhash h⟩

/-- INTERNAL: a whole number of bytes that was kept in megabytes comes out again. -/
theorem inBytes_megabytes {n : ℕ} (h : n < 2 ^ 64) : inBytes ((n : ℚ) / 1000000) = n := by
  unfold inBytes
  rw [div_mul_cancel₀ _ (by norm_num), ← Int.cast_natCast, Rat.floor_intCast, Int.toNat_natCast]
  omega

/-! ## The statistics along a run -/

/-- The size of the download. -/
def downloadBytes (torrent : MetaInfo) : ℕ := torrent.downloadSize.getD 0

/-- INTERNAL: the size is a running sum in `u64`. -/
theorem downloadBytes_lt (torrent : MetaInfo) : downloadBytes torrent < 2 ^ 64 := by
  have hfold (files : List FileInfo) (acc : ℕ) (hacc : acc < 2 ^ 64) :
      files.foldl (fun totSize i => u64Add totSize i.length) acc < 2 ^ 64 := by
    induction files generalizing acc with
    | nil => exact hacc
    | cons f files ih => exact ih _ (Nat.mod_lt _ (by decide))
  unfold downloadBytes MetaInfo.downloadSize
  cases torrent.files with
  | none => decide
  | some files => exact hfold files 0 (by decide)

/-- The length of a piece. -/
def pieceBytes (torrent : MetaInfo) (p : ℕ) : ℕ := (torrent.getPieceLength p).getD 0

/-- The piece that a message persists. -/
def persistedBy (s : TorrentManagerActor) (e : TorrentManagerMessage × Env) : Option ℕ :=
  persisted s e.2 e.1

/-- The pieces that are persisted in a run of the manager. -/
def persistedIn (s : TorrentManagerActor) (es : List (TorrentManagerMessage × Env)) : List ℕ :=
  outputs managerStep persistedBy s es

variable {torrent : ClientTorrentMetaInfo} {options : PeerOptions}

/-- INTERNAL: the sizes that the manager's torrent is cut into: the pieces are not empty, and all of
them together fit `u64`.
SOURCE: torrent_meta.rs:98-124 -/
theorem pieceBytes_bounds {torrent : MetaInfo} {n : ℕ} (hn : torrent.getNumberOfPieces = some n) :
    n * torrent.info.pieceLength < 2 ^ 64 ∧ (downloadBytes torrent = 0 → n = 0) ∧
      ∀ p < n, 0 < pieceBytes torrent p ∧ pieceBytes torrent p ≤ torrent.info.pieceLength := by
  have hnumber := hn
  unfold MetaInfo.getNumberOfPieces at hn
  simp only [Option.bind_eq_bind, Option.bind_eq_some_iff, Option.ite_none_left_eq_some,
    Option.some.injEq] at hn
  obtain ⟨size, hsize, hpos, hcount⟩ := hn
  have hsum : u64Sub (u64Add size torrent.info.pieceLength) 1 < 2 ^ 64 := Nat.mod_lt _ (by decide)
  refine ⟨?_, ?_, ?_⟩
  · have hle := Nat.div_mul_le_self (u64Sub (u64Add size torrent.info.pieceLength) 1)
      torrent.info.pieceLength
    rw [hcount] at hle
    omega
  · intro hzero
    rw [downloadBytes, hsize, Option.getD_some] at hzero
    rw [← hcount]
    apply Nat.div_eq_of_lt
    unfold u64Sub u64Add at hsum ⊢
    omega
  · intro p hp
    -- what is left over is the length of the last piece
    have hlength : pieceBytes torrent p =
        if p = n - 1 ∧ size % torrent.info.pieceLength ≠ 0 then size % torrent.info.pieceLength
        else torrent.info.pieceLength := by
      unfold pieceBytes MetaInfo.getPieceLength
      rw [hnumber, hsize]
      simp only [Option.bind_eq_bind, Option.bind_some, if_neg (Nat.not_le.mpr hp)]
      by_cases hlast : p = n - 1
      · by_cases hrest : size % torrent.info.pieceLength = 0
        · simp [hlast, hrest]
        · simp [hlast, hrest]
      · simp [hlast]
    have hlt := Nat.mod_lt size (Nat.pos_of_ne_zero hpos)
    rw [hlength]
    split_ifs with hrest
    · omega
    · omega

/-- INTERNAL: the part of the statistics that no message changes.
SOURCE: torrent_manager.rs:266-271 -/
theorem stats_kept {s t : TorrentManagerActor} {e : TorrentManagerMessage × Env}
    {r : TorrentManagerReply} (h : managerStep s e = some (t, r)) :
    t.stats.left = s.stats.left ∧ t.stats.uploaded = s.stats.uploaded := by
  obtain ⟨msg, env⟩ := e
  cases msg with
  | pieceFinish q p =>
    obtain ⟨u, hu, heq⟩ := Option.map_eq_some_iff.mp h
    cases heq
    obtain ⟨v, manager, hv, rfl⟩ := pieceFinish_eq_some_iff.mp hu
    obtain ⟨-, ⟨-, rfl, rfl⟩ | ⟨-, rfl, rfl⟩⟩ := pieceFinishBegin_eq_some hv
    · exact ⟨rfl, rfl⟩
    · cases s.activePiecesManager.lookup p with
      | none => exact ⟨rfl, rfl⟩
      | some m => cases env.flushed <;> exact ⟨rfl, rfl⟩
  | _ => cases managerEffect h <;> exact ⟨rfl, rfl⟩

/-- What the statistics are after the pieces `persisted` were persisted. -/
structure StatsAfter (torrent : MetaInfo) (stats : TorrentStats) (persisted : List ℕ) : Prop where
  downloaded_eq : stats.downloaded = ((persisted.map (pieceBytes torrent)).sum : ℕ) / 1000000
  left_eq : stats.left = (downloadBytes torrent : ℚ) / 1000000
  uploaded_eq : stats.uploaded = 0

theorem sum_megabytes (torrent : MetaInfo) (pieces : List ℕ) :
    (pieces.map (megabytes torrent)).sum =
      ((pieces.map (pieceBytes torrent)).sum : ℕ) / 1000000 := by
  induction pieces with
  | nil => simp
  | cons p pieces ih =>
    simp only [List.map_cons, List.sum_cons, ih, Nat.cast_add, add_div]
    rfl

/-- INTERNAL: nothing is persisted at first.
SOURCE: torrent_manager.rs:41-53 -/
theorem statsAfter_new {s : TorrentManagerActor}
    (h : TorrentManagerActor.new torrent options = some s) :
    StatsAfter torrent.rawTorrent s.stats [] := by
  unfold TorrentManagerActor.new at h
  simp only [Option.bind_eq_bind, Option.bind_eq_some_iff, Option.some.injEq] at h
  obtain ⟨numOfP, -, totalSize, hsize, rfl⟩ := h
  exact ⟨by simp, by simp [downloadBytes, hsize], rfl⟩

/-- INTERNAL: the statistics at the end of a run.
SOURCE: torrent_manager.rs:49-53, torrent_manager.rs:263-276 -/
theorem statsAfter_of_run {s t : TorrentManagerActor}
    (hfirst : TorrentManagerActor.new torrent options = some s)
    {es : List (TorrentManagerMessage × Env)} (hrun : run managerStep s es = some t) :
    StatsAfter torrent.rawTorrent t.stats (persistedIn s es) := by
  obtain ⟨hzero, hleft, huploaded⟩ := statsAfter_new hfirst
  have hfold : t.stats.downloaded = (persistedIn s es).foldl
      (fun sum p => sum + megabytes torrent.rawTorrent p) s.stats.downloaded :=
    outputs_foldl persistedBy (fun s => s.stats.downloaded) _
      (ManagerInv torrent options) (fun _ _ _ _ hs hstep => managerInv_step hs hstep)
      (fun _ _ _ _ hs hstep => stats_downloaded_step hs hstep) (managerInv_new hfirst) hrun
  have hstep (u : TorrentManagerActor) (e : TorrentManagerMessage × Env) (v : TorrentManagerActor)
      (r : TorrentManagerReply)
      (hu : u.stats.left = s.stats.left ∧ u.stats.uploaded = s.stats.uploaded)
      (hstep : managerStep u e = some (v, r)) :
      v.stats.left = s.stats.left ∧ v.stats.uploaded = s.stats.uploaded := by
    have hkept := stats_kept hstep
    exact ⟨hkept.1.trans hu.1, hkept.2.trans hu.2⟩
  have hrest := run_invariant hstep ⟨rfl, rfl⟩ hrun
  refine ⟨?_, hrest.1.trans hleft, hrest.2.trans huploaded⟩
  rw [hfold, hzero, ← sum_megabytes, ← sum_megabytes, List.map_nil, List.sum_nil,
    List.sum_eq_foldl, List.foldl_map]

/-- INTERNAL: the pieces that are persisted in a run are different pieces of the torrent.
SOURCE: torrent_manager.rs:240-268 -/
theorem persistedIn_distinct {s t : TorrentManagerActor}
    (hfirst : TorrentManagerActor.new torrent options = some s)
    {es : List (TorrentManagerMessage × Env)} (hrun : run managerStep s es = some t) :
    (persistedIn s es).Nodup ∧ ∃ n, torrent.rawTorrent.getNumberOfPieces = some n ∧
      ∀ p ∈ persistedIn s es, p < n := by
  have hinv := managerInv_run hfirst hrun
  have hdistinct := outputs_nodup persistedBy Owned
    (fun _ _ _ _ _ hstep hp => sentToDisk_claims hstep (sentToDisk_of_persisted hp))
    (fun _ _ _ _ _ hstep hp => owned_of_step hstep hp) hrun
  refine ⟨hdistinct.1, _, hinv.number_eq, fun p hp => ?_⟩
  rw [← hinv.rarity.length_local]
  exact Bitfield.lt_length_of_getD (hdistinct.2 p hp).2

/-- INTERNAL: the length of different pieces fits `u64`; if there are any, it is not zero, and
neither is the size of the download. -/
theorem sum_persisted {pieces : List ℕ} {torrent : MetaInfo} {n : ℕ} (hnodup : pieces.Nodup)
    (hn : torrent.getNumberOfPieces = some n) (hlt : ∀ p ∈ pieces, p < n) :
    (pieces.map (pieceBytes torrent)).sum < 2 ^ 64 ∧
      (pieces ≠ [] → 0 < (pieces.map (pieceBytes torrent)).sum ∧ 0 < downloadBytes torrent) := by
  obtain ⟨hfits, hempty, hbounds⟩ := pieceBytes_bounds hn
  constructor
  · have hlength : pieces.length ≤ n := by
      have hsub : pieces ⊆ List.range n := fun p hp => List.mem_range.mpr (hlt p hp)
      simpa using (hnodup.subperm hsub).length_le
    have hsum := List.sum_le_card_nsmul (pieces.map (pieceBytes torrent)) torrent.info.pieceLength
      (by simpa using fun p hp => (hbounds p (hlt p hp)).2)
    have hmul := Nat.mul_le_mul_right torrent.info.pieceLength hlength
    simp at hsum
    omega
  · intro hsome
    cases pieces with
    | nil => exact absurd rfl hsome
    | cons p pieces =>
      have hp := hlt p List.mem_cons_self
      have hpos := (hbounds p hp).1
      have hsize : downloadBytes torrent ≠ 0 := fun hzero => by
        have := hempty hzero
        omega
      rw [List.map_cons, List.sum_cons]
      omega

/-- INTERNAL: in every state of a run the announces say how much was persisted, over HTTP and over
UDP alike, and that the whole download is left.
SOURCE: tracker.rs:25-33, tracker.rs:106-125, torrent_manager.rs:263-276 -/
theorem announced_numbers {s t : TorrentManagerActor}
    (hfirst : TorrentManagerActor.new torrent options = some s)
    {es : List (TorrentManagerMessage × Env)} (hrun : run managerStep s es = some t) :
    AnnouncesNumbers t.stats ((persistedIn s es).map (pieceBytes torrent.rawTorrent)).sum
      (downloadBytes torrent.rawTorrent) 0 := by
  obtain ⟨hdownloaded, hleft, huploaded⟩ := statsAfter_of_run hfirst hrun
  obtain ⟨hnodup, n, hn, hlt⟩ := persistedIn_distinct hfirst hrun
  rw [announcesNumbers_iff, hdownloaded, hleft, huploaded]
  refine ⟨inBytes_megabytes (sum_persisted hnodup hn hlt).1,
    inBytes_megabytes (downloadBytes_lt _), ?_⟩
  decide +kernel

/-- **When the announced progress adds up.** At the end of every run of the manager, whatever was
reported in whatever order and whichever flushes have failed, every announce says over HTTP and over
UDP alike that the length of the persisted pieces is downloaded and the rest of the download is
left, exactly when no piece has been persisted yet.
SOURCE: torrent_manager.rs:41-66, torrent_manager.rs:263-276, tracker.rs:25-33, tracker.rs:106-125 -/
theorem progress_announced_iff {s t : TorrentManagerActor}
    (hfirst : TorrentManagerActor.new torrent options = some s)
    {es : List (TorrentManagerMessage × Env)} (hrun : run managerStep s es = some t) :
    (∃ uploaded, AnnouncesNumbers t.stats
      ((persistedIn s es).map (pieceBytes torrent.rawTorrent)).sum
      (downloadBytes torrent.rawTorrent -
        ((persistedIn s es).map (pieceBytes torrent.rawTorrent)).sum) uploaded) ↔
      persistedIn s es = [] := by
  have hnumbers := announced_numbers hfirst hrun
  constructor
  · rintro ⟨uploaded, hannounced⟩
    obtain ⟨-, hleft, -⟩ := announcesNumbers_iff.mp hnumbers
    obtain ⟨-, hclaimed, -⟩ := announcesNumbers_iff.mp hannounced
    obtain ⟨hnodup, n, hn, hlt⟩ := persistedIn_distinct hfirst hrun
    by_contra hsome
    have hpos := (sum_persisted hnodup hn hlt).2 hsome
    omega
  · intro hnone
    rw [hnone] at hnumbers ⊢
    exact ⟨0, hnumbers⟩

/-- A peer registers with the only piece of the torrent, works on it and reports it twice. -/
def onePieceRun : List (TorrentManagerMessage × Env) :=
  [(.addPeer "a" [true], .quiet), (.requestWork "a", .quiet), (.pieceFinish "a" 0, .quiet),
    (.pieceFinish "a" 0, .quiet)]

/-- The manager after that. -/
def onePieceDone : TorrentManagerActor :=
  (run managerStep onePieceStart onePieceRun).get (by decide +kernel)

/-- Before the piece is finished, nothing is persisted. -/
theorem progress_announced_started :
    (∃ uploaded, AnnouncesNumbers
      ((run managerStep onePieceStart (onePieceRun.take 2)).get (by decide +kernel)).stats
      ((persistedIn onePieceStart (onePieceRun.take 2)).map
        (pieceBytes (byteTorrent 1 (List.replicate 20 0)).rawTorrent)).sum
      (downloadBytes (byteTorrent 1 (List.replicate 20 0)).rawTorrent -
        ((persistedIn onePieceStart (onePieceRun.take 2)).map
          (pieceBytes (byteTorrent 1 (List.replicate 20 0)).rawTorrent)).sum) uploaded) ↔
      persistedIn onePieceStart (onePieceRun.take 2) = [] :=
  progress_announced_iff new_onePieceStart (Option.some_get _).symm

/-- When the only byte of the torrent is persisted, the announces still say that it is left. -/
theorem left_not_updated :
    persistedIn onePieceStart onePieceRun = [0] ∧
      ¬ ∃ uploaded, AnnouncesNumbers onePieceDone.stats
        ((persistedIn onePieceStart onePieceRun).map
          (pieceBytes (byteTorrent 1 (List.replicate 20 0)).rawTorrent)).sum
        (downloadBytes (byteTorrent 1 (List.replicate 20 0)).rawTorrent -
          ((persistedIn onePieceStart onePieceRun).map
            (pieceBytes (byteTorrent 1 (List.replicate 20 0)).rawTorrent)).sum) uploaded := by
  have hpersisted : persistedIn onePieceStart onePieceRun = [0] := by decide +kernel
  refine ⟨hpersisted, ?_⟩
  rintro ⟨uploaded, hannounced⟩
  obtain ⟨-, hleft, -⟩ := announcesNumbers_iff.mp hannounced
  rw [hpersisted] at hleft
  revert hleft
  decide +kernel

end Fissure.Analysis
