import Fissure.Analysis.DiskSuccess
import Fissure.Analysis.VerifiedPersistence
import Fissure.Interface.Download
import Fissure.Library.Refinement

/-!
# The system is a download

The bytes on disk of the pieces in the log are a download in the sense of the interface
(`keptPieces`), and every run of the system that is `Unharmed`, of a torrent whose files are
different ones, is a run of that download: the end of a `PieceFinish` whose flush succeeded adds one
verified piece and no other step changes anything (`download_refines`). So what is persisted stays
on disk as it is and hashes to its digest, in every later state (`persisted_pieces_stay`), and a
read through the manager returns it as long as the disk actor runs (`read_of_persisted`).
-/

set_option autoImplicit false

namespace Fissure.Analysis

open Fissure.Library Fissure.Model Fissure.Interface
open Fissure.Model.TorrentSystem Fissure.Model.DiskManagerActor

/-! ## The download that the system keeps -/

/-- The bytes are those of piece `p` as far as its digest tells. -/
def Verified (sha1 : Bytes → Bytes) (m : MetaInfo) (p : ℕ) (data : Bytes) : Prop :=
  p < m.pieceCount ∧ data.length = m.pieceLen p ∧ m.getPieceHash p = some (sha1 data)

instance (sha1 : Bytes → Bytes) (m : MetaInfo) (p : ℕ) (data : Bytes) :
    Decidable (Verified sha1 m p data) :=
  inferInstanceAs (Decidable (_ ∧ _))

/-- The bytes on disk in the range of piece `p`. -/
def onDiskAt (m : MetaInfo) (disk : DiskManagerActor) (p : ℕ) : Option Bytes :=
  bytesAt (stream disk) (p * m.info.pieceLength) (m.pieceLen p)

/-- The download that the system keeps: the bytes on disk of the pieces in the log. -/
def keptPieces (m : MetaInfo) (s : TorrentSystem) : Download := fun p =>
  if p ∈ s.manager.downloadedPieceIndex then onDiskAt m s.disk p else none

/-- The piece that an event persists, with its bytes. -/
def persistsPiece (m : MetaInfo) (s : TorrentSystem) : SystemEvent → Option (ℕ × Bytes)
  | .pieceFinishEnd =>
    match s.finishing with
    | some ⟨p, _, some true⟩ => (onDiskAt m s.disk p).map fun data => (p, data)
    | _ => none
  | _ => none

/-- Piece `p` is verified and on disk. -/
def Kept (sha1 : Bytes → Bytes) (m : MetaInfo) (disk : DiskManagerActor) (p : ℕ) : Prop :=
  ∃ data, Verified sha1 m p data ∧ Carries (stream disk) (p * m.info.pieceLength) data

/-- The pieces in the log are owned and on disk, and the piece that is being finished is owned and
not in the log yet. -/
structure DownloadInv (sha1 : Bytes → Bytes) (torrent : ClientTorrentMetaInfo)
    (options : PeerOptions) (s : TorrentSystem) : Prop where
  system : SystemInv sha1 torrent options s
  owned : ∀ p ∈ s.manager.downloadedPieceIndex, Owned s.manager p
  kept : ∀ p ∈ s.manager.downloadedPieceIndex, Kept sha1 torrent.rawTorrent s.disk p
  claimed : ∀ f, s.finishing = some f →
    Owned s.manager f.index ∧ f.index ∉ s.manager.downloadedPieceIndex

theorem onDiskAt_of_carries {m : MetaInfo} {disk : DiskManagerActor} {p : ℕ} {data : Bytes}
    (hlen : data.length = m.pieceLen p)
    (h : Carries (stream disk) (p * m.info.pieceLength) data) :
    onDiskAt m disk p = some data := by
  unfold onDiskAt
  rw [← hlen]
  exact bytesAt_of_carries h

section

variable {sha1 : Bytes → Bytes} {torrent : ClientTorrentMetaInfo} {options : PeerOptions}
  {s t : TorrentSystem} {m : MetaInfo}

/-! ## What a step does to the flush and the files -/

/-- The files after a round of a flush that is not its last, or that fails. -/
def RoundLeaves (disk : DiskManagerActor) (job : FlushJob) (getData : ℕ → ℕ → Bytes)
    (disk' : DiskManagerActor) : Prop :=
  ∃ io next, disk.flushRound job getData io = .next (disk', next) ∨
    disk.flushRound job getData io = .failed (disk', next)

/-- What a step does as far as the log, the files and the flush in progress go. -/
inductive FlushMove (s t : TorrentSystem) (e : SystemEvent) : Prop
  | keeps (he : e ≠ .pieceFinishEnd)
      (hlocal : t.manager.localBitfield = s.manager.localBitfield)
      (hlog : t.manager.downloadedPieceIndex = s.manager.downloadedPieceIndex)
      (hdisk : t.disk = s.disk) (hended : s.diskEnded = true → t.diskEnded = true)
      (hfinishing : t.finishing = s.finishing)
  | begins (he : e ≠ .pieceFinishEnd) (p : ℕ) (last : Option PieceRequestManager)
      (hidle : s.finishing = none) (hp : p ∈ announced s)
      (h : s.manager.pieceFinishBegin p = some (t.manager, last)) (hdisk : t.disk = s.disk)
      (hended : t.diskEnded = s.diskEnded)
      (hfinishing : t.finishing = last.map fun mgr => ⟨p, .begin mgr, none⟩)
  | flushes (he : e ≠ .pieceFinishEnd) (p : ℕ) (job job' : FlushJob) (result : Option Bool)
      (hf : s.finishing = some ⟨p, job, none⟩) (hmanager : t.manager = s.manager)
      (hdisk : t.disk = s.disk ∨ s.diskEnded = false ∧
        RoundLeaves s.disk job (s.getDataWithOffset job.pieceManager) t.disk)
      (hended : s.diskEnded = true → t.diskEnded = true)
      (hfinishing : t.finishing = some ⟨p, job', result⟩)
  | ends (he : e = .pieceFinishEnd) (p : ℕ) (job : FlushJob) (flushResult : Bool)
      (hf : s.finishing = some ⟨p, job, some flushResult⟩) (hdisk : t.disk = s.disk)
      (hended : t.diskEnded = s.diskEnded)
      (hmanager : t.manager =
        s.manager.pieceFinishEnd p job.pieceManager.pieceLength flushResult)
      (hfinishing : t.finishing = none)

theorem FlushMove.ended {e : SystemEvent} (h : FlushMove s t e) (hs : s.diskEnded = true) :
    t.diskEnded = true := by
  cases h with
  | keeps _ _ _ _ hended _ => exact hended hs
  | begins _ _ _ _ _ _ _ hended _ => rw [hended, hs]
  | flushes _ _ _ _ _ _ _ _ hended _ => exact hended hs
  | ends _ _ _ _ _ _ hended _ _ => rw [hended, hs]

/-- INTERNAL: a step of the system moves the log, the files and the flush in one of these ways. -/
theorem flushMove_of_systemStep {e : SystemEvent} {r : Unit}
    (h : systemStep sha1 s e = some (t, r)) : FlushMove s t e := by
  have hhandle (he : e ≠ .pieceFinishEnd) {u : TorrentSystem} {msg : TorrentManagerMessage}
      {env : Env} {reply : TorrentManagerReply} (hmsg : finishes msg = none)
      (hu : s.handle msg env = some (u, reply)) (hmanager : t.manager = u.manager)
      (hdisk : t.disk = u.disk) (hended : u.diskEnded = true → t.diskEnded = true)
      (hfinishing : t.finishing = u.finishing) : FlushMove s t e := by
    obtain ⟨-, manager, hstep, rfl⟩ := handle_eq_some hu
    obtain ⟨hlocal, hlog⟩ := owned_log_of_not_pieceFinish hstep hmsg
    exact .keeps he (by rw [hmanager]; exact hlocal) (by rw [hmanager]; exact hlog) hdisk hended
      hfinishing
  obtain ⟨t', ht, heq⟩ := Option.map_eq_some_iff.mp h
  cases heq
  cases e with
  | connect peerId env =>
    obtain ⟨u, reply, hu, rfl⟩ := connect_eq_some ht
    exact hhandle (by simp) rfl hu rfl rfl id rfl
  | recv msg env =>
    obtain ⟨hmsg, reply, hu⟩ := recv_eq_some ht
    exact hhandle (by simp) hmsg hu rfl rfl id rfl
  | getDataWithLength pieceIndex offset length io env =>
    obtain ⟨env', u, reply, ended, hu, hended, rfl⟩ := getDataWithLength_event_eq_some ht
    exact hhandle (by simp) rfl hu rfl rfl hended rfl
  | requestPiece c env =>
    obtain ⟨conn, u, reply, -, -, hu, ⟨req, -, rfl⟩ | rfl⟩ := requestPiece_eq_some ht
    · exact hhandle (by simp) rfl hu rfl rfl id rfl
    · exact hhandle (by simp) rfl hu rfl rfl id rfl
  | insertRequest c =>
    obtain ⟨conn, req, -, -, rfl⟩ := insertRequest_eq_some ht
    exact .keeps (by simp) rfl rfl rfl id rfl
  | countActive c env =>
    obtain ⟨conn, u, reply, -, -, hu, ⟨work, -, rfl⟩ | rfl⟩ := countActive_eq_some ht
    · exact hhandle (by simp) rfl hu rfl rfl id rfl
    · exact hhandle (by simp) rfl hu rfl rfl id rfl
  | prune c =>
    obtain ⟨conn, stillActive, -, -, rfl⟩ := prune_eq_some ht
    exact .keeps (by simp) rfl rfl rfl id rfl
  | piece c p blockOffset data =>
    obtain ⟨conn, -, -, ⟨mgr, -, rfl⟩ | ⟨-, rfl⟩⟩ := piece_eq_some ht
    · exact .keeps (by simp) rfl rfl rfl id rfl
    · exact .keeps (by simp) rfl rfl rfl id rfl
  | getPieceManager c env =>
    obtain ⟨conn, p, blockOffset, data, u, reply, -, -, hu, ⟨mgr, -, rfl⟩ | ⟨-, rfl⟩⟩ :=
      getPieceManager_eq_some ht
    · exact hhandle (by simp) rfl hu rfl rfl id rfl
    · exact hhandle (by simp) rfl hu rfl rfl id rfl
  | blockRecived c =>
    obtain ⟨conn, mgr, p, blockOffset, data, tracked, -, -, ⟨a, slot, reader, -, -, rfl⟩ |
      ⟨-, rfl⟩⟩ := blockRecived_event_eq_some ht
    · exact .keeps (by simp) rfl rfl rfl id rfl
    · exact .keeps (by simp) rfl rfl rfl id rfl
  | pieceFinish c =>
    obtain ⟨conn, p, tracked, -, -, rfl⟩ := pieceFinish_event_eq_some ht
    exact .keeps (by simp) rfl rfl rfl id rfl
  | removeRequest c =>
    obtain ⟨conn, p, -, -, rfl⟩ := removeRequest_eq_some ht
    exact .keeps (by simp) rfl rfl rfl id rfl
  | pieceActor send e =>
    obtain ⟨-, a, b, r, -, -, rfl⟩ := pieceEvent_eq_some ht
    exact .keeps (by simp) rfl rfl rfl id rfl
  | pieceFinishBegin k =>
    obtain ⟨hidle, q, p, manager, last, hk, hbegin, rfl⟩ := pieceFinishBegin_event_eq_some ht
    have hp : p ∈ announced s :=
      List.mem_append_right _ (List.mem_map.mpr ⟨_, List.mem_of_getElem? hk, rfl⟩)
    exact .begins (by simp) p last hidle hp hbegin rfl rfl rfl
  | flushRound io =>
    obtain ⟨p, job, hf, ⟨-, rfl⟩ | ⟨hruns, ⟨disk, next, hround, rfl⟩ | ⟨r, -, rfl⟩ |
      ⟨disk, next, hround, rfl⟩⟩⟩ := flushRound_event_eq_some ht
    · exact .flushes (by simp) p job job _ hf rfl (Or.inl rfl) id rfl
    · exact .flushes (by simp) p job next _ hf rfl
        (Or.inr ⟨hruns, io, next, Or.inl hround⟩) id rfl
    · exact .flushes (by simp) p job job _ hf rfl (Or.inl rfl) id rfl
    · exact .flushes (by simp) p job next _ hf rfl
        (Or.inr ⟨hruns, io, next, Or.inr hround⟩) (fun _ => rfl) rfl
  | pieceFinishEnd =>
    obtain ⟨p, job, flushResult, hf, rfl⟩ := pieceFinishEnd_event_eq_some ht
    exact .ends rfl p job flushResult hf rfl rfl rfl rfl

/-- INTERNAL: a disk actor that runs ran before. -/
theorem ran_of_systemStep {e : SystemEvent} {r : Unit} (h : systemStep sha1 s e = some (t, r))
    (hruns : t.diskEnded = false) : s.diskEnded = false := by
  by_contra hended
  rw [(flushMove_of_systemStep h).ended (eq_true_of_ne_false hended)] at hruns
  cases hruns

/-- INTERNAL: a round of a flush changes nothing outside its piece, however its write ends.
SOURCE: disk_manager.rs:66-109 -/
theorem RoundLeaves.keeps {disk disk' : DiskManagerActor} {job : FlushJob}
    {getData : ℕ → ℕ → Bytes} (hjob : Running disk job) (hanswers : AnswersAtMost getData)
    (h : RoundLeaves disk job getData disk') :
    SameTable disk' disk ∧
      (Separate (segments disk) →
        KeepsOutside 0 (stream disk') (stream disk) (jobStart disk job) (jobStop disk job)) ∧
      (Distinct (segments disk) → Fits disk.disk (segments disk) →
        Fits disk'.disk (segments disk)) := by
  obtain ⟨io, next, h⟩ := h
  by_cases hdone : disk.flushSpanOf job = .done
  · simp only [flushRound_done hdone] at h
    rcases h with h | h
    · cases h
    · cases h
  rcases flushSpanOf_cases (flushSpanOf_ne_done hdone) hjob with ⟨hspan, -⟩ | ⟨hspan, -⟩ |
    ⟨offset, count, hspan, hslice, ⟨-, hcursor⟩, hwrites⟩
  · exact absurd hspan hdone
  · simp only [flushRound_skip hspan] at h
    rcases h with h | h
    · cases h
      exact ⟨.refl disk, fun _ => .refl 0 _ _ _, fun _ => id⟩
    · cases h
  · have hbounds := jobCursor_bounds disk job
    have hbounds' := jobCursor_bounds disk (job.advance count)
    rw [hcursor] at hbounds'
    change _ ∧ _ ≤ jobStop disk job at hbounds'
    have hanswer := (length_writtenOf_le io _).trans
      (hanswers (sliceOf job count).1 (sliceOf job count).2)
    simp only [flushRound_part hspan] at h
    generalize writtenOf io (getData (sliceOf job count).1 (sliceOf job count).2) = data at *
    rw [hslice] at hanswer
    obtain ⟨hover, hfits⟩ := hwrites data (by omega)
    have hdisk' : disk' = disk.writeFile job.idx offset data := by
      split_ifs at h
      · rcases h with h | h
        · cases h
        · cases h
          rfl
      · rcases h with h | h
        · cases h
          rfl
        · cases h
    rw [hdisk']
    exact ⟨⟨rfl, rfl, rfl⟩, fun hseparate => (hover hseparate).outside.mono hbounds.1 (by omega),
      hfits⟩

theorem atMost_getDataWithOffset (s : TorrentSystem) (mgr : PieceRequestManager) :
    AnswersAtMost (s.getDataWithOffset mgr) := by
  apply FromPieceActor.atMost
  unfold FromPieceActor getDataWithOffset
  cases s.pieceActor mgr.send with
  | some a => exact Or.inr ⟨a, rfl⟩
  | none => exact Or.inl rfl

/-- INTERNAL: a round of the flush of piece `p` changes nothing outside the range of `p`.
SOURCE: disk_manager.rs:62-112 -/
theorem SystemInv.roundLeaves_keeps (hmeta : torrent.rawTorrent.WellSized)
    (hs : SystemInv sha1 torrent options s) {p : ℕ} {job : FlushJob} {disk : DiskManagerActor}
    (hruns : s.diskEnded = false) (hf : s.finishing = some ⟨p, job, none⟩)
    (h : RoundLeaves s.disk job (s.getDataWithOffset job.pieceManager) disk) :
    SameTable disk s.disk ∧
      KeepsOutside 0 (stream disk) (stream s.disk) (p * torrent.rawTorrent.info.pieceLength)
        (p * torrent.rawTorrent.info.pieceLength + torrent.rawTorrent.pieceLen p) ∧
      (Distinct (segments s.disk) → Fits s.disk.disk (segments s.disk) →
        Fits disk.disk (segments s.disk)) := by
  have hdisk := hs.disk hruns
  obtain ⟨hmanages, hlt, hrunning, -⟩ := hs.finishing _ hf hruns
  dsimp only at hmanages hlt hrunning
  have hlength := hmanages.pieceLength_eq
  rw [MetaInfo.getPieceLength_eq hmeta hlt, Option.some.injEq] at hlength
  obtain ⟨hsame, houtside, hfits⟩ :=
    h.keeps hrunning (atMost_getDataWithOffset s job.pieceManager)
  have hkeeps := houtside hdisk.separate
  unfold jobStop jobStart at hkeeps
  rw [hmanages.index_eq, hdisk.stdPieceLen_eq, ← hlength] at hkeeps
  exact ⟨hsame, hkeeps, hfits⟩

/-! ## The invariant -/

theorem Kept.keepsOutside {disk disk' : DiskManagerActor} {p q : ℕ} (h : Kept sha1 m disk p)
    (hpq : p ≠ q)
    (hkeeps : KeepsOutside 0 (stream disk') (stream disk) (q * m.info.pieceLength)
      (q * m.info.pieceLength + m.pieceLen q)) : Kept sha1 m disk' p := by
  obtain ⟨data, hverified, hcarries⟩ := h
  refine ⟨data, hverified, hcarries.keepsOutside hkeeps ?_⟩
  rw [hverified.2.1]
  exact pieces_disjoint m hpq

/-- INTERNAL: when a flush is done its piece is verified and on disk. -/
theorem Flushing.kept (hmeta : m.WellSized) {disk : DiskManagerActor} (hdisk : DiskOf m disk)
    {actor : Option PieceRequestManagerActor} {p : ℕ} {job : FlushJob} {flushResult : Bool}
    (h : Flushing sha1 m disk actor ⟨p, job, some flushResult⟩) : Kept sha1 m disk p := by
  obtain ⟨hmanages, hlt, -, -, data, hlen, hsha, hcarries, -, hdone⟩ := h
  dsimp only at hmanages hlt hlen hsha hcarries hdone
  have hlength := hmanages.pieceLength_eq
  rw [MetaInfo.getPieceLength_eq hmeta hlt, Option.some.injEq, ← hlen] at hlength
  have hstart : jobStart disk job = p * m.info.pieceLength := by
    unfold jobStart
    rw [hmanages.index_eq, hdisk.stdPieceLen_eq]
  rw [hdone rfl, ← hlen, List.take_length, hstart] at hcarries
  refine ⟨data, ⟨hlt, hlength.symm, ?_⟩, hcarries⟩
  rw [hsha]
  exact hmanages.sha1Hash_eq

/-- INTERNAL: the log after the end of a `PieceFinish` whose flush succeeded. The index is kept as
`u32`.
SOURCE: torrent_manager.rs:268-271 -/
theorem log_pieceFinishEnd (hcount : m.pieceCount ≤ 2 ^ 32) {actor : TorrentManagerActor} {p : ℕ}
    (hp : p < m.pieceCount) (pieceLength : ℕ) :
    (actor.pieceFinishEnd p pieceLength true).downloadedPieceIndex =
      actor.downloadedPieceIndex ++ [p] := by
  change actor.downloadedPieceIndex ++ [p % 2 ^ 32] = _
  rw [Nat.mod_eq_of_lt (by omega)]

/-- INTERNAL: at the end of a `PieceFinish` nothing is logged but a piece that is verified and on
disk.
SOURCE: torrent_manager.rs:264-276 -/
theorem DownloadInv.logged (hmeta : torrent.rawTorrent.WellSized)
    (hcount : torrent.rawTorrent.pieceCount ≤ 2 ^ 32) (hs : DownloadInv sha1 torrent options s)
    {p : ℕ} {job : FlushJob} {flushResult : Bool}
    (hf : s.finishing = some ⟨p, job, some flushResult⟩) (pieceLength : ℕ) :
    ∀ q ∈ (s.manager.pieceFinishEnd p pieceLength flushResult).downloadedPieceIndex,
      q ∈ s.manager.downloadedPieceIndex ∨ q = p ∧ Kept sha1 torrent.rawTorrent s.disk p := by
  cases flushResult with
  | false => exact fun q hq => Or.inl hq
  | true =>
    have hruns : s.diskEnded = false := hs.system.answered _ true hf rfl
    have hflushing := hs.system.finishing _ hf hruns
    rw [log_pieceFinishEnd hcount hflushing.lt]
    intro q hq
    rcases List.mem_append.mp hq with hold | hlast
    · exact Or.inl hold
    · exact Or.inr ⟨List.mem_singleton.mp hlast, hflushing.kept hmeta (hs.system.disk hruns)⟩

/-- INTERNAL: every step keeps the invariant of the download.
SOURCE: torrent_manager.rs:238-280, disk_manager.rs:62-112 -/
theorem downloadInv_step (hmeta : torrent.rawTorrent.WellSized)
    (hcount : torrent.rawTorrent.pieceCount ≤ 2 ^ 32) {e : SystemEvent} {r : Unit}
    (hs : DownloadInv sha1 torrent options s) (hcalm : Unharmed s e)
    (h : systemStep sha1 s e = some (t, r)) : DownloadInv sha1 torrent options t := by
  have hsystem := systemInv_step hmeta hs.system hcalm h
  cases flushMove_of_systemStep h with
  | keeps he hlocal hlog hdisk hended hfinishing =>
    refine ⟨hsystem, ?_, ?_, ?_⟩
    · unfold Owned
      rw [hlog, hlocal]
      exact hs.owned
    · rw [hlog, hdisk]
      exact hs.kept
    · unfold Owned
      rw [hlog, hlocal, hfinishing]
      exact hs.claimed
  | begins he p last hidle hp hbegin hdisk hended hfinishing =>
    obtain ⟨hown, howned, -⟩ := pieceFinishBegin_owned hbegin
    have hlog := (log_pieceFinishBegin hbegin).1
    refine ⟨hsystem, ?_, ?_, ?_⟩
    · rw [hlog]
      exact fun q hq => howned q (hs.owned q hq)
    · rw [hlog, hdisk]
      exact hs.kept
    · intro f hf
      rw [hfinishing] at hf
      obtain ⟨mgr, hmgr, rfl⟩ := Option.map_eq_some_iff.mp hf
      obtain ⟨-, ⟨-, -, hnone⟩ | ⟨hnot, -⟩⟩ := pieceFinishBegin_eq_some hbegin
      · rw [hnone] at hmgr
        cases hmgr
      · rw [hlog]
        exact ⟨hown, fun hmem => hnot (hs.owned p hmem)⟩
  | flushes he p job job' result hf hmanager hdisk hended hfinishing =>
    obtain ⟨hown, hnew⟩ := hs.claimed _ hf
    refine ⟨hsystem, ?_, ?_, ?_⟩
    · rw [hmanager]
      exact hs.owned
    · rw [hmanager]
      intro q hq
      rcases hdisk with hdisk | ⟨hruns, hround⟩
      · rw [hdisk]
        exact hs.kept q hq
      · have hqp : q ≠ p := fun heq => hnew (heq ▸ hq)
        obtain ⟨-, houtside, -⟩ := hs.system.roundLeaves_keeps hmeta hruns hf hround
        exact (hs.kept q hq).keepsOutside hqp houtside
    · intro f hf'
      rw [hfinishing, Option.some.injEq] at hf'
      subst hf'
      rw [hmanager]
      exact ⟨hown, hnew⟩
  | ends he p job flushResult hf hdisk hended hmanager hfinishing =>
    obtain ⟨hown, hnew⟩ := hs.claimed _ hf
    have hlocal : t.manager.localBitfield = s.manager.localBitfield := by
      rw [hmanager]
      cases flushResult with
      | false => rfl
      | true => rfl
    have hlog := hs.logged hmeta hcount hf job.pieceManager.pieceLength
    rw [← hmanager] at hlog
    refine ⟨hsystem, ?_, ?_, ?_⟩
    · unfold Owned
      rw [hlocal]
      intro q hq
      rcases hlog q hq with hold | ⟨rfl, -⟩
      · exact hs.owned q hold
      · exact hown
    · rw [hdisk]
      intro q hq
      rcases hlog q hq with hold | ⟨rfl, hkept⟩
      · exact hs.kept q hold
      · exact hkept
    · intro f hf'
      rw [hfinishing] at hf'
      cases hf'

theorem log_new {manager : TorrentManagerActor}
    (h : TorrentManagerActor.new torrent options = some manager) :
    manager.downloadedPieceIndex = [] := by
  unfold TorrentManagerActor.new at h
  simp only [Option.bind_eq_bind, Option.bind_eq_some_iff, Option.some.injEq] at h
  obtain ⟨n, -, size, -, rfl⟩ := h
  rfl

theorem downloadInv_new {fileSystem : FileSystem} {downloadPath : PathBuf}
    (hfiles : torrent.rawTorrent.localFiles = some torrent.files)
    (hseparate : Separate (entries fileSystem downloadPath torrent.files))
    (h : TorrentSystem.new torrent options fileSystem downloadPath = some s) :
    DownloadInv sha1 torrent options s := by
  have hsystem : SystemInv sha1 torrent options s := systemInv_new hfiles hseparate h
  obtain ⟨manager, disk, diskEnded, hmanager, -, rfl⟩ := system_new_eq_some h
  have hlog := log_new hmanager
  refine ⟨hsystem, ?_, ?_, ?_⟩
  · rw [hlog]
    simp
  · rw [hlog]
    simp
  · intro f hf
    cases hf

/-! ## Refinement -/

/-- INTERNAL: at the start nothing is in the log. -/
theorem keptPieces_new {fileSystem : FileSystem} {downloadPath : PathBuf}
    (h : TorrentSystem.new torrent options fileSystem downloadPath = some s) :
    keptPieces torrent.rawTorrent s = Download.nothing := by
  obtain ⟨manager, disk, diskEnded, hmanager, -, rfl⟩ := system_new_eq_some h
  funext p
  unfold keptPieces
  rw [log_new hmanager]
  rfl

theorem keptPieces_eq_some (hs : DownloadInv sha1 torrent options s) {p : ℕ}
    (hp : p ∈ s.manager.downloadedPieceIndex) :
    ∃ data, keptPieces torrent.rawTorrent s p = some data := by
  obtain ⟨data, hverified, hcarries⟩ := hs.kept p hp
  refine ⟨data, ?_⟩
  unfold keptPieces
  rw [if_pos hp]
  exact onDiskAt_of_carries hverified.2.1 hcarries

/-- INTERNAL: a step that leaves the log alone and keeps what is on disk of its pieces leaves the
download alone. -/
theorem keptPieces_congr (hs : DownloadInv sha1 torrent options s)
    (hlog : t.manager.downloadedPieceIndex = s.manager.downloadedPieceIndex)
    (hdisk : ∀ p ∈ s.manager.downloadedPieceIndex, ∀ data : Bytes,
      data.length = torrent.rawTorrent.pieceLen p →
      Carries (stream s.disk) (p * torrent.rawTorrent.info.pieceLength) data →
      Carries (stream t.disk) (p * torrent.rawTorrent.info.pieceLength) data) :
    keptPieces torrent.rawTorrent t = keptPieces torrent.rawTorrent s := by
  funext p
  unfold keptPieces
  rw [hlog]
  split_ifs with hp
  · obtain ⟨data, hverified, hcarries⟩ := hs.kept p hp
    rw [onDiskAt_of_carries hverified.2.1 hcarries,
      onDiskAt_of_carries hverified.2.1 (hdisk p hp data hverified.2.1 hcarries)]
  · rfl

theorem persistsPiece_eq_none (s : TorrentSystem) {e : SystemEvent} (he : e ≠ .pieceFinishEnd) :
    persistsPiece m s e = none := by
  cases e with
  | pieceFinishEnd => exact absurd rfl he
  | _ => rfl

/-- INTERNAL: a step adds the piece that it persists to the download, or leaves the download alone.
SOURCE: torrent_manager.rs:238-280, disk_manager.rs:62-112 -/
theorem download_refinesStep (hmeta : torrent.rawTorrent.WellSized)
    (hcount : torrent.rawTorrent.pieceCount ≤ 2 ^ 32) {e : SystemEvent} {r : Unit}
    (hs : DownloadInv sha1 torrent options s) (h : systemStep sha1 s e = some (t, r)) :
    RefinesStep (downloadStep (Verified sha1 torrent.rawTorrent)) (keptPieces torrent.rawTorrent)
      (persistsPiece torrent.rawTorrent) s e t := by
  have hsame (he : e ≠ .pieceFinishEnd)
      (hkept : keptPieces torrent.rawTorrent t = keptPieces torrent.rawTorrent s) :
      RefinesStep (downloadStep (Verified sha1 torrent.rawTorrent))
        (keptPieces torrent.rawTorrent) (persistsPiece torrent.rawTorrent) s e t := by
    unfold RefinesStep
    rw [persistsPiece_eq_none s he]
    exact hkept
  cases flushMove_of_systemStep h with
  | keeps he hlocal hlog hdisk hended hfinishing =>
    exact hsame he (keptPieces_congr hs hlog (by rw [hdisk]; exact fun _ _ _ _ h => h))
  | begins he p last hidle hp hbegin hdisk hended hfinishing =>
    exact hsame he (keptPieces_congr hs (log_pieceFinishBegin hbegin).1
      (by rw [hdisk]; exact fun _ _ _ _ h => h))
  | flushes he p job job' result hf hmanager hdisk hended hfinishing =>
    refine hsame he (keptPieces_congr hs (by rw [hmanager]) ?_)
    intro q hq data hlen hcarries
    rcases hdisk with hdisk | ⟨hruns, hround⟩
    · rw [hdisk]
      exact hcarries
    · have hqp : q ≠ p := fun heq => (hs.claimed _ hf).2 (heq ▸ hq)
      obtain ⟨-, houtside, -⟩ := hs.system.roundLeaves_keeps hmeta hruns hf hround
      refine hcarries.keepsOutside houtside ?_
      rw [hlen]
      exact pieces_disjoint torrent.rawTorrent hqp
  | ends he p job flushResult hf hdisk hended hmanager hfinishing =>
    subst he
    cases flushResult with
    | false =>
      have hout : persistsPiece torrent.rawTorrent s .pieceFinishEnd = none := by
        unfold persistsPiece
        rw [hf]
      unfold RefinesStep
      rw [hout]
      refine keptPieces_congr hs ?_ (by rw [hdisk]; exact fun _ _ _ _ h => h)
      rw [hmanager]
      rfl
    | true =>
      have hruns : s.diskEnded = false := hs.system.answered _ true hf rfl
      have hflushing := hs.system.finishing _ hf hruns
      obtain ⟨data, hverified, hcarries⟩ := hflushing.kept hmeta (hs.system.disk hruns)
      have hbytes := onDiskAt_of_carries hverified.2.1 hcarries
      have hout : persistsPiece torrent.rawTorrent s .pieceFinishEnd = some (p, data) := by
        unfold persistsPiece
        rw [hf]
        dsimp only
        rw [hbytes]
        rfl
      unfold RefinesStep
      rw [hout]
      refine ⟨(), writeOnce_eq_some_iff.mpr ⟨?_, hverified, ?_⟩⟩
      · exact if_neg (hs.claimed _ hf).2
      · funext q
        have hlog : t.manager.downloadedPieceIndex = s.manager.downloadedPieceIndex ++ [p] := by
          rw [hmanager, log_pieceFinishEnd hcount hflushing.lt]
        unfold keptPieces
        rw [hlog, hdisk]
        by_cases hqp : q = p
        · subst hqp
          simp [hbytes]
        · simp [hqp]

/-! ## Runs -/

theorem downloadInv_run (hmeta : torrent.rawTorrent.WellSized)
    (hcount : torrent.rawTorrent.pieceCount ≤ 2 ^ 32) {es : List SystemEvent}
    (hs : DownloadInv sha1 torrent options s)
    (hes : AllSteps (systemStep sha1) Unharmed s es)
    (ht : run (systemStep sha1) s es = some t) : DownloadInv sha1 torrent options t :=
  (allStates_of_invariant (DownloadInv sha1 torrent options)
    (fun _ _ _ _ hs hcalm h => downloadInv_step hmeta hcount hs hcalm h)
    (fun _ hs => hs) hs hes).last ht

theorem download_refines_run (hmeta : torrent.rawTorrent.WellSized)
    (hcount : torrent.rawTorrent.pieceCount ≤ 2 ^ 32) {es : List SystemEvent}
    (hs : DownloadInv sha1 torrent options s)
    (hes : AllSteps (systemStep sha1) Unharmed s es)
    (ht : run (systemStep sha1) s es = some t) :
    run (downloadStep (Verified sha1 torrent.rawTorrent)) (keptPieces torrent.rawTorrent s)
        (outputs (systemStep sha1) (persistsPiece torrent.rawTorrent) s es) =
      some (keptPieces torrent.rawTorrent t) :=
  run_outputs_of_refines (DownloadInv sha1 torrent options) (keptPieces torrent.rawTorrent)
    (persistsPiece torrent.rawTorrent)
    (fun _ _ _ _ hs hcalm h => downloadInv_step hmeta hcount hs hcalm h)
    (fun _ _ _ _ hs _ h => download_refinesStep hmeta hcount hs h) hs hes ht

variable {fileSystem : FileSystem} {downloadPath : PathBuf} {start : TorrentSystem}
  {xs ys : List SystemEvent}

/-- **The system is a download.** When no two entries of the list of files lead to one file: every run
in which no block changes what is still to be flushed of a verified buffer and no write fails
without being reported is, on what it persists, a run of a store that takes each piece once, with
bytes that hash to the digest of the piece; and what the store holds are the bytes on disk of the
pieces in the log.
SOURCE: torrent_manager.rs:238-280, disk_manager.rs:59-112, piece_manager.rs:98-136 -/
theorem download_refines (hmeta : torrent.rawTorrent.WellSized)
    (hcount : torrent.rawTorrent.pieceCount ≤ 2 ^ 32)
    (hfiles : torrent.rawTorrent.localFiles = some torrent.files)
    (hseparate : Separate (entries fileSystem downloadPath torrent.files))
    (hstart : TorrentSystem.new torrent options fileSystem downloadPath = some start)
    (hes : AllSteps (systemStep sha1) Unharmed start xs)
    (hs : run (systemStep sha1) start xs = some s) :
    run (downloadStep (Verified sha1 torrent.rawTorrent)) Download.nothing
        (outputs (systemStep sha1) (persistsPiece torrent.rawTorrent) start xs) =
      some (keptPieces torrent.rawTorrent s) := by
  have hinv : DownloadInv sha1 torrent options start := downloadInv_new hfiles hseparate hstart
  rw [← keptPieces_new hstart]
  exact download_refines_run hmeta hcount hinv hes hs

/-- INTERNAL: what the download holds is verified, since it was when it was added. -/
theorem keptPieces_verified (hmeta : torrent.rawTorrent.WellSized)
    (hcount : torrent.rawTorrent.pieceCount ≤ 2 ^ 32)
    (hfiles : torrent.rawTorrent.localFiles = some torrent.files)
    (hseparate : Separate (entries fileSystem downloadPath torrent.files))
    (hstart : TorrentSystem.new torrent options fileSystem downloadPath = some start)
    (hes : AllSteps (systemStep sha1) Unharmed start xs)
    (hs : run (systemStep sha1) start xs = some s) :
    AllAcceptable (Verified sha1 torrent.rawTorrent) (keptPieces torrent.rawTorrent s) := by
  have hrun := download_refines_run hmeta hcount (downloadInv_new hfiles hseparate hstart) hes hs
  rw [keptPieces_new hstart] at hrun
  exact acceptable_writeOnce_run (allAcceptable_nothing _) hrun

/-- INTERNAL: a piece that is in the log at some point of a run is on disk from there on, with the
same verified bytes. -/
theorem kept_bytes_stay (hmeta : torrent.rawTorrent.WellSized)
    (hcount : torrent.rawTorrent.pieceCount ≤ 2 ^ 32)
    (hfiles : torrent.rawTorrent.localFiles = some torrent.files)
    (hseparate : Separate (entries fileSystem downloadPath torrent.files))
    (hstart : TorrentSystem.new torrent options fileSystem downloadPath = some start)
    (hes : AllSteps (systemStep sha1) Unharmed start (xs ++ ys))
    (hs : run (systemStep sha1) start xs = some s) (ht : run (systemStep sha1) s ys = some t)
    {p : ℕ} (hp : p ∈ s.manager.downloadedPieceIndex) :
    DownloadInv sha1 torrent options t ∧ ∃ data, Verified sha1 torrent.rawTorrent p data ∧
      onDiskAt torrent.rawTorrent s.disk p = some data ∧
      Carries (stream t.disk) (p * torrent.rawTorrent.info.pieceLength) data ∧
      p ∈ t.manager.downloadedPieceIndex := by
  have hinv := downloadInv_run hmeta hcount (downloadInv_new hfiles hseparate hstart) hes.left hs
  have hinv' := downloadInv_run hmeta hcount hinv (hes.right hs) ht
  obtain ⟨data, hkept⟩ := keptPieces_eq_some hinv hp
  have hverified := keptPieces_verified hmeta hcount hfiles hseparate hstart hes.left hs p data hkept
  have hstays : keptPieces torrent.rawTorrent t p = some data :=
    writeOnce_run_keeps (download_refines_run hmeta hcount hinv (hes.right hs) ht) hkept
  obtain ⟨hp', hbytes⟩ := Option.ite_none_right_eq_some.mp hstays
  obtain ⟨data', hverified', hcarries⟩ := hinv'.kept p hp'
  rw [onDiskAt_of_carries hverified'.2.1 hcarries, Option.some.injEq] at hbytes
  subst hbytes
  exact ⟨hinv', data', hverified, (Option.ite_none_right_eq_some.mp hkept).2, hcarries, hp'⟩

/-- **What is persisted stays.** In such a run a piece that is in the log at some point stays in the
log, its bytes on disk hash to its digest, and no later step changes them.
SOURCE: torrent_manager.rs:238-280, disk_manager.rs:59-112 -/
theorem persisted_pieces_stay (hmeta : torrent.rawTorrent.WellSized)
    (hcount : torrent.rawTorrent.pieceCount ≤ 2 ^ 32)
    (hfiles : torrent.rawTorrent.localFiles = some torrent.files)
    (hseparate : Separate (entries fileSystem downloadPath torrent.files))
    (hstart : TorrentSystem.new torrent options fileSystem downloadPath = some start)
    (hes : AllSteps (systemStep sha1) Unharmed start (xs ++ ys))
    (hs : run (systemStep sha1) start xs = some s) (ht : run (systemStep sha1) s ys = some t)
    {p : ℕ} (hp : p ∈ s.manager.downloadedPieceIndex) :
    p ∈ t.manager.downloadedPieceIndex ∧ ∃ data, Verified sha1 torrent.rawTorrent p data ∧
      onDiskAt torrent.rawTorrent s.disk p = some data ∧
      onDiskAt torrent.rawTorrent t.disk p = some data := by
  obtain ⟨-, data, hverified, hbefore, hafter, hp'⟩ :=
    kept_bytes_stay hmeta hcount hfiles hseparate hstart hes hs ht hp
  exact ⟨hp', data, hverified, hbefore, onDiskAt_of_carries hverified.2.1 hafter⟩

/-- **Reading back through the manager.** In such a run, as long as the disk actor runs and whenever
the manager is not waiting for a flush, a `GetDataWithLength` for a range of a piece that was logged
at some earlier point, and whose reads meet no error, is answered with that range of the bytes that
were verified and persisted then, and changes nothing.
SOURCE: torrent_manager.rs:336-344, disk_manager.rs:113-166 -/
theorem read_of_persisted (hmeta : torrent.rawTorrent.WellSized)
    (hcount : torrent.rawTorrent.pieceCount ≤ 2 ^ 32)
    (hfiles : torrent.rawTorrent.localFiles = some torrent.files)
    (hseparate : Separate (entries fileSystem downloadPath torrent.files))
    (hstart : TorrentSystem.new torrent options fileSystem downloadPath = some start)
    (hes : AllSteps (systemStep sha1) Unharmed start (xs ++ ys))
    (hs : run (systemStep sha1) start xs = some s) (ht : run (systemStep sha1) s ys = some t)
    {p offset length : ℕ} (hp : p ∈ s.manager.downloadedPieceIndex) (hidle : t.finishing = none)
    (hruns : t.diskEnded = false) (hrange : offset + length ≤ torrent.rawTorrent.pieceLen p)
    (hoffset : offset < 2 ^ 32) (hlength : length < 2 ^ 32) (env : Env) :
    ∃ data, Verified sha1 torrent.rawTorrent p data ∧
      onDiskAt torrent.rawTorrent s.disk p = some data ∧
      t.getDataWithLength p offset length (fun _ => .ok) env =
        some (t, .data (some ((data.drop offset).take length))) := by
  obtain ⟨hinv, data, hverified, hbefore, hcarries, -⟩ :=
    kept_bytes_stay hmeta hcount hfiles hseparate hstart hes hs ht hp
  refine ⟨data, hverified, hbefore, ?_⟩
  obtain ⟨hlt, hlen, -⟩ := hverified
  have hslice := hcarries.slice offset length (by omega)
  have hslice_length : ((data.drop offset).take length).length = length := by
    rw [List.length_take, List.length_drop]
    omega
  have hstop := piece_le_totalLength hmeta.pieceLength_pos hlt
  have hdisk := hinv.system.disk hruns
  rw [← hdisk.stdPieceLen_eq] at hslice hstop
  have hread := getDataWithLength_spec hslice (by
    rw [hslice_length, hdisk.totalSize_eq]
    omega)
  rw [hslice_length] at hread
  have hdata : t.dataOnDisk (fun _ => .ok) p offset length =
      some ((data.drop offset).take length) := by
    unfold dataOnDisk
    rw [hruns]
    exact hread
  unfold TorrentSystem.getDataWithLength handle
  rw [if_neg (by simp [hidle])]
  simp only [managerStep, Option.bind_eq_bind, Option.bind_some,
    Nat.mod_eq_of_lt (show p < 2 ^ 32 by omega), Nat.mod_eq_of_lt hoffset,
    Nat.mod_eq_of_lt hlength, hdata]
  rfl

end

/-! ## One byte -/

/-- The state after the right block came twice. -/
def rightBlockState : TorrentSystem :=
  (run (systemStep toySha1) oneByteStart (lateBlockRun 1)).get (by decide +kernel)

theorem wellSized_oneByte : oneByte.rawTorrent.WellSized :=
  (consistent_byteTorrent (by decide) (by decide)).toWellSized

theorem separate_oneByte : Separate (entries .empty "dl".toList oneByte.files) := by
  decide +kernel

/-- The run persists its one piece. -/
theorem download_refines_oneByte :
    outputs (systemStep toySha1) (persistsPiece oneByte.rawTorrent) oneByteStart
        (lateBlockRun 1) = [(0, [1])] ∧
      run (downloadStep (Verified toySha1 oneByte.rawTorrent)) Download.nothing
          (outputs (systemStep toySha1) (persistsPiece oneByte.rawTorrent) oneByteStart
            (lateBlockRun 1)) =
        some (keptPieces oneByte.rawTorrent rightBlockState) :=
  ⟨by decide +kernel, download_refines wellSized_oneByte (by decide) (by decide +kernel)
    separate_oneByte (Option.some_get _).symm (by decide +kernel) (Option.some_get _).symm⟩

/-- What happens then: another connection comes up. -/
def anotherConnects : List SystemEvent := [.connect "third" .quiet]

/-- The state after it came up. -/
def rightBlockLater : TorrentSystem :=
  (run (systemStep toySha1) rightBlockState anotherConnects).get (by decide +kernel)

/-- The piece is still there when another connection has come up. -/
theorem persisted_pieces_stay_oneByte :
    0 ∈ rightBlockLater.manager.downloadedPieceIndex ∧
      ∃ data, Verified toySha1 oneByte.rawTorrent 0 data ∧
        onDiskAt oneByte.rawTorrent rightBlockState.disk 0 = some data ∧
        onDiskAt oneByte.rawTorrent rightBlockLater.disk 0 = some data := by
  have hes : AllSteps (systemStep toySha1) Unharmed oneByteStart
      (lateBlockRun 1 ++ anotherConnects) := by
    decide +kernel
  have hlog : 0 ∈ rightBlockState.manager.downloadedPieceIndex := by decide +kernel
  exact persisted_pieces_stay wellSized_oneByte (by decide) (by decide +kernel) separate_oneByte
    (Option.some_get _).symm hes (Option.some_get _).symm (Option.some_get _).symm hlog

/-- Its byte can be read. -/
theorem read_of_persisted_oneByte :
    ∃ data, Verified toySha1 oneByte.rawTorrent 0 data ∧
      onDiskAt oneByte.rawTorrent rightBlockState.disk 0 = some data ∧
      rightBlockLater.getDataWithLength 0 0 1 (fun _ => .ok) .quiet =
        some (rightBlockLater, .data (some ((data.drop 0).take 1))) := by
  have hes : AllSteps (systemStep toySha1) Unharmed oneByteStart
      (lateBlockRun 1 ++ anotherConnects) := by
    decide +kernel
  have hlog : 0 ∈ rightBlockState.manager.downloadedPieceIndex := by decide +kernel
  exact read_of_persisted wellSized_oneByte (by decide) (by decide +kernel) separate_oneByte
    (Option.some_get _).symm hes (Option.some_get _).symm (Option.some_get _).symm hlog
    (by decide +kernel) (by decide +kernel) (by decide +kernel) (by decide) (by decide) .quiet

end Fissure.Analysis
