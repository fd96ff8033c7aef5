import Mathlib.Data.Prod.Lex
import Fissure.Analysis.CompletePieces
import Fissure.Analysis.DownloadRefinement
import Fissure.Analysis.WorkBookkeeping
import Fissure.Library.Leads

/-!
# What is under way can be brought to an end

`SoundInv` collects what holds in every state that the system reaches in an `Unharmed` run. It
says in particular where a complete piece is on its way to the log as long as the disk actor runs,
so none is lost before it returns (`complete_pieces_persist`).

From such a state the readers can send the news that they have, and the manager can take them and
flush one piece after the other (`settle_step`), until nothing is under way (`settles`). Then every
owned piece is in the log.
-/

set_option autoImplicit false

namespace Fissure.Analysis

open Fissure.Library Fissure.Model
open Fissure.Model.TorrentSystem

variable {sha1 : Bytes → Bytes} {torrent : ClientTorrentMetaInfo} {options : PeerOptions}
  {s t : TorrentSystem}

/-! ## What holds in every state -/

/-- The invariant of the download, the books of the manager, the channels and the piece actors, and
where an owned piece is on its way to the log. -/
structure SoundInv (sha1 : Bytes → Bytes) (torrent : ClientTorrentMetaInfo)
    (options : PeerOptions) (s : TorrentSystem) : Prop where
  download : DownloadInv sha1 torrent options s
  book : WorkBook s.manager
  channels : ∃ owner, Channels owner s
  flags : ∀ send a, s.pieceActor send = some a → FlagsInv sha1 a
  announces : AnnouncesFull s
  persisted : s.diskEnded = false → ∀ p, Owned s.manager p →
    p ∈ s.manager.downloadedPieceIndex ∨ ∃ f, s.finishing = some f ∧ f.index = p

/-- INTERNAL: the books are kept by what a step does to the manager. -/
theorem workBook_systemStep (hs : WorkBook s.manager) {e : SystemEvent} {r : Unit}
    (h : systemStep sha1 s e = some (t, r)) : WorkBook t.manager := by
  cases manager_of_systemStep h with
  | stays hsame =>
    rw [hsame]
    exact hs
  | handles msg env reply _ hstep => exact workBook_step hs hstep
  | begins p last hbegin =>
    -- a `PieceFinish` whose flush fails does no more
    have hstep : managerStep s.manager (.pieceFinish "" p, { Env.quiet with flushed := false }) =
        some (t.manager, .none) := by
      simp only [managerStep, TorrentManagerActor.pieceFinish, hbegin]
      cases last <;> rfl
    exact workBook_step hs hstep
  | ends p job flushResult _ _ hend =>
    rw [hend]
    cases flushResult with
    | false => exact hs
    | true =>
      refine ⟨hs.count_iff, fun q work hwork => ?_⟩
      exact (hs.listed q work hwork).congr rfl fun _ hp => hp

/-- INTERNAL: an owned piece goes on to the log as long as the disk actor runs.
SOURCE: torrent_manager.rs:238-280, disk_manager.rs:62-112 -/
theorem persisted_step (hcount : torrent.rawTorrent.pieceCount ≤ 2 ^ 32)
    (hs : SoundInv sha1 torrent options s) {e : SystemEvent} {r : Unit}
    (h : systemStep sha1 s e = some (t, r)) (hruns : t.diskEnded = false) :
    ∀ p, Owned t.manager p →
      p ∈ t.manager.downloadedPieceIndex ∨ ∃ f, t.finishing = some f ∧ f.index = p := by
  have hran := ran_of_systemStep h hruns
  have hpersisted := hs.persisted hran
  cases flushMove_of_systemStep h with
  | keeps _ hlocal hlog _ _ hfinishing =>
    unfold Owned
    rw [hlocal, hlog, hfinishing]
    exact hpersisted
  | begins _ p last hidle hp hbegin _ _ hfinishing =>
    intro q hq
    obtain ⟨hlt, ⟨-, hsame, -⟩ | ⟨hnot, hlast, hsame⟩⟩ := pieceFinishBegin_eq_some hbegin
    · rw [hsame] at hq ⊢
      refine Or.inl ((hpersisted q hq).resolve_right ?_)
      simp [hidle]
    · rw [hsame] at hq ⊢
      by_cases hqp : q = p
      · -- the piece was announced, so its manager is flushed
        subst hqp
        obtain ⟨mgr, -, hmgr, -⟩ := (hs.download.system.announced q hp).resolve_left hnot
        rw [hlast, hmgr] at hfinishing
        exact Or.inr ⟨_, hfinishing, rfl⟩
      · unfold Owned at hq
        rw [Bitfield.getD_set hlt, if_neg (Ne.symm hqp)] at hq
        refine Or.inl ((hpersisted q hq).resolve_right ?_)
        simp [hidle]
  | flushes _ p job job' result hf hmanager _ _ hfinishing =>
    rw [hmanager, hfinishing]
    intro q hq
    refine (hpersisted q hq).imp_right ?_
    rintro ⟨f, hf', rfl⟩
    rw [hf, Option.some.injEq] at hf'
    subst hf'
    exact ⟨_, rfl, rfl⟩
  | ends _ p job flushResult hf _ _ hmanager hfinishing =>
    -- a flush fails only when the disk actor has returned
    have htrue : flushResult = true := by
      have hanswered := hs.download.system.answered _ flushResult hf rfl
      rw [hran] at hanswered
      simpa using hanswered
    subst htrue
    have hlt := (hs.download.system.finishing _ hf hran).lt
    rw [hmanager, log_pieceFinishEnd hcount hlt, hfinishing]
    intro q hq
    rw [List.mem_append, List.mem_singleton]
    refine Or.inl ((hpersisted q hq).imp_right ?_)
    rintro ⟨f, hf', rfl⟩
    rw [hf, Option.some.injEq] at hf'
    rw [← hf']

/-- INTERNAL: every step keeps all of this. -/
theorem soundInv_step (hmeta : torrent.rawTorrent.WellSized)
    (hcount : torrent.rawTorrent.pieceCount ≤ 2 ^ 32) (hs : SoundInv sha1 torrent options s)
    {e : SystemEvent} {r : Unit} (hcalm : Unharmed s e)
    (h : systemStep sha1 s e = some (t, r)) : SoundInv sha1 torrent options t := by
  obtain ⟨owner, hchannels⟩ := hs.channels
  have hsystem := hs.download.system
  exact ⟨downloadInv_step hmeta hcount hs.download hcalm h, workBook_systemStep hs.book h,
    channels_step hsystem.manager hchannels h, flagsInv_systemStep hs.flags h,
    announces_step hmeta hsystem hchannels hs.announces h, persisted_step hcount hs h⟩

/-- INTERNAL: all of this holds at first.
SOURCE: torrent_manager.rs:436-450 -/
theorem soundInv_new {fileSystem : FileSystem} {downloadPath : PathBuf}
    (hfiles : torrent.rawTorrent.localFiles = some torrent.files)
    (hseparate : Separate (entries fileSystem downloadPath torrent.files))
    (h : TorrentSystem.new torrent options fileSystem downloadPath = some s) :
    SoundInv sha1 torrent options s := by
  have hchannels := channels_new h fun _ => 0
  have hannounces := announces_new h
  have hdownload : DownloadInv sha1 torrent options s := downloadInv_new hfiles hseparate h
  obtain ⟨manager, disk, diskEnded, hmanager, -, rfl⟩ := system_new_eq_some h
  refine ⟨hdownload, workBook_new hmanager, ⟨_, hchannels⟩, ?_, hannounces, ?_⟩
  · intro send a ha
    simp [TorrentSystem.pieceActor] at ha
  · intro _ p hp
    obtain ⟨numOfP, stats, -, rfl⟩ := manager_new_eq_some hmanager
    rw [Owned, Bitfield.getD_zeros] at hp
    cases hp

theorem soundInv_run (hmeta : torrent.rawTorrent.WellSized)
    (hcount : torrent.rawTorrent.pieceCount ≤ 2 ^ 32) {es : List SystemEvent}
    (hs : SoundInv sha1 torrent options s) (hes : AllSteps (systemStep sha1) Unharmed s es)
    (ht : run (systemStep sha1) s es = some t) : SoundInv sha1 torrent options t :=
  (allStates_of_invariant (SoundInv sha1 torrent options)
    (fun _ _ _ _ hs hcalm h => soundInv_step hmeta hcount hs hcalm h)
    (fun _ hs => hs) hs hes).last ht

/-! ## No complete piece is lost -/

/-- INTERNAL: an owned piece stays owned. -/
theorem owned_of_systemStep {e : SystemEvent} {r : Unit} (h : systemStep sha1 s e = some (t, r))
    {p : ℕ} (hp : Owned s.manager p) : Owned t.manager p := by
  cases manager_of_systemStep h with
  | stays hsame =>
    rw [hsame]
    exact hp
  | handles msg env reply _ hstep => exact owned_of_step hstep hp
  | begins p' last hbegin => exact (pieceFinishBegin_owned hbegin).2.1 p hp
  | ends p' job flushResult _ _ hend =>
    rw [hend]
    cases flushResult with
    | false => exact hp
    | true => exact hp

/-- INTERNAL: in a run a piece that is announced stays so until it is owned. -/
theorem news_run {p : ℕ} {es : List SystemEvent} (hs : p ∈ announced s ∨ Owned s.manager p)
    (ht : run (systemStep sha1) s es = some t) : p ∈ announced t ∨ Owned t.manager p := by
  have hstep (s : TorrentSystem) (e : SystemEvent) (t : TorrentSystem) (r : Unit)
      (hp : p ∈ announced s ∨ Owned s.manager p) (he : systemStep sha1 s e = some (t, r)) :
      p ∈ announced t ∨ Owned t.manager p :=
    hp.elim (news_step he) fun hown => Or.inr (owned_of_systemStep he hown)
  exact run_invariant hstep hs ht

variable {fileSystem : FileSystem} {downloadPath : PathBuf} {start : TorrentSystem}
  {xs ys : List SystemEvent}

/-- **No complete piece is lost.** When no two entries of the list of files lead to one file: in
every run in which no block changes what is still to be flushed of a verified buffer and no write
fails without being reported, when the actor of an active piece has all blocks at some point, its
buffer hashes to the digest there, and at every later point the news is under way, the piece is
being flushed, or it is in the log, unless the disk actor has returned.
SOURCE: piece_manager.rs:98-136, peer_protocol_state_machine.rs:337-393, torrent_manager.rs:238-280,
disk_manager.rs:59-112 -/
theorem complete_pieces_persist (hmeta : torrent.rawTorrent.WellSized)
    (hcount : torrent.rawTorrent.pieceCount ≤ 2 ^ 32)
    (hfiles : torrent.rawTorrent.localFiles = some torrent.files)
    (hseparate : Separate (entries fileSystem downloadPath torrent.files))
    (hstart : TorrentSystem.new torrent options fileSystem downloadPath = some start)
    (hes : AllSteps (systemStep sha1) Unharmed start (xs ++ ys))
    (hs : run (systemStep sha1) start xs = some s) (ht : run (systemStep sha1) s ys = some t)
    {p : ℕ} {mgr : PieceRequestManager} {a : PieceRequestManagerActor}
    (hmgr : s.manager.activePiecesManager.lookup p = some mgr)
    (ha : s.pieceActor mgr.send = some a)
    (hfull : ∀ i < noOfBlocks a.data.length, a.downloadedBlocks.getD i false = true) :
    sha1 a.data = a.hash ∧
      (p ∈ announced t ∨ (∃ f, t.finishing = some f ∧ f.index = p) ∨
        p ∈ t.manager.downloadedPieceIndex ∨ t.diskEnded = true) := by
  have hsound : SoundInv sha1 torrent options s :=
    soundInv_run hmeta hcount (soundInv_new hfiles hseparate hstart) hes.left hs
  have hsound' := soundInv_run hmeta hcount hsound (hes.right hs) ht
  have hpos := noOfBlocks_pos (hsound.download.system.data_pos hmeta hmgr ha)
  refine ⟨(hsound.flags mgr.send a ha).complete hpos hfull, ?_⟩
  rcases news_run (Or.inl (hsound.announces p mgr a hmgr ha hfull)) ht with hp | hp
  · exact Or.inl hp
  · right
    cases hended : t.diskEnded with
    | true => exact Or.inr (Or.inr rfl)
    | false => exact (hsound'.persisted hended p hp).symm.imp_right Or.inl

/-- The run of two peers up to where the first one has completed the piece. -/
def completedState : TorrentSystem :=
  (run (systemStep toySha1) oneByteStart ((lateBlockRun 1).take 11)).get (by decide +kernel)

/-- The rest of it. -/
def flushedState : TorrentSystem :=
  (run (systemStep toySha1) completedState ((lateBlockRun 1).drop 11)).get (by decide +kernel)

/-- The manager of the piece there. -/
def completedManager : PieceRequestManager :=
  (completedState.manager.activePiecesManager.lookup 0).get (by decide +kernel)

/-- The actor of the piece there. -/
def completedActor : PieceRequestManagerActor :=
  (completedState.pieceActor completedManager.send).get (by decide +kernel)

/-- The piece is not lost. -/
theorem complete_pieces_persist_oneByte :
    toySha1 completedActor.data = completedActor.hash ∧
      (0 ∈ announced flushedState ∨ (∃ f, flushedState.finishing = some f ∧ f.index = 0) ∨
        0 ∈ flushedState.manager.downloadedPieceIndex ∨ flushedState.diskEnded = true) := by
  have hes : AllSteps (systemStep toySha1) Unharmed oneByteStart
      ((lateBlockRun 1).take 11 ++ (lateBlockRun 1).drop 11) := by
    decide +kernel
  have hfull : ∀ i < noOfBlocks completedActor.data.length,
      completedActor.downloadedBlocks.getD i false = true := by
    decide +kernel
  exact complete_pieces_persist wellSized_oneByte (by decide) (by decide +kernel) separate_oneByte
    (Option.some_get _).symm hes (Option.some_get _).symm (Option.some_get _).symm
    (Option.some_get _).symm (Option.some_get _).symm hfull

/-! ## Bringing it to an end -/

/-- Nothing is under way between the readers, the manager and the disk. -/
structure NothingPending (s : TorrentSystem) : Prop where
  finishing : s.finishing = none
  announced : announced s = []

/-- The events that bring what is under way to an end, when no disk operation fails. -/
def Settles : SystemEvent → Prop
  | .pieceFinish _ | .pieceFinishBegin _ | .flushRound .ok | .pieceFinishEnd => True
  | _ => False

/-- The event brings no block to a reader or a piece actor. -/
def BringsNoBlock : SystemEvent → Prop
  | .piece _ _ _ _ | .blockRecived _ => False
  | _ => True

/-- The event brings no block, and no disk operation fails in it. -/
def Calm (e : SystemEvent) : Prop := BringsNoBlock e ∧ DiskWorks e

/-- How many steps the news that are under way are from the manager. -/
def newsLeft (s : TorrentSystem) : ℕ :=
  2 * (s.connections.filterMap fun conn => matchedPiece conn.reader).length +
    s.pieceFinishes.length

/-- How many steps the `PieceFinish` in progress is from its end. -/
def flushLeft (s : TorrentSystem) : ℕ :=
  match s.finishing with
  | none => 0
  | some ⟨_, job, none⟩ => s.disk.handles.length - job.idx + 2
  | some ⟨_, _, some _⟩ => 1

/-- What may become of the pieces while what is under way is brought to an end. -/
structure MovesOn (s t : TorrentSystem) : Prop where
  pieceActors : t.pieceActors = s.pieceActors
  diskEnded : t.diskEnded = s.diskEnded
  active : ∀ p mgr, t.manager.activePiecesManager.lookup p = some mgr →
    s.manager.activePiecesManager.lookup p = some mgr
  counts : ∀ p count, t.manager.pieceConcurrencyCounts.lookup p = some count →
    s.manager.pieceConcurrencyCounts.lookup p = some count
  log : ∀ p ∈ s.manager.downloadedPieceIndex, p ∈ t.manager.downloadedPieceIndex
  owned : ∀ p, Owned s.manager p → Owned t.manager p
  news : ∀ p ∈ announced s, p ∈ announced t ∨ Owned t.manager p

theorem MovesOn.refl (s : TorrentSystem) : MovesOn s s :=
  ⟨rfl, rfl, fun _ _ h => h, fun _ _ h => h, fun _ h => h, fun _ h => h, fun _ h => Or.inl h⟩

theorem MovesOn.trans {u : TorrentSystem} (h : MovesOn s t) (h' : MovesOn t u) : MovesOn s u where
  pieceActors := h'.pieceActors.trans h.pieceActors
  diskEnded := h'.diskEnded.trans h.diskEnded
  active p mgr hmgr := h.active p mgr (h'.active p mgr hmgr)
  counts p count hcount := h.counts p count (h'.counts p count hcount)
  log p hp := h'.log p (h.log p hp)
  owned p hp := h'.owned p (h.owned p hp)
  news p hp := (h.news p hp).elim (h'.news p) fun hown => Or.inr (h'.owned p hown)

/-- INTERNAL: the manager takes every news that it is sent.
SOURCE: torrent_manager.rs:238-263 -/
theorem pieceFinishBegin_isSome (hs : SystemInv sha1 torrent options s) {p : ℕ}
    (hp : p ∈ announced s) :
    ∃ m last, s.manager.pieceFinishBegin p = some (m, last) := by
  have hlt : p < s.manager.localBitfield.length := by
    rcases hs.announced p hp with hown | ⟨mgr, a, hmgr, -⟩
    · exact Bitfield.lt_length_of_getD hown
    · rw [hs.manager.rarity.length_local]
      exact (hs.manager.active p mgr hmgr).2.1
  obtain ⟨t, ht⟩ := pieceFinish_isSome hs.manager.rarity hlt false
  obtain ⟨m, last, hbegin, -⟩ := pieceFinish_eq_some_iff.mp ht
  exact ⟨m, last, hbegin⟩

theorem Settles.diskWorks {e : SystemEvent} (he : Settles e) : DiskWorks e := by
  cases e with
  | flushRound io =>
    cases io with
    | ok => rfl
    | _ => exact absurd he id
  | getDataWithLength => exact absurd he id
  | _ => trivial

/-- INTERNAL: the events do no more than move on.
SOURCE: peer_protocol_state_machine.rs:350-393, torrent_manager.rs:238-280 -/
theorem movesOn_of_settles {e : SystemEvent} {r : Unit} (he : Settles e)
    (h : systemStep sha1 s e = some (t, r)) : MovesOn s t := by
  have howned (p : ℕ) (hp : Owned s.manager p) := owned_of_systemStep h hp
  have hnews (p : ℕ) (hp : p ∈ announced s) := news_step h hp
  obtain ⟨u, hu, heq⟩ := Option.map_eq_some_iff.mp h
  cases heq
  cases e with
  | pieceFinish c =>
    obtain ⟨conn, p, tracked, -, -, rfl⟩ := pieceFinish_event_eq_some hu
    exact ⟨rfl, rfl, fun _ _ h => h, fun _ _ h => h, fun _ h => h, howned, hnews⟩
  | pieceFinishBegin k =>
    obtain ⟨-, q, p, manager, last, -, hbegin, rfl⟩ := pieceFinishBegin_event_eq_some hu
    obtain ⟨-, ⟨-, rfl, -⟩ | ⟨-, -, rfl⟩⟩ := pieceFinishBegin_eq_some hbegin
    · exact ⟨rfl, rfl, fun _ _ h => h, fun _ _ h => h, fun _ h => h, howned, hnews⟩
    · -- the piece leaves the active managers and the counts
      refine ⟨rfl, rfl, fun p' mgr hmgr => ?_, fun p' count hcount => ?_, fun _ h => h, howned,
        hnews⟩
      · dsimp only at hmgr
        rw [HashMap.lookup_erase_eq] at hmgr
        split_ifs at hmgr
        exact hmgr
      · dsimp only at hcount
        rw [HashMap.lookup_erase_eq] at hcount
        split_ifs at hcount
        exact hcount
  | flushRound io =>
    obtain rfl : io = .ok := he.diskWorks
    obtain ⟨p, job, -, ⟨-, rfl⟩ | ⟨-, ⟨disk, next, -, rfl⟩ | ⟨r, -, rfl⟩ |
      ⟨disk, next, hfailed, -⟩⟩⟩ := flushRound_event_eq_some hu
    · exact ⟨rfl, rfl, fun _ _ h => h, fun _ _ h => h, fun _ h => h, howned, hnews⟩
    · exact ⟨rfl, rfl, fun _ _ h => h, fun _ _ h => h, fun _ h => h, howned, hnews⟩
    · exact ⟨rfl, rfl, fun _ _ h => h, fun _ _ h => h, fun _ h => h, howned, hnews⟩
    · exact absurd hfailed flushRound_ok_ne_failed
  | pieceFinishEnd =>
    obtain ⟨p, job, flushed, -, rfl⟩ := pieceFinishEnd_event_eq_some hu
    cases flushed with
    | false => exact ⟨rfl, rfl, fun _ _ h => h, fun _ _ h => h, fun _ h => h, howned, hnews⟩
    | true =>
      exact ⟨rfl, rfl, fun _ _ h => h, fun _ _ h => h, fun q hq => List.mem_append_left _ hq,
        howned, hnews⟩
  | _ => exact absurd he id

theorem Settles.calm {e : SystemEvent} (he : Settles e) : Calm e := by
  refine ⟨?_, he.diskWorks⟩
  cases e with
  | piece => exact he
  | blockRecived => exact he
  | _ => trivial

theorem Calm.unharmed {e : SystemEvent} (he : Calm e) : Unharmed s e := by
  refine ⟨fun block hblock => ?_, he.2.writeLands⟩
  cases e with
  | blockRecived c => exact absurd he.1 id
  | _ => cases hblock

/-- INTERNAL: a reader that has sent its news has one less. -/
theorem length_matched_set {connections : List Connection} {c p : ℕ} {conn : Connection}
    (hc : connections[c]? = some conn) (hp : matchedPiece conn.reader = some p) {conn' : Connection}
    (hnone : matchedPiece conn'.reader = none) :
    ((connections.set c conn').filterMap fun conn => matchedPiece conn.reader).length + 1 =
      (connections.filterMap fun conn => matchedPiece conn.reader).length := by
  obtain ⟨hlt, rfl⟩ := List.getElem?_eq_some_iff.mp hc
  obtain ⟨before, after, hsplit, -, hset⟩ :
      ∃ before after, connections = before ++ connections[c] :: after ∧ before.length = c ∧
        connections.set c conn' = before ++ conn' :: after := List.exists_of_set hlt
  generalize connections[c] = conn at *
  rw [hset, hsplit]
  simp [hp, hnone]
  omega

/-- A state that can be brought about by one of these events and is closer to the end. -/
def Closer (sha1 : Bytes → Bytes) (s : TorrentSystem) : Prop :=
  ∃ e t, Settles e ∧ systemStep sha1 s e = some (t, ()) ∧
    toLex (newsLeft t, flushLeft t) < toLex (newsLeft s, flushLeft s)

/-- INTERNAL: a flush goes on, or the `PieceFinish` ends.
SOURCE: disk_manager.rs:66-110, torrent_manager.rs:264-280 -/
theorem closer_of_finishing {f : PieceFinishing} (hf : s.finishing = some f) : Closer sha1 s := by
  have hlater {t : TorrentSystem} (hconns : t.connections = s.connections)
      (hfinishes : t.pieceFinishes = s.pieceFinishes) (hlt : flushLeft t < flushLeft s) :
      toLex (newsLeft t, flushLeft t) < toLex (newsLeft s, flushLeft s) := by
    rw [Prod.Lex.toLex_lt_toLex]
    refine Or.inr ⟨?_, hlt⟩
    unfold newsLeft
    rw [hconns, hfinishes]
  have hround {t : TorrentSystem} (ht : s.flushRound .ok = some t)
      (hconns : t.connections = s.connections) (hfinishes : t.pieceFinishes = s.pieceFinishes)
      (hlt : flushLeft t < flushLeft s) : Closer sha1 s :=
    ⟨.flushRound .ok, t, trivial, by simp only [systemStep, ht, Option.map_some],
      hlater hconns hfinishes hlt⟩
  obtain ⟨p, job, result⟩ := f
  cases result with
  | some flushed =>
    have hend : systemStep sha1 s .pieceFinishEnd = some ({ s with
        manager := s.manager.pieceFinishEnd p job.pieceManager.pieceLength flushed
        finishing := none }, ()) := by
      simp only [systemStep, TorrentSystem.pieceFinishEnd, hf, Option.map_some]
    refine ⟨.pieceFinishEnd, _, trivial, hend, hlater rfl rfl ?_⟩
    simp [flushLeft, hf]
  | none =>
    cases hended : s.diskEnded with
    | true =>
      refine hround (t := { s with finishing := some ⟨p, job, some false⟩ }) ?_ rfl rfl ?_
      · simp [TorrentSystem.flushRound, hf, hended]
      · simp only [flushLeft, hf]
        omega
    | false =>
      cases hnext : s.disk.flushRound job (s.getDataWithOffset job.pieceManager) .ok with
      | next result =>
        obtain ⟨disk, job'⟩ := result
        obtain ⟨hlt, hidx, -, -, hhandles⟩ := next_of_flushRound hnext
        refine hround (t := { s with disk := disk, finishing := some ⟨p, job', none⟩ }) ?_ rfl rfl
          ?_
        · simp [TorrentSystem.flushRound, hf, hended, hnext]
        · simp only [flushLeft, hf, hidx, hhandles]
          omega
      | reply flushed =>
        refine hround (t := { s with finishing := some ⟨p, job, some flushed⟩ }) ?_ rfl rfl ?_
        · simp [TorrentSystem.flushRound, hf, hended, hnext]
        · simp only [flushLeft, hf]
          omega
      | failed next => exact absurd hnext flushRound_ok_ne_failed

/-- INTERNAL: the manager takes the first news in its channel.
SOURCE: torrent_manager.rs:238-263 -/
theorem closer_of_sent (hs : SystemInv sha1 torrent options s) (hf : s.finishing = none)
    {msg : String × ℕ} {rest : List (String × ℕ)} (hsent : s.pieceFinishes = msg :: rest) :
    Closer sha1 s := by
  have hp : msg.2 ∈ announced s := List.mem_append_right _ (by simp [hsent])
  obtain ⟨m, last, hbegin⟩ := pieceFinishBegin_isSome hs hp
  have hstep : systemStep sha1 s (.pieceFinishBegin 0) = some ({ s with
      manager := m
      pieceFinishes := rest
      finishing := last.map fun mgr => ⟨msg.2, .begin mgr, none⟩ }, ()) := by
    simp [systemStep, TorrentSystem.pieceFinishBegin, hf, hsent, hbegin]
  refine ⟨.pieceFinishBegin 0, _, trivial, hstep, ?_⟩
  rw [Prod.Lex.toLex_lt_toLex]
  left
  simp [newsLeft, hsent]

/-- INTERNAL: a reader sends its news.
SOURCE: peer_protocol_state_machine.rs:350-366 -/
theorem closer_of_matched {c p : ℕ} {conn : Connection} (hc : s.connections[c]? = some conn)
    (hp : matchedPiece conn.reader = some p) : Closer sha1 s := by
  obtain ⟨tracked, hreader⟩ : ∃ tracked, conn.reader = .hashMatched p tracked := by
    cases hreader : conn.reader with
    | hashMatched p' tracked =>
      rw [hreader] at hp
      cases hp
      exact ⟨tracked, rfl⟩
    | _ =>
      rw [hreader] at hp
      cases hp
  have hstep : systemStep sha1 s (.pieceFinish c) = some ({ s with
      pieceFinishes := s.pieceFinishes ++ [(conn.peerId, p)] }.setConnection c
        { conn with reader := if tracked then .finished p else .idle }, ()) := by
    simp [systemStep, TorrentSystem.pieceFinish, hc, hreader]
  have hnone : matchedPiece (if tracked then Reader.finished p else .idle) = none := by
    cases tracked <;> rfl
  have hlength : ((s.connections.set c { conn with
      reader := if tracked then .finished p else .idle }).filterMap
        fun conn => matchedPiece conn.reader).length + 1 = _ :=
    length_matched_set hc hp hnone
  refine ⟨.pieceFinish c, _, trivial, hstep, ?_⟩
  rw [Prod.Lex.toLex_lt_toLex]
  left
  simp only [newsLeft, TorrentSystem.setConnection, List.length_append, List.length_singleton]
  omega

/-- INTERNAL: while something is under way one of these events comes closer to its end. -/
theorem settle_step (hs : SystemInv sha1 torrent options s) : NothingPending s ∨ Closer sha1 s := by
  cases hf : s.finishing with
  | some f => exact Or.inr (closer_of_finishing hf)
  | none =>
    cases hsent : s.pieceFinishes with
    | cons msg rest => exact Or.inr (closer_of_sent hs hf hsent)
    | nil =>
      by_cases hmatched : ∃ (c p : ℕ) (conn : Connection), s.connections[c]? = some conn ∧
          matchedPiece conn.reader = some p
      · obtain ⟨c, p, conn, hc, hp⟩ := hmatched
        exact Or.inr (closer_of_matched hc hp)
      · refine Or.inl ⟨hf, ?_⟩
        unfold announced
        rw [hsent, List.map_nil, List.append_nil, List.filterMap_eq_nil_iff]
        intro conn hconn
        obtain ⟨c, hc⟩ := List.mem_iff_getElem?.mp hconn
        cases hp : matchedPiece conn.reader with
        | none => rfl
        | some p => exact absurd ⟨c, p, conn, hc, hp⟩ hmatched

/-- INTERNAL: all that is under way can be brought to an end. -/
theorem settles (hmeta : torrent.rawTorrent.WellSized)
    (hcount : torrent.rawTorrent.pieceCount ≤ 2 ^ 32) (hs : SoundInv sha1 torrent options s) :
    ∃ t, Leads (systemStep sha1) (fun _ e => Settles e) s t ∧
      (SoundInv sha1 torrent options t ∧ MovesOn s t) ∧ NothingPending t := by
  refine leads_of_progress (fun t => toLex (newsLeft t, flushLeft t))
    (fun t => SoundInv sha1 torrent options t ∧ MovesOn s t) (fun t ht => ?_)
    ⟨hs, .refl s⟩
  rcases settle_step ht.1.download.system with hdone | ⟨e, u, he, hu, hlt⟩
  · exact Or.inl hdone
  · refine Or.inr ⟨u, leads_of_step he hu, ⟨?_, ht.2.trans (movesOn_of_settles he hu)⟩,
      Or.inr hlt⟩
    exact soundInv_step hmeta hcount ht.1 he.calm.unharmed hu

/-- INTERNAL: what is settled stays so when a connection changes that announces nothing. -/
theorem NothingPending.setConnection (h : NothingPending s) (c : ℕ) {conn : Connection}
    (hnone : matchedPiece conn.reader = none) : NothingPending (s.setConnection c conn) where
  finishing := h.finishing
  announced := by
    rw [List.eq_nil_iff_forall_not_mem]
    intro p hp
    rcases mem_announced_setConnection hp with hp | hp
    · rw [h.announced] at hp
      cases hp
    · rw [hnone] at hp
      cases hp

/-- INTERNAL: then every owned piece is in the log, as long as the disk actor runs. -/
theorem NothingPending.logged (h : NothingPending s) (hs : SoundInv sha1 torrent options s)
    (hruns : s.diskEnded = false) {p : ℕ} (hp : Owned s.manager p) :
    p ∈ s.manager.downloadedPieceIndex := by
  refine (hs.persisted hruns p hp).resolve_right ?_
  simp [h.finishing]

end Fissure.Analysis
