import Fissure.Analysis.ManagerEffect

/-!
# The invariant of the manager

`ManagerInv` is what holds in every live state of the manager of a torrent: the rarity index,
one frequency for each piece, a recorded bitfield for each registered peer, work lists that
name pieces, and active managers that carry the digest and the length of their piece and
belong to pieces that are not owned yet. It holds in the first state (`managerInv_new`), every
arm keeps it (`managerInv_step`), so it holds wherever a run ends (`managerInv_run`).
-/

set_option autoImplicit false

namespace Fissure.Analysis

open Fissure.Library Fissure.Model
open Fissure.Model.TorrentManagerActor

/-- The shared manager `m` of piece `p` of the torrent. -/
structure ManagesPiece (torrent : MetaInfo) (p : ℕ) (m : PieceRequestManager) : Prop where
  index_eq : m.index = p
  sha1Hash_eq : torrent.getPieceHash p = some m.sha1Hash
  pieceLength_eq : torrent.getPieceLength p = some m.pieceLength

/-- The invariant of the manager of the torrent. -/
structure ManagerInv (torrent : ClientTorrentMetaInfo) (options : PeerOptions)
    (s : TorrentManagerActor) : Prop where
  rarity : RarityIndex s
  torrent_eq : s.clientTorrentMeta = torrent
  options_eq : s.peerOptions = options
  number_eq : torrent.rawTorrent.getNumberOfPieces = some s.piecesFrequency.length
  registered : ∀ q ∈ s.peerActiveWork, q ∈ s.peerBitfields
  work_lt : ∀ q work, s.peerActiveWork.lookup q = some work →
    ∀ w ∈ work, w.1 < s.piecesFrequency.length
  active : ∀ p m, s.activePiecesManager.lookup p = some m →
    ManagesPiece torrent.rawTorrent p m ∧ p < s.piecesFrequency.length ∧ ¬ Owned s p

variable {torrent : ClientTorrentMetaInfo} {options : PeerOptions}

theorem ManagerInv.length_frequency {s : TorrentManagerActor} (hs : ManagerInv torrent options s)
    (hmeta : torrent.rawTorrent.WellSized) :
    s.piecesFrequency.length = torrent.rawTorrent.pieceCount := by
  have hnumber := hs.number_eq
  rw [MetaInfo.getNumberOfPieces_eq hmeta] at hnumber
  exact (Option.some.inj hnumber).symm

/-! ## The arms -/

/-- INTERNAL: a change of work lists, counts, managers, statistics and log keeps the rest. -/
theorem ManagerInv.update {s : TorrentManagerActor} (hs : ManagerInv torrent options s)
    {work : HashMap String (List (ℕ × Instant))} {counts : HashMap ℕ ℕ}
    {active : HashMap ℕ PieceRequestManager} {stats : TorrentStats} {log : List ℕ}
    {notifier : ℕ} (hreg : ∀ q ∈ work, q ∈ s.peerBitfields)
    (hwork : ∀ q l, work.lookup q = some l → ∀ w ∈ l, w.1 < s.piecesFrequency.length)
    (hactive : ∀ p m, active.lookup p = some m →
      ManagesPiece torrent.rawTorrent p m ∧ p < s.piecesFrequency.length ∧ ¬ Owned s p) :
    ManagerInv torrent options { s with
      peerActiveWork := work, pieceConcurrencyCounts := counts, activePiecesManager := active,
      stats := stats, downloadedPieceIndex := log, peerNotifier := notifier } where
  rarity := hs.rarity.congr rfl rfl rfl rfl
  torrent_eq := hs.torrent_eq
  options_eq := hs.options_eq
  number_eq := hs.number_eq
  registered := hreg
  work_lt := hwork
  active := hactive

/-- INTERNAL: counting and recording pieces keeps the rest. -/
theorem ManagerInv.recount {s u : TorrentManagerActor} (hs : ManagerInv torrent options s)
    (hrest : SameButRarity s u) (hlen : u.piecesFrequency.length = s.piecesFrequency.length)
    {q : String} {b : Bitfield}
    (ht : RarityIndex { u with peerBitfields := u.peerBitfields.insert q b }) :
    ManagerInv torrent options { u with peerBitfields := u.peerBitfields.insert q b } := by
  cases u
  cases hrest
  change List.length _ = s.piecesFrequency.length at hlen
  refine ⟨ht, hs.torrent_eq, hs.options_eq, hlen ▸ hs.number_eq, ?_, hlen ▸ hs.work_lt,
    hlen ▸ hs.active⟩
  intro q' hq'
  exact Finmap.mem_insert.mpr (Or.inr (hs.registered q' hq'))

theorem ManagerInv.registered_insert {s : TorrentManagerActor} (hs : ManagerInv torrent options s)
    {q : String} {work : List (ℕ × Instant)} (hwork : s.peerActiveWork.lookup q = some work)
    (l : List (ℕ × Instant)) : ∀ q' ∈ s.peerActiveWork.insert q l, q' ∈ s.peerBitfields := by
  intro q' hq'
  rcases Finmap.mem_insert.mp hq' with rfl | hq'
  · exact hs.registered q' (Finmap.mem_of_lookup_eq_some hwork)
  · exact hs.registered q' hq'

theorem ManagerInv.work_lt_insert {s : TorrentManagerActor} (hs : ManagerInv torrent options s)
    (q : String) {l : List (ℕ × Instant)} (hl : ∀ w ∈ l, w.1 < s.piecesFrequency.length) :
    ∀ q' l', (s.peerActiveWork.insert q l).lookup q' = some l' →
      ∀ w ∈ l', w.1 < s.piecesFrequency.length := by
  intro q' l' hl'
  rw [HashMap.lookup_insert_eq] at hl'
  split_ifs at hl'
  · cases hl'
    exact hl
  · exact hs.work_lt q' l' hl'

theorem managerInv_addBitFeild {s t : TorrentManagerActor} {q : String} {b : Bitfield}
    (hs : ManagerInv torrent options s) (h : s.addBitFeild q b = some t) :
    ManagerInv torrent options t := by
  unfold addBitFeild at h
  simp only [Option.bind_eq_bind, Option.bind_eq_some_iff, Option.some.injEq] at h
  obtain ⟨u, hu, rfl⟩ := h
  obtain ⟨hrest, hlen, ht⟩ := rarityIndex_record hs.rarity hu
  exact hs.recount hrest hlen ht

theorem managerInv_addPeer {s t : TorrentManagerActor} {q : String} {b b' : Bitfield}
    (hs : ManagerInv torrent options s) (h : s.addPeer q b = some (t, b')) :
    ManagerInv torrent options t := by
  unfold addPeer at h
  simp only [Option.bind_eq_bind, Option.bind_eq_some_iff, Option.some.injEq, Prod.mk.injEq] at h
  obtain ⟨u, hu, rfl, -⟩ := h
  obtain ⟨hrest, hlen, ht⟩ := rarityIndex_record hs.rarity hu
  have hv := hs.recount hrest hlen ht
  refine hv.update ?_ ?_ hv.active
  · intro q' hq'
    rcases Finmap.mem_insert.mp hq' with rfl | hq'
    · exact Finmap.mem_insert.mpr (Or.inl rfl)
    · exact hv.registered q' hq'
  · exact hv.work_lt_insert q (List.forall_mem_nil _)

theorem managerInv_updateBitField {s t : TorrentManagerActor} {q : String} {i : ℕ}
    (hs : ManagerInv torrent options s) (h : s.updateBitField q i = some t) :
    ManagerInv torrent options t := by
  have ht := rarityIndex_updateBitField hs.rarity h
  obtain ⟨b, u, -, -, ⟨-, rfl⟩ | ⟨-, -, hu⟩, rfl⟩ := updateBitField_eq_some h
  · exact hs.recount (u := u) rfl rfl ht
  · obtain ⟨-, hrest, hlen, -⟩ := raiseFrequency_eq_some hu
    exact hs.recount hrest hlen ht

theorem ManagerInv.managesPiece {s : TorrentManagerActor} (hs : ManagerInv torrent options s)
    {p fresh : ℕ} {m : PieceRequestManager} (hm : ManagerOf s p fresh m) :
    ManagesPiece torrent.rawTorrent p m := by
  unfold ManagerOf at hm
  cases hactive : s.activePiecesManager.lookup p with
  | some active =>
    rw [hactive] at hm
    rw [hm]
    exact (hs.active p active hactive).1
  | none =>
    rw [hactive] at hm
    obtain ⟨sha1Hash, pieceLength, hhash, hlen, rfl⟩ := hm
    rw [hs.torrent_eq] at hhash hlen
    exact ⟨rfl, hhash, hlen⟩

/-- INTERNAL: an assignment keeps the invariant; the piece is one of the torrent and not owned.
SOURCE: torrent_manager.rs:127-228 -/
theorem managerInv_requestWork {s t : TorrentManagerActor} {q : String} {env : Env}
    {manager : Option PieceRequestManager} (hs : ManagerInv torrent options s)
    (h : s.requestWork q env = some (t, manager)) : ManagerInv torrent options t := by
  rcases requestWork_eq_some h with ⟨-, rfl, -⟩ | ⟨b, index, m, hb, hfind, hassign, -⟩
  · exact hs
  obtain ⟨count, work, hcount, hwork, hm, rfl⟩ := assign_eq_some_iff.mp hassign
  obtain ⟨f, hmem⟩ := mem_bucketsInOrder.mp (List.mem_of_find?_eq_some hfind)
  have hlt := hs.rarity.lt_of_mem_bucket hmem
  have hsel := selectable_iff.mp (List.find?_some hfind)
  have hnot : ¬ Owned s index := ne_true_of_eq_false hsel.unowned
  have hwork_lt : ∀ w ∈ work ++ [(index, env.now)], w.1 < s.piecesFrequency.length := by
    intro w hw
    rcases List.mem_append.mp hw with hw | hw
    · exact hs.work_lt q work hwork w hw
    · rw [List.mem_singleton.mp hw]
      exact hlt
  refine hs.update (hs.registered_insert hwork _) (hs.work_lt_insert q hwork_lt) ?_
  intro p m' hm'
  rw [HashMap.lookup_insert_eq] at hm'
  split_ifs at hm' with hp
  · cases hm'
    subst hp
    exact ⟨hs.managesPiece hm, hlt, hnot⟩
  · exact hs.active p m' hm'

theorem managerInv_updateAndGetActiveRequestCount {s t : TorrentManagerActor} {q : String}
    {now : Instant} {reply : Option (List (ℕ × Instant))} (hs : ManagerInv torrent options s)
    (h : s.updateAndGetActiveRequestCount q now = some (t, reply)) :
    ManagerInv torrent options t := by
  rcases updateAndGetActiveRequestCount_eq_some h with ⟨-, rfl⟩ | ⟨work, kept, hwork, hkept, rfl, -⟩
  · exact hs
  have hlt : ∀ w ∈ kept, w.1 < s.piecesFrequency.length := by
    intro w hw
    apply hs.work_lt q work hwork w
    rw [hkept] at hw
    exact (inTime_sublist _ _ _ _).subset hw
  exact hs.update (hs.registered_insert hwork kept) (hs.work_lt_insert q hlt) hs.active

/-- INTERNAL: a time-out query does not stop the manager.
SOURCE: torrent_manager.rs:281-312 -/
theorem updateAndGetActiveRequestCount_isSome {s : TorrentManagerActor}
    (hs : ManagerInv torrent options s) (q : String) (now : Instant) :
    ∃ r, s.updateAndGetActiveRequestCount q now = some r := by
  unfold updateAndGetActiveRequestCount
  cases hwork : s.peerActiveWork.lookup q with
  | none => exact ⟨_, rfl⟩
  | some work =>
    have hlt : ∀ w ∈ work, w.1 < s.localBitfield.length := by
      intro w hw
      rw [hs.rarity.length_local]
      exact hs.work_lt q work hwork w hw
    obtain ⟨r, hr⟩ := retainActive_isSome hlt (fromSecs s.peerOptions.pieceRequestTimeout) now
      s.pieceConcurrencyCounts
    dsimp only
    rw [hr]
    exact ⟨_, rfl⟩

theorem managerInv_pieceFinishBegin {s t : TorrentManagerActor} {i : ℕ}
    {manager : Option PieceRequestManager} (hs : ManagerInv torrent options s)
    (h : s.pieceFinishBegin i = some (t, manager)) : ManagerInv torrent options t := by
  have ht := rarityIndex_pieceFinishBegin hs.rarity h
  obtain ⟨hlt, ⟨-, rfl, -⟩ | ⟨-, -, rfl⟩⟩ := pieceFinishBegin_eq_some h
  · exact hs
  refine ⟨ht, hs.torrent_eq, hs.options_eq, ?_, ?_, ?_, ?_⟩
  · rw [List.length_set]
    exact hs.number_eq
  · intro q hq
    exact hs.registered q (mem_retainWork.mp (mem_retainWork.mp hq))
  · intro q l hl w hw
    rw [lookup_retainWork, lookup_retainWork, Option.map_map, Option.map_eq_some_iff] at hl
    obtain ⟨work, hwork, rfl⟩ := hl
    rw [List.length_set]
    exact hs.work_lt q work hwork w (List.mem_of_mem_filter (List.mem_of_mem_filter hw))
  · intro p m hm
    rw [HashMap.lookup_erase_eq] at hm
    split_ifs at hm with hp
    obtain ⟨hmanages, hplt, hnot⟩ := hs.active p m hm
    refine ⟨hmanages, by rwa [List.length_set], ?_⟩
    unfold Owned at hnot ⊢
    rw [Bitfield.getD_set hlt, if_neg (Ne.symm hp)]
    exact hnot

theorem managerInv_pieceFinishEnd {s : TorrentManagerActor} (i len : ℕ) (flushed : Bool)
    (hs : ManagerInv torrent options s) :
    ManagerInv torrent options (s.pieceFinishEnd i len flushed) := by
  unfold pieceFinishEnd
  split_ifs
  · exact hs.update hs.registered hs.work_lt hs.active
  · exact hs

/-- INTERNAL: a finish message is its two halves with the flush in between, or the first half
alone when there is nothing to flush.
SOURCE: torrent_manager.rs:238-280 -/
theorem pieceFinish_eq_some_iff {s t : TorrentManagerActor} {i : ℕ} {flushed : Bool} :
    s.pieceFinish i flushed = some t ↔
      ∃ u manager, s.pieceFinishBegin i = some (u, manager) ∧
        t = manager.elim u fun m => u.pieceFinishEnd i m.pieceLength flushed := by
  unfold pieceFinish
  simp only [Option.bind_eq_bind, Option.bind_eq_some_iff, Prod.exists]
  refine exists_congr fun u => exists_congr fun manager => and_congr_right fun _ => ?_
  cases manager <;> simp [eq_comm]

/-! ## Runs -/

/-- INTERNAL: every message keeps the invariant.
SOURCE: torrent_manager.rs:113-364 -/
theorem managerInv_step {s t : TorrentManagerActor} {e : TorrentManagerMessage × Env}
    {r : TorrentManagerReply}
    (hs : ManagerInv torrent options s) (h : managerStep s e = some (t, r)) :
    ManagerInv torrent options t := by
  obtain ⟨msg, env⟩ := e
  cases msg with
  | addPeer q b =>
    obtain ⟨⟨u, b'⟩, hu, heq⟩ := Option.map_eq_some_iff.mp h
    cases heq
    exact managerInv_addPeer hs hu
  | updateBitField q i =>
    obtain ⟨u, hu, heq⟩ := Option.map_eq_some_iff.mp h
    cases heq
    exact managerInv_updateBitField hs hu
  | addBitFeild q b =>
    obtain ⟨u, hu, heq⟩ := Option.map_eq_some_iff.mp h
    cases heq
    exact managerInv_addBitFeild hs hu
  | pieceFinish q i =>
    obtain ⟨u, hu, heq⟩ := Option.map_eq_some_iff.mp h
    cases heq
    obtain ⟨v, manager, hv, rfl⟩ := pieceFinish_eq_some_iff.mp hu
    have hinv := managerInv_pieceFinishBegin hs hv
    cases manager with
    | none => exact hinv
    | some m => exact managerInv_pieceFinishEnd i m.pieceLength env.flushed hinv
  | requestWork q =>
    obtain ⟨⟨u, m⟩, hu, heq⟩ := Option.map_eq_some_iff.mp h
    cases heq
    exact managerInv_requestWork hs hu
  | updateAndGetActiveRequestCount q =>
    obtain ⟨⟨u, work⟩, hu, heq⟩ := Option.map_eq_some_iff.mp h
    cases heq
    exact managerInv_updateAndGetActiveRequestCount hs hu
  | hasUsefulPieces q =>
    obtain ⟨b, -, heq⟩ := Option.map_eq_some_iff.mp h
    cases heq
    exact hs
  | getHaveMessageProgress since =>
    obtain ⟨l, -, heq⟩ := Option.map_eq_some_iff.mp h
    cases heq
    exact hs
  | removePeer q | getTorrentStats | getActivePeers | getDataWithLength | getPieceManager =>
    cases h
    exact hs

/-- INTERNAL: every message keeps the number of pieces. -/
theorem length_frequency_of_step {s t : TorrentManagerActor} {e : TorrentManagerMessage × Env}
    {r : TorrentManagerReply} (hs : ManagerInv torrent options s)
    (h : managerStep s e = some (t, r)) :
    t.piecesFrequency.length = s.piecesFrequency.length := by
  have hnumber := (managerInv_step hs h).number_eq
  rw [hs.number_eq] at hnumber
  exact (Option.some.inj hnumber).symm

/-- INTERNAL: the first state of the manager.
SOURCE: torrent_manager.rs:41-66 -/
theorem managerInv_new {s : TorrentManagerActor}
    (h : TorrentManagerActor.new torrent options = some s) : ManagerInv torrent options s := by
  obtain ⟨numOfP, stats, hnumber, rfl⟩ := manager_new_eq_some h
  have hfreq (p : ℕ) : (List.replicate numOfP 0).getD p 0 = 0 := by
    simp only [List.getD_eq_getElem?_getD, List.getElem?_replicate]
    split_ifs <;> rfl
  have hheld : ∀ (q : String) (p : ℕ),
      ¬ ∃ b, (∅ : HashMap String Bitfield).lookup q = some b ∧ b.getD p false = true := by
    rintro q p ⟨b, hb, -⟩
    rw [Finmap.lookup_empty] at hb
    cases hb
  refine ⟨⟨?_, ?_, ?_, ?_, ?_, ?_⟩, rfl, rfl, ?_, ?_, ?_, ?_⟩
  · simp
  · intro p
    rw [frequency, hfreq]
    omega
  · intro p _
    exact hfreq p
  · intro p f
    rw [frequency, hfreq]
    simp
  · intro q p hp
    exact absurd hp (hheld q p)
  · intro q p hp
    exact absurd hp (hheld q p)
  · rw [List.length_replicate]
    exact hnumber
  · intro q hq
    exact absurd hq Finmap.notMem_empty
  · intro q l hl
    rw [Finmap.lookup_empty] at hl
    cases hl
  · intro p m hm
    rw [Finmap.lookup_empty] at hm
    cases hm

/-- INTERNAL: the invariant holds wherever a run of the manager ends. -/
theorem managerInv_run {s t : TorrentManagerActor} {es : List (TorrentManagerMessage × Env)}
    (h : TorrentManagerActor.new torrent options = some s) (hrun : run managerStep s es = some t) :
    ManagerInv torrent options t :=
  run_invariant (fun _ _ _ _ hs he => managerInv_step hs he) (managerInv_new h) hrun

/-- The torrent of one file of `n` bytes that is cut into pieces of one byte. -/
def byteTorrent (n : ℕ) (digests : Bytes) : ClientTorrentMetaInfo where
  rawTorrent := ⟨"tracker", none, ⟨"file", 1, digests, some n, none⟩⟩
  files := [⟨"file".toList, n⟩]
  infoHash := []

theorem consistent_byteTorrent {n : ℕ} {digests : Bytes} (hn : n < 2 ^ 64)
    (hdigests : digests.length = n * 20) : (byteTorrent n digests).rawTorrent.Consistent := by
  have htotal : (byteTorrent n digests).rawTorrent.totalLength = n := by
    simp [byteTorrent, MetaInfo.totalLength, MetaInfo.fileLengths, MetaInfo.files]
  have hcount : (byteTorrent n digests).rawTorrent.pieceCount = n := by
    unfold MetaInfo.pieceCount
    rw [htotal]
    simp [byteTorrent]
  refine ⟨⟨rfl, Nat.one_pos, ?_⟩, ?_⟩
  · rw [htotal]
    simpa [byteTorrent] using hn
  · rw [hcount]
    exact hdigests

/-- The manager of a torrent of one piece. -/
def onePieceStart : TorrentManagerActor :=
  (TorrentManagerActor.new (byteTorrent 1 (List.replicate 20 0)) {}).get (by decide +kernel)

theorem new_onePieceStart :
    TorrentManagerActor.new (byteTorrent 1 (List.replicate 20 0)) {} = some onePieceStart :=
  (Option.some_get _).symm

end Fissure.Analysis
