import Fissure.Analysis.RarestFirst

/-!
# The books about who works on what

Four maps say which pieces are wanted, which pieces each peer works on, and which shared managers
are active. `WorkBook` is what holds among them whatever the peers do: a count for each wanted
piece, work lists of wanted pieces that are active, without repetitions. When every peer registers
before it says anything else, a peer with a recorded bitfield also has a work list
(`Registered`). The two together are why the manager never stops on a request for work or on a
time-out query (`work_bookkeeping`).
-/

set_option autoImplicit false

namespace Fissure.Analysis

open Fissure.Library Fissure.Model
open Fissure.Model.TorrentManagerActor

/-- A work list of wanted pieces that are active, each at most once. -/
structure WellListed (s : TorrentManagerActor) (work : List (ℕ × Instant)) : Prop where
  unowned : ∀ w ∈ work, ¬ Owned s w.1
  active : ∀ w ∈ work, w.1 ∈ s.activePiecesManager
  nodup : (work.map Prod.fst).Nodup

/-- The pieces with a count are the wanted ones, and every work list is well listed. -/
structure WorkBook (s : TorrentManagerActor) : Prop where
  count_iff : ∀ p, p ∈ s.pieceConcurrencyCounts ↔ p < s.piecesFrequency.length ∧ ¬ Owned s p
  listed : ∀ q work, s.peerActiveWork.lookup q = some work → WellListed s work

variable {torrent : ClientTorrentMetaInfo} {options : PeerOptions}

theorem WellListed.sublist {s : TorrentManagerActor} {work kept : List (ℕ × Instant)}
    (h : WellListed s work) (hsub : kept.Sublist work) : WellListed s kept where
  unowned w hw := h.unowned w (hsub.subset hw)
  active w hw := h.active w (hsub.subset hw)
  nodup := h.nodup.sublist (hsub.map Prod.fst)

theorem WellListed.congr {s t : TorrentManagerActor} {work : List (ℕ × Instant)}
    (h : WellListed s work) (hlocal : t.localBitfield = s.localBitfield)
    (hactive : ∀ p ∈ s.activePiecesManager, p ∈ t.activePiecesManager) : WellListed t work where
  unowned w hw := by
    have hnot := h.unowned w hw
    unfold Owned at hnot ⊢
    rwa [hlocal]
  active w hw := hactive w.1 (h.active w hw)
  nodup := h.nodup

theorem wellListed_nil (s : TorrentManagerActor) : WellListed s [] :=
  ⟨by simp, by simp, List.nodup_nil⟩

theorem mem_foldl_releaseCount {l : List ℕ} {counts : HashMap ℕ ℕ} {p : ℕ} :
    p ∈ l.foldl releaseCount counts ↔ p ∈ counts := by
  rw [← Finmap.lookup_isSome, ← Finmap.lookup_isSome, lookup_foldl_releaseCount,
    Option.isSome_map]

/-- INTERNAL: a piece that is wanted and active joins a work list without it.
SOURCE: torrent_manager.rs:215-218 -/
theorem WellListed.append {s : TorrentManagerActor} {work : List (ℕ × Instant)}
    (h : WellListed s work) {p : ℕ} (now : Instant) (hnot : ¬ Owned s p)
    (hactive : p ∈ s.activePiecesManager) (hnew : ∀ w ∈ work, w.1 ≠ p) :
    WellListed s (work ++ [(p, now)]) := by
  refine ⟨?_, ?_, ?_⟩
  · intro w hw
    rcases List.mem_append.mp hw with hw | hw
    · exact h.unowned w hw
    · rw [List.mem_singleton.mp hw]
      exact hnot
  · intro w hw
    rcases List.mem_append.mp hw with hw | hw
    · exact h.active w hw
    · rw [List.mem_singleton.mp hw]
      exact hactive
  · rw [List.map_append, List.map_singleton]
    apply List.Nodup.append h.nodup (List.nodup_singleton p)
    intro p' hp' hp
    obtain ⟨w, hw, rfl⟩ := List.mem_map.mp hp'
    exact hnew w hw (List.mem_singleton.mp hp)

/-- INTERNAL: the other entries of a work list stay well listed when a piece is finished.
SOURCE: torrent_manager.rs:252-263 -/
theorem WellListed.claim {s : TorrentManagerActor} {work : List (ℕ × Instant)} {p : ℕ}
    (h : WellListed s work) (hlt : p < s.localBitfield.length) (stats : TorrentStats)
    (log : List ℕ) (notifier : ℕ) :
    WellListed (Analysis.claim s p stats log notifier)
      ((work.filter fun w => w.1 != p).filter fun w => w.1 != p) := by
  have hsub : ((work.filter fun w => w.1 != p).filter fun w => w.1 != p).Sublist work :=
    List.filter_sublist.trans List.filter_sublist
  have hne {w : ℕ × Instant}
      (hw : w ∈ (work.filter fun w => w.1 != p).filter fun w => w.1 != p) : w.1 ≠ p := by
    simpa using (List.mem_filter.mp hw).2
  refine ⟨?_, ?_, (h.sublist hsub).nodup⟩
  · intro w hw
    rw [owned_claim hlt, not_or]
    exact ⟨hne hw, h.unowned w (hsub.subset hw)⟩
  · intro w hw
    refine Finmap.mem_erase.mpr ⟨hne hw, h.active w (hsub.subset hw)⟩

/-- INTERNAL: recording a bitfield keeps the books, whether or not the work list starts anew.
SOURCE: torrent_manager.rs:116-122, torrent_manager.rs:229-237 -/
theorem workBook_record {s : TorrentManagerActor} {q : String} {b : Bitfield} {freq : List ℕ}
    {bucket : Fin 256 → Finset ℕ} {lists : HashMap String (List (ℕ × Instant))}
    (hs : WorkBook s) (hcounted : Counted s q b freq)
    (hlists : ∀ q' work, lists.lookup q' = some work →
      work = [] ∨ s.peerActiveWork.lookup q' = some work) :
    WorkBook (record s q b freq bucket lists) := by
  refine ⟨fun p => ?_, fun q' work hwork => ?_⟩
  · have hlen : (record s q b freq bucket lists).piecesFrequency.length =
        s.piecesFrequency.length := hcounted.length_eq
    rw [hlen]
    exact hs.count_iff p
  · rcases hlists q' work hwork with rfl | hold
    · exact wellListed_nil _
    · exact (hs.listed q' work hold).congr rfl fun _ hp => hp

/-- INTERNAL: every message keeps the books in order.
SOURCE: torrent_manager.rs:113-364 -/
theorem workBook_step {s t : TorrentManagerActor} {e : TorrentManagerMessage × Env}
    {r : TorrentManagerReply} (hs : WorkBook s) (h : managerStep s e = some (t, r)) :
    WorkBook t := by
  obtain ⟨msg, env⟩ := e
  cases managerEffect h with
  | registered hcounted =>
    apply workBook_record hs hcounted
    intro q' work hwork
    rw [HashMap.lookup_insert_eq] at hwork
    split_ifs at hwork
    · exact Or.inl (Option.some.inj hwork).symm
    · exact Or.inr hwork
  | announced hcounted =>
    exact workBook_record hs hcounted fun _ _ hwork => Or.inr hwork
  | had hb hi hcounted =>
    exact workBook_record hs hcounted fun _ _ hwork => Or.inr hwork
  | @assigned q b p count work m hb hfind hcount hwork hm =>
    have hsel := selectable_iff.mp (List.find?_some hfind)
    refine ⟨fun p' => ?_, fun q' work' hwork' => ?_⟩
    · -- the piece has a count already
      have hmem := Finmap.mem_of_lookup_eq_some hcount
      rw [Finmap.mem_insert]
      refine Iff.trans ⟨?_, Or.inr⟩ (hs.count_iff p')
      rintro (rfl | hp')
      · exact hmem
      · exact hp'
    · have hactive : ∀ p' ∈ s.activePiecesManager, p' ∈ s.activePiecesManager.insert p m :=
        fun p' hp' => Finmap.mem_insert.mpr (Or.inr hp')
      change (s.peerActiveWork.insert q _).lookup q' = some work' at hwork'
      rw [HashMap.lookup_insert_eq] at hwork'
      split_ifs at hwork'
      · rw [Option.some.injEq] at hwork'
        rw [← hwork']
        have hlisted := (hs.listed q work hwork).congr (t := { s with
          activePiecesManager := s.activePiecesManager.insert p m
          pieceConcurrencyCounts := s.pieceConcurrencyCounts.insert p (count + 1)
          peerActiveWork := s.peerActiveWork.insert q (work ++ [(p, env.now)]) }) rfl hactive
        exact hlisted.append env.now (ne_true_of_eq_false hsel.unowned)
          (Finmap.mem_insert.mpr (Or.inl rfl)) (hsel.unassigned work hwork)
      · exact (hs.listed q' work' hwork').congr rfl hactive
  | @expired q work hwork =>
    refine ⟨fun p => ?_, fun q' work' hwork' => ?_⟩
    · rw [mem_foldl_releaseCount]
      exact hs.count_iff p
    · change (s.peerActiveWork.insert q _).lookup q' = some work' at hwork'
      rw [HashMap.lookup_insert_eq] at hwork'
      split_ifs at hwork'
      · rw [Option.some.injEq] at hwork'
        rw [← hwork']
        have hlisted := (hs.listed q work hwork).sublist
          (inTime_sublist s.localBitfield (fromSecs s.peerOptions.pieceRequestTimeout) env.now work)
        exact hlisted.congr rfl fun _ hp => hp
      · exact (hs.listed q' work' hwork').congr rfl fun _ hp => hp
  | @finished q p notifier stats log hlt hnot =>
    refine ⟨fun p' => ?_, fun q' work hwork => ?_⟩
    · have hlen : (claim s p stats log notifier).piecesFrequency.length =
          s.piecesFrequency.length := List.length_set ..
      rw [hlen, owned_claim hlt, not_or, and_left_comm, ← hs.count_iff]
      exact Finmap.mem_erase
    · change (retainWork (retainWork s.peerActiveWork p) p).lookup q' = some work at hwork
      rw [lookup_retainWork, lookup_retainWork, Option.map_map, Option.map_eq_some_iff] at hwork
      obtain ⟨old, hold, rfl⟩ := hwork
      exact (hs.listed q' old hold).claim hlt stats log notifier
  | unchanged => exact hs

/-- INTERNAL: all counts begin at zero.
SOURCE: torrent_manager.rs:54-56 -/
theorem count_of_new {s : TorrentManagerActor}
    (h : TorrentManagerActor.new torrent options = some s) {p count : ℕ}
    (hcount : s.pieceConcurrencyCounts.lookup p = some count) : count = 0 := by
  obtain ⟨numOfP, stats, -, rfl⟩ := manager_new_eq_some h
  dsimp only at hcount
  rw [Finmap.dlookup_list_toFinmap] at hcount
  obtain ⟨i, -, heq⟩ := List.mem_map.mp (List.of_mem_dlookup hcount)
  cases heq
  rfl

theorem workBook_new {s : TorrentManagerActor}
    (h : TorrentManagerActor.new torrent options = some s) : WorkBook s := by
  obtain ⟨numOfP, stats, -, rfl⟩ := manager_new_eq_some h
  refine ⟨fun p => ?_, fun q work hwork => ?_⟩
  · rw [Finmap.mem_list_toFinmap]
    have hnot : (Bitfield.zeros numOfP)[p]?.getD false = false := by
      rw [← List.getD_eq_getElem?_getD, Bitfield.getD_zeros]
    simp [Owned, hnot]
  · change (∅ : HashMap String (List (ℕ × Instant))).lookup q = some work at hwork
    rw [Finmap.lookup_empty] at hwork
    cases hwork

theorem workBook_run {s t : TorrentManagerActor} {es : List (TorrentManagerMessage × Env)}
    (h : TorrentManagerActor.new torrent options = some s) (hrun : run managerStep s es = some t) :
    WorkBook t :=
  run_invariant (fun _ _ _ _ hs he => workBook_step hs he) (workBook_new h) hrun

/-! ## Registration first -/

/-- The peer that a message comes from. -/
def speaker : TorrentManagerMessage → Option String
  | .addPeer q _ | .updateBitField q _ | .addBitFeild q _ | .removePeer q | .pieceFinish q _
  | .requestWork q | .updateAndGetActiveRequestCount q | .hasUsefulPieces q => some q
  | .getTorrentStats | .getActivePeers | .getDataWithLength _ _ _ | .getPieceManager _
  | .getHaveMessageProgress _ => none

/-- The peer that a message registers. -/
def registers : TorrentManagerMessage → Option String
  | .addPeer q _ => some q
  | _ => none

/-- Each peer registers before its other messages, when the peers in `known` have registered. -/
def RegistersFirst : List String → List (TorrentManagerMessage × Env) → Prop
  | _, [] => True
  | known, e :: es =>
    (∀ q ∈ speaker e.1, q ∈ known ∨ registers e.1 = some q) ∧
      RegistersFirst ((registers e.1).toList ++ known) es

instance decidableRegistersFirst : ∀ (known : List String)
    (es : List (TorrentManagerMessage × Env)), Decidable (RegistersFirst known es)
  | _, [] => isTrue trivial
  | known, e :: es =>
    have := decidableRegistersFirst ((registers e.1).toList ++ known) es
    inferInstanceAs (Decidable ((∀ q ∈ speaker e.1, _) ∧ _))

/-- Every peer with a recorded bitfield has a work list. -/
def Registered (s : TorrentManagerActor) : Prop := ∀ q ∈ s.peerBitfields, q ∈ s.peerActiveWork

/-- INTERNAL: no work list is ever dropped, and registration makes one.
SOURCE: torrent_manager.rs:113-364 -/
theorem tracked_step {s t : TorrentManagerActor} {e : TorrentManagerMessage × Env}
    {r : TorrentManagerReply} (h : managerStep s e = some (t, r)) {q : String}
    (hq : q ∈ s.peerActiveWork ∨ registers e.1 = some q) : q ∈ t.peerActiveWork := by
  obtain ⟨msg, env⟩ := e
  cases managerEffect h with
  | registered =>
    apply Finmap.mem_insert.mpr
    rcases hq with hq | hq
    · exact Or.inr hq
    · exact Or.inl (Option.some.inj hq).symm
  | announced | had => exact hq.resolve_right nofun
  | assigned | expired => exact Finmap.mem_insert.mpr (Or.inr (hq.resolve_right nofun))
  | finished => exact mem_retainWork.mpr (mem_retainWork.mpr (hq.resolve_right nofun))
  | unchanged hmsg =>
    refine hq.resolve_right fun hq => ?_
    cases msg with
    | addPeer q' b => exact (hmsg q' b 0).1 rfl
    | _ => cases hq

/-- INTERNAL: a bitfield is recorded for a peer that has a work list, when that peer registered
before.
SOURCE: torrent_manager.rs:113-364 -/
theorem registered_step {s t : TorrentManagerActor} {e : TorrentManagerMessage × Env}
    {r : TorrentManagerReply} (hs : Registered s)
    (hspeaker : ∀ q ∈ speaker e.1, q ∈ s.peerActiveWork ∨ registers e.1 = some q)
    (h : managerStep s e = some (t, r)) : Registered t := by
  intro q hq
  apply tracked_step h
  obtain ⟨msg, env⟩ := e
  have hrecord {q' : String} {b : Bitfield} {freq : List ℕ} {bucket : Fin 256 → Finset ℕ}
      {lists : HashMap String (List (ℕ × Instant))}
      (hq : q ∈ (record s q' b freq bucket lists).peerBitfields)
      (hq' : q' ∈ s.peerActiveWork ∨ registers msg = some q') :
      q ∈ s.peerActiveWork ∨ registers msg = some q := by
    rcases Finmap.mem_insert.mp hq with rfl | hq
    · exact hq'
    · exact Or.inl (hs q hq)
  cases managerEffect h with
  | registered | announced | had => exact hrecord hq (hspeaker _ rfl)
  | _ => exact Or.inl (hs q hq)

/-- INTERNAL: along a run in which each peer registers first, every peer with a recorded bitfield
has a work list. The induction is on the messages; the known peers have work lists.
SOURCE: peer_protocol_state_machine.rs:163-165 -/
theorem registered_run {known : List String} {s t : TorrentManagerActor}
    {es : List (TorrentManagerMessage × Env)} (hs : Registered s)
    (hknown : ∀ q ∈ known, q ∈ s.peerActiveWork) (hfirst : RegistersFirst known es)
    (hrun : run managerStep s es = some t) : Registered t := by
  induction es generalizing known s with
  | nil =>
    cases hrun
    exact hs
  | cons e es ih =>
    obtain ⟨u, r, he, hrun⟩ := run_cons_eq_some.mp hrun
    have hspeaker : ∀ q ∈ speaker e.1, q ∈ s.peerActiveWork ∨ registers e.1 = some q :=
      fun q hq => (hfirst.1 q hq).imp_left (hknown q)
    refine ih (registered_step hs hspeaker he) ?_ hfirst.2 hrun
    intro q hq
    apply tracked_step he
    rcases List.mem_append.mp hq with hq | hq
    · exact Or.inr (Option.mem_toList.mp hq)
    · exact Or.inl (hknown q hq)

/-- **Work bookkeeping.** For a torrent with consistent metainfo, in every state that a run reaches
in which each peer registers before its other messages: the pieces with a count are the pieces of
the torrent that are not owned; no owned piece is in a work list or active; every piece in a work
list is active; no work list has a piece twice; every peer with a recorded bitfield has a work
list. So neither a request for work nor a time-out query, of any peer, stops the manager.
SOURCE: torrent_manager.rs:41-66, torrent_manager.rs:127-228, torrent_manager.rs:238-312 -/
theorem work_bookkeeping (hmeta : torrent.rawTorrent.Consistent) {s₀ s : TorrentManagerActor}
    {es : List (TorrentManagerMessage × Env)}
    (hnew : TorrentManagerActor.new torrent options = some s₀) (hfirst : RegistersFirst [] es)
    (hrun : run managerStep s₀ es = some s) :
    (∀ p, p ∈ s.pieceConcurrencyCounts ↔ p < torrent.rawTorrent.pieceCount ∧ ¬ Owned s p) ∧
      (∀ q work, s.peerActiveWork.lookup q = some work → ∀ w ∈ work, ¬ Owned s w.1) ∧
      (∀ p ∈ s.activePiecesManager, ¬ Owned s p) ∧
      (∀ q work, s.peerActiveWork.lookup q = some work → ∀ w ∈ work,
        w.1 ∈ s.activePiecesManager) ∧
      (∀ q work, s.peerActiveWork.lookup q = some work → (work.map Prod.fst).Nodup) ∧
      (∀ q ∈ s.peerBitfields, q ∈ s.peerActiveWork) ∧
      (∀ q env, ∃ t r, managerStep s (.requestWork q, env) = some (t, r)) ∧
      ∀ q env, ∃ t r, managerStep s (.updateAndGetActiveRequestCount q, env) = some (t, r) := by
  have hs := managerInv_run hnew hrun
  have hbook := workBook_run hnew hrun
  have hstart : Registered s₀ := by
    obtain ⟨numOfP, stats, -, rfl⟩ := manager_new_eq_some hnew
    intro q hq
    exact absurd hq Finmap.notMem_empty
  have hregistered := registered_run hstart (by simp) hfirst hrun
  refine ⟨fun p => ?_, fun q work hwork => (hbook.listed q work hwork).unowned, ?_,
    fun q work hwork => (hbook.listed q work hwork).active,
    fun q work hwork => (hbook.listed q work hwork).nodup, hregistered, fun q env => ?_,
    fun q env => ?_⟩
  · rw [← hs.length_frequency hmeta.toWellSized]
    exact hbook.count_iff p
  · intro p hp
    obtain ⟨m, hm⟩ := Finmap.mem_iff.mp hp
    exact (hs.active p m hm).2.2
  · by_cases hq : q ∈ s.peerBitfields
    · obtain ⟨x, hx⟩ := requestWork_isSome hmeta hs (hregistered q hq) env
      exact ⟨x.1, _, Option.map_eq_some_iff.mpr ⟨x, hx, rfl⟩⟩
    · -- nothing is known of the peer
      have hnone := Finmap.lookup_eq_none.mpr hq
      have hx : s.requestWork q env = some (s, none) := by
        unfold requestWork
        rw [hnone]
      exact ⟨s, _, Option.map_eq_some_iff.mpr ⟨_, hx, rfl⟩⟩
  · obtain ⟨x, hx⟩ := updateAndGetActiveRequestCount_isSome hs q env.now
    exact ⟨x.1, _, Option.map_eq_some_iff.mpr ⟨x, hx, rfl⟩⟩

theorem work_bookkeeping_two_peers :
    ∃ t r, managerStep twoPeersState (.requestWork "leech", .quiet) = some (t, r) := by
  have hbook := work_bookkeeping (s := twoPeersState)
    (consistent_byteTorrent (by decide) (by decide)) (Option.some_get _).symm
    (by decide +kernel : RegistersFirst [] twoPeersRun) (Option.some_get _).symm
  exact hbook.2.2.2.2.2.2.1 "leech" .quiet

end Fissure.Analysis
