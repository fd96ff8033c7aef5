import Fissure.Analysis.ManagerInvariant

/-!
# Rarest first

`RequestWork` gives a registered peer a piece exactly when some piece is eligible for it, the
piece is one of least frequency among the eligible ones, and besides the count, the peer's work
list and the piece's manager nothing changes (`rarest_first_assignment`). Completeness rests on
the rarity index: an eligible piece is held by the peer and not owned, so it stands in a bucket,
where the search meets it.
-/

set_option autoImplicit false

namespace Fissure.Analysis

open Fissure.Library Fissure.Model
open Fissure.Model.TorrentManagerActor

/-- Piece `p` is eligible for peer `q`: the peer's recorded bitfield has it, it is not owned,
its count passes the cap and it is not in the peer's work list. -/
structure Eligible (s : TorrentManagerActor) (q : String) (p : ℕ) : Prop where
  held : Holds s q p
  unowned : ¬ Owned s p
  count : ∃ count, s.pieceConcurrencyCounts.lookup p = some count ∧
    count ≤ s.peerOptions.perPieceActivePeerCount
  unassigned : ∀ work, s.peerActiveWork.lookup q = some work → ∀ w ∈ work, w.1 ≠ p

/-- The state `t` is the state `s` with piece `p` assigned to peer `q` at the instant `now`: its
count is one more, the peer's work list has one new entry, and its manager `m` is active. -/
def AssignedOnly (s t : TorrentManagerActor) (q : String) (p : ℕ) (now : Instant)
    (m : PieceRequestManager) : Prop :=
  ∃ count work, s.pieceConcurrencyCounts.lookup p = some count ∧
    s.peerActiveWork.lookup q = some work ∧
    t = { s with
      pieceConcurrencyCounts := s.pieceConcurrencyCounts.insert p (count + 1)
      peerActiveWork := s.peerActiveWork.insert q (work ++ [(p, now)])
      activePiecesManager := if p ∈ s.activePiecesManager then s.activePiecesManager
        else s.activePiecesManager.insert p m }

variable {torrent : ClientTorrentMetaInfo} {options : PeerOptions}

/-- INTERNAL: what the search accepts is what is eligible.
SOURCE: torrent_manager.rs:148-184 -/
theorem selectable_iff_eligible {s : TorrentManagerActor} {q : String} {b : Bitfield} {p : ℕ}
    (hb : s.peerBitfields.lookup q = some b) : s.selectable q b p = true ↔ Eligible s q p := by
  rw [selectable_iff]
  constructor
  · intro h
    have hheld : Holds s q p := ⟨b, hb, h.held⟩
    exact ⟨hheld, ne_true_of_eq_false h.unowned, h.count, h.unassigned⟩
  · intro h
    obtain ⟨b', hb', hp⟩ := h.held
    rw [hb] at hb'
    cases hb'
    exact ⟨hp, eq_false_of_ne_true h.unowned, h.count, h.unassigned⟩

/-- INTERNAL: every eligible piece is in a bucket, so the search meets it.
SOURCE: torrent_manager.rs:146-148 -/
theorem mem_bucketsInOrder_of_eligible {s : TorrentManagerActor} {q : String} {p : ℕ}
    (hs : RarityIndex s) (order : IterationOrder) (h : Eligible s q p) :
    p ∈ s.bucketsInOrder order := by
  have hpos := hs.held_pos q p h.held h.unowned
  have hle := hs.frequency_le p
  rw [mem_bucketsInOrder]
  refine ⟨⟨frequency s p, by omega⟩, ?_⟩
  rw [hs.mem_bucket]
  exact ⟨rfl, hpos⟩

/-- INTERNAL: the buckets are searched in the order of the frequencies. -/
theorem pairwise_bucketsInOrder {s : TorrentManagerActor} (hs : RarityIndex s)
    (order : IterationOrder) :
    (s.bucketsInOrder order).Pairwise fun p p' => frequency s p ≤ frequency s p' := by
  apply pairwise_inBucketOrder
  intro f p hp
  rw [← Multiset.mem_coe, order.coe_list, Finset.mem_val, hs.mem_bucket] at hp
  exact hp.1.symm

/-- INTERNAL: an assignment changes nothing else.
SOURCE: torrent_manager.rs:197-224 -/
theorem assignedOnly_of_assign {s t : TorrentManagerActor} {q : String} {p fresh : ℕ}
    {now : Instant} {m : PieceRequestManager} (h : s.assign q p now fresh = some (t, m)) :
    AssignedOnly s t q p now m := by
  obtain ⟨count, work, hcount, hwork, hm, rfl⟩ := assign_eq_some_iff.mp h
  refine ⟨count, work, hcount, hwork, ?_⟩
  unfold ManagerOf at hm
  cases hactive : s.activePiecesManager.lookup p with
  | some active =>
    rw [hactive] at hm
    rw [if_pos (Finmap.mem_of_lookup_eq_some hactive), hm, HashMap.insert_lookup_self hactive]
  | none => rw [if_neg (Finmap.lookup_eq_none.mp hactive)]

/-- INTERNAL: the assignment of an eligible piece of the torrent to a registered peer does not
stop the manager.
SOURCE: torrent_manager.rs:197-224 -/
theorem assign_isSome (hmeta : torrent.rawTorrent.Consistent) {s : TorrentManagerActor}
    (hs : ManagerInv torrent options s) {q : String} (hq : q ∈ s.peerActiveWork) {p : ℕ}
    (hp : p < torrent.rawTorrent.pieceCount) (heligible : Eligible s q p) (now : Instant)
    (fresh : ℕ) : ∃ r, s.assign q p now fresh = some r := by
  obtain ⟨count, hcount, -⟩ := heligible.count
  obtain ⟨work, hwork⟩ := Finmap.mem_iff.mp hq
  have hmanager : ∃ m, ManagerOf s p fresh m := by
    unfold ManagerOf
    cases s.activePiecesManager.lookup p with
    | some active => exact ⟨active, rfl⟩
    | none =>
      rw [hs.torrent_eq]
      exact ⟨_, _, _, MetaInfo.getPieceHash_eq hmeta hp,
        MetaInfo.getPieceLength_eq hmeta.toWellSized hp, rfl⟩
  obtain ⟨m, hm⟩ := hmanager
  exact ⟨_, assign_eq_some_iff.mpr ⟨count, work, hcount, hwork, hm, rfl⟩⟩

/-- INTERNAL: a request for work of a registered peer does not stop the manager.
SOURCE: torrent_manager.rs:127-228 -/
theorem requestWork_isSome (hmeta : torrent.rawTorrent.Consistent) {s : TorrentManagerActor}
    (hs : ManagerInv torrent options s) {q : String} (hq : q ∈ s.peerActiveWork) (env : Env) :
    ∃ r, s.requestWork q env = some r := by
  obtain ⟨b, hb⟩ := Finmap.mem_iff.mp (hs.registered q hq)
  cases hfind : (s.bucketsInOrder env.order).find? (s.selectable q b) with
  | none =>
    refine ⟨(s, none), ?_⟩
    unfold requestWork
    simp only [hb, hfind]
  | some p =>
    have heligible := (selectable_iff_eligible hb).mp (List.find?_some hfind)
    obtain ⟨f, hmem⟩ := mem_bucketsInOrder.mp (List.mem_of_find?_eq_some hfind)
    have hlt := hs.rarity.lt_of_mem_bucket hmem
    rw [hs.length_frequency hmeta.toWellSized] at hlt
    obtain ⟨⟨t, m⟩, hassign⟩ := assign_isSome hmeta hs hq hlt heligible env.now env.fresh
    refine ⟨(t, some m), ?_⟩
    unfold requestWork
    simp only [hb, hfind, hassign, Option.map_some]

/-- INTERNAL: a peer without a useful piece has no eligible piece.
SOURCE: torrent_manager.rs:313-324 -/
theorem not_eligible_of_not_useful {s : TorrentManagerActor} {q : String} (hs : RarityIndex s)
    (h : s.hasUsefulPieces q = some false) (p : ℕ) : ¬ Eligible s q p := by
  intro heligible
  obtain ⟨b, hb, hp⟩ := heligible.held
  unfold hasUsefulPieces at h
  rw [hb, Option.bind_eq_bind, Option.bind_some, Option.some.injEq, decide_eq_false_iff_not,
    Bitfield.countOnes_pos_iff] at h
  apply h
  refine ⟨p, ?_⟩
  rw [Bitfield.getD_and_not]
  refine ⟨?_, eq_false_of_ne_true heligible.unowned, hp⟩
  rw [hs.length_local]
  exact hs.held_lt q p heligible.held

/-- **Rarest first.** In every state a run of the manager reaches, for every registered peer and
every order in which the sets yield their elements: `RequestWork` answers with a piece exactly
when some piece is eligible; that piece is eligible, no eligible piece is rarer, and only its
count, the peer's work list and its manager change; an answer without a piece changes nothing,
and it is the answer when `HasUsefulPieces` says there is nothing useful.
SOURCE: torrent_manager.rs:127-228, torrent_manager.rs:313-324 -/
theorem rarest_first_assignment (hmeta : torrent.rawTorrent.Consistent)
    {s₀ s : TorrentManagerActor} {es : List (TorrentManagerMessage × Env)}
    (hnew : TorrentManagerActor.new torrent options = some s₀)
    (hrun : run managerStep s₀ es = some s) {q : String} (hq : q ∈ s.peerActiveWork) (env : Env) :
    ∃ t reply, managerStep s (.requestWork q, env) = some (t, .work reply) ∧
      (reply.isSome = true ↔ ∃ p, Eligible s q p) ∧
      (∀ m, reply = some m → Eligible s q m.index ∧
        (∀ p, Eligible s q p → frequency s m.index ≤ frequency s p) ∧
        ManagesPiece torrent.rawTorrent m.index m ∧ AssignedOnly s t q m.index env.now m) ∧
      (reply = none → t = s) ∧
      ∀ u env', managerStep s (.hasUsefulPieces q, env') = some (u, .useful false) →
        reply = none := by
  have hs := managerInv_run hnew hrun
  obtain ⟨b, hb⟩ := Finmap.mem_iff.mp (hs.registered q hq)
  obtain ⟨⟨t, reply⟩, hstep⟩ := requestWork_isSome hmeta hs hq env
  refine ⟨t, reply, ?_, ?_⟩
  · change (s.requestWork q env).map _ = _
    rw [hstep]
    rfl
  rcases requestWork_eq_some hstep with ⟨rfl, rfl, hnone⟩ | ⟨b', p, m, hb', hfind, hassign, rfl⟩
  · -- the search meets every eligible piece, so there is none
    have hineligible : ∀ p, ¬ Eligible t q p := by
      intro p hp
      have hfalse := hnone b hb p (mem_bucketsInOrder_of_eligible hs.rarity env.order hp)
      rw [(selectable_iff_eligible hb).mpr hp] at hfalse
      cases hfalse
    refine ⟨?_, ?_, fun _ => rfl, fun _ _ _ => rfl⟩
    · simpa using hineligible
    · rintro m ⟨⟩
  · have heligible := (selectable_iff_eligible hb').mp (List.find?_some hfind)
    obtain ⟨count, work, -, -, hm, -⟩ := assign_eq_some_iff.mp hassign
    have hmanages := hs.managesPiece hm
    refine ⟨iff_of_true rfl ⟨p, heligible⟩, ?_, by simp, ?_⟩
    · rintro _ ⟨⟩
      rw [hmanages.index_eq]
      refine ⟨heligible, ?_, hmanages, assignedOnly_of_assign hassign⟩
      intro p' hp'
      exact rank_le_of_find? (pairwise_bucketsInOrder hs.rarity env.order) hfind
        (mem_bucketsInOrder_of_eligible hs.rarity env.order hp')
        ((selectable_iff_eligible hb').mpr hp')
    · intro u env' h
      obtain ⟨useful, huseful, heq⟩ := Option.map_eq_some_iff.mp h
      cases heq
      exact absurd heligible (not_eligible_of_not_useful hs.rarity huseful p)

/-- The manager of a torrent of two pieces after two peers have registered, one with both pieces
and one with the second piece only. -/
def twoPeersStart : TorrentManagerActor :=
  (TorrentManagerActor.new (byteTorrent 2 (List.replicate 40 0)) {}).get (by decide +kernel)

/-- The messages of the two peers. -/
def twoPeersRun : List (TorrentManagerMessage × Env) :=
  [(.addPeer "seed" [], .quiet), (.addPeer "leech" [], .quiet),
    (.addBitFeild "seed" [true, true], .quiet), (.addBitFeild "leech" [false, true], .quiet)]

/-- The state they lead to. -/
def twoPeersState : TorrentManagerActor :=
  (run managerStep twoPeersStart twoPeersRun).get (by decide +kernel)

theorem rarest_first_assignment_two_peers :
    ∃ t m, managerStep twoPeersState (.requestWork "seed", .quiet) = some (t, .work (some m)) ∧
      m.index = 0 ∧ frequency twoPeersState 0 = 1 ∧ frequency twoPeersState 1 = 2 := by
  have hb : twoPeersState.peerBitfields.lookup "seed" = some [true, true] := by decide +kernel
  have hselectable : twoPeersState.selectable "seed" [true, true] 0 = true := by decide +kernel
  have heligible := (selectable_iff_eligible hb).mp hselectable
  have hzero : frequency twoPeersState 0 = 1 := by decide +kernel
  have hone : frequency twoPeersState 1 = 2 := by decide +kernel
  obtain ⟨t, reply, hstep, hsome, hbest, -⟩ :=
    rarest_first_assignment (s := twoPeersState) (consistent_byteTorrent (by decide) (by decide))
      (Option.some_get _).symm (Option.some_get _).symm (q := "seed") (by decide +kernel) .quiet
  obtain ⟨m, rfl⟩ := Option.isSome_iff_exists.mp (hsome.mpr ⟨0, heligible⟩)
  obtain ⟨hchosen, hmin, -⟩ := hbest m rfl
  -- the peer has two pieces, and the second one is not the rarest
  obtain ⟨b, hb', hheld⟩ := hchosen.held
  rw [hb, Option.some.injEq] at hb'
  have hlt := Bitfield.lt_length_of_getD hheld
  have hmin := hmin 0 heligible
  refine ⟨t, m, hstep, ?_, hzero, hone⟩
  by_contra hne
  have hindex : m.index = 1 := by
    rw [← hb'] at hlt
    simp only [List.length_cons, List.length_nil] at hlt
    omega
  rw [hindex, hzero, hone] at hmin
  omega

end Fissure.Analysis
