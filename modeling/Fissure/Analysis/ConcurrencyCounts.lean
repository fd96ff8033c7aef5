import Fissure.Analysis.Availability
import Fissure.Analysis.WorkBookkeeping

/-!
# The concurrency counts and the cap

The count of a piece is a copy of something else, the number of peers whose work list has the
piece. `WorkMove` says how the two move together for a wanted piece: they go up with an assignment
and down with a time-out, but a registration empties a work list and leaves the counts. So counts
and work lists agree along exactly those runs in which no peer registers anew while it works on
something (`counts_match_iff`).

The search compares a count with the cap by `<=`. A piece on which as many peers work as the cap
allows passes, and one more gets it (`cap_exceeded`); the cap holds along exactly the runs in which
no request finds such a piece first (`within_cap_iff`).
-/

set_option autoImplicit false

namespace Fissure.Analysis

open Fissure.Library Fissure.Model
open Fissure.Model.TorrentManagerActor

variable {torrent : ClientTorrentMetaInfo} {options : PeerOptions}

/-! ## The peers that work on a piece -/

/-- The peers whose work list has piece `p`. -/
def workers (lists : HashMap String (List (ℕ × Instant))) (p : ℕ) : Finset String :=
  lists.keys.filter fun q => p ∈ ((lists.lookup q).getD []).map Prod.fst

theorem mem_workers {lists : HashMap String (List (ℕ × Instant))} {p : ℕ} {q : String} :
    q ∈ workers lists p ↔ ∃ work, lists.lookup q = some work ∧ ∃ w ∈ work, w.1 = p := by
  unfold workers
  rw [Finset.mem_filter, Finmap.mem_keys, ← Finmap.lookup_isSome]
  cases lists.lookup q with
  | none => simp
  | some work => simp

theorem workers_insert (lists : HashMap String (List (ℕ × Instant))) (q : String)
    (work : List (ℕ × Instant)) (p : ℕ) :
    workers (lists.insert q work) p =
      if ∃ w ∈ work, w.1 = p then insert q (workers lists p) else (workers lists p).erase q := by
  ext q'
  rw [mem_workers, HashMap.lookup_insert_eq]
  by_cases hq : q' = q
  · subst hq
    rw [if_pos rfl]
    split_ifs with hp
    · exact iff_of_true ⟨work, rfl, hp⟩ (Finset.mem_insert_self q' _)
    · refine iff_of_false ?_ (Finset.notMem_erase q' _)
      rintro ⟨_, ⟨⟩, hp'⟩
      exact hp hp'
  · rw [if_neg hq, ← mem_workers]
    split_ifs
    · rw [Finset.mem_insert, or_iff_right hq]
    · rw [Finset.mem_erase, and_iff_right hq]

/-- How the count of piece `p` and the peers that work on it move in one step. -/
inductive WorkMove (s t : TorrentManagerActor) (e : TorrentManagerMessage × Env) (p : ℕ) : Prop
  | still
      (hcount : t.pieceConcurrencyCounts.lookup p = s.pieceConcurrencyCounts.lookup p)
      (hworkers : workers t.peerActiveWork p = workers s.peerActiveWork p)
  | assigned (q : String) (b : Bitfield) (count : ℕ) (m : PieceRequestManager)
      (he : e.1 = .requestWork q) (htracked : q ∈ s.peerActiveWork)
      (hb : s.peerBitfields.lookup q = some b)
      (hfind : (s.bucketsInOrder e.2.order).find? (s.selectable q b) = some p)
      (hm : ManagerOf s p e.2.fresh m)
      (hold : s.pieceConcurrencyCounts.lookup p = some count)
      (hcount : t.pieceConcurrencyCounts.lookup p = some (count + 1))
      (hq : q ∉ workers s.peerActiveWork p)
      (hworkers : workers t.peerActiveWork p = insert q (workers s.peerActiveWork p))
  | released (q : String) (hq : q ∈ workers s.peerActiveWork p)
      (hcount : t.pieceConcurrencyCounts.lookup p =
        (s.pieceConcurrencyCounts.lookup p).map fun count => count - 1)
      (hworkers : workers t.peerActiveWork p = (workers s.peerActiveWork p).erase q)
  | forgotten (q : String) (he : registers e.1 = some q)
      (hcount : t.pieceConcurrencyCounts.lookup p = s.pieceConcurrencyCounts.lookup p)
      (hworkers : workers t.peerActiveWork p = (workers s.peerActiveWork p).erase q)

theorem workers_retainWork (lists : HashMap String (List (ℕ × Instant))) {p p' : ℕ}
    (hne : p' ≠ p) : workers (retainWork lists p) p' = workers lists p' := by
  ext q
  rw [mem_workers, mem_workers, lookup_retainWork]
  cases lists.lookup q with
  | none => simp
  | some work =>
    simp only [Option.map_some, Option.some.injEq, exists_eq_left', List.mem_filter, bne_iff_ne]
    constructor
    · rintro ⟨w, hw, hp⟩
      exact ⟨w, hw.1, hp⟩
    · rintro ⟨w, hw, rfl⟩
      exact ⟨w, ⟨hw, hne⟩, rfl⟩

theorem mem_keptWork {s : TorrentManagerActor} {now : Instant} {work : List (ℕ × Instant)}
    {w : ℕ × Instant} : w ∈ keptWork s now work ↔ w ∈ work ∧ ¬ Owned s w.1 ∧
      timedOut (fromSecs s.peerOptions.pieceRequestTimeout) now w = false := by
  unfold keptWork inTime Owned
  rw [List.mem_filter, Bool.and_eq_true, Bool.not_eq_true', Bool.not_eq_true', Bool.not_eq_true]

theorem mem_releasedPieces {s : TorrentManagerActor} {now : Instant}
    {work : List (ℕ × Instant)} {p : ℕ} :
    p ∈ releasedPieces s now work ↔ ∃ w ∈ work, w.1 = p ∧ ¬ Owned s p ∧
      timedOut (fromSecs s.peerOptions.pieceRequestTimeout) now w = true := by
  unfold releasedPieces givenBack Owned
  simp only [List.mem_map, List.mem_filter, Bool.and_eq_true, Bool.not_eq_true',
    Bool.not_eq_true]
  constructor
  · rintro ⟨w, ⟨hw, hnot, hlate⟩, rfl⟩
    exact ⟨w, hw, rfl, hnot, hlate⟩
  · rintro ⟨w, hw, rfl, hnot, hlate⟩
    exact ⟨w, ⟨hw, hnot, hlate⟩, rfl⟩

theorem nodup_releasedPieces {s : TorrentManagerActor} {work : List (ℕ × Instant)}
    (h : WellListed s work) (now : Instant) : (releasedPieces s now work).Nodup :=
  h.nodup.sublist (List.filter_sublist.map Prod.fst)

/-- INTERNAL: a time-out query takes a wanted piece off the list and off the count together. A
work list has the piece once at most, so one entry decides.
SOURCE: torrent_manager.rs:281-312 -/
theorem workMove_expired {s : TorrentManagerActor} {q : String} {work : List (ℕ × Instant)}
    (hwork : s.peerActiveWork.lookup q = some work) (hlisted : WellListed s work)
    (now : Instant) {p : ℕ} (hp : ¬ Owned s p) (e : TorrentManagerMessage × Env) :
    WorkMove s { s with
      peerActiveWork := s.peerActiveWork.insert q (keptWork s now work)
      pieceConcurrencyCounts :=
        (releasedPieces s now work).foldl releaseCount s.pieceConcurrencyCounts } e p := by
  have hwas : q ∈ workers s.peerActiveWork p ↔ ∃ w ∈ work, w.1 = p := by
    rw [mem_workers, hwork]
    simp
  have hkept : (∃ w ∈ keptWork s now work, w.1 = p) ↔
      (∃ w ∈ work, w.1 = p) ∧ p ∉ releasedPieces s now work := by
    rw [mem_releasedPieces]
    constructor
    · rintro ⟨w, hw, rfl⟩
      rw [mem_keptWork] at hw
      refine ⟨⟨w, hw.1, rfl⟩, ?_⟩
      rintro ⟨w', hw', heq, -, hlate⟩
      rw [List.inj_on_of_nodup_map hlisted.nodup hw' hw.1 heq, hw.2.2] at hlate
      cases hlate
    · rintro ⟨⟨w, hw, rfl⟩, hnot⟩
      refine ⟨w, mem_keptWork.mpr ⟨hw, hp, ?_⟩, rfl⟩
      exact eq_false_of_ne_true fun hlate => hnot ⟨w, hw, rfl, hp, hlate⟩
  have hworkers := workers_insert s.peerActiveWork q (keptWork s now work) p
  by_cases hreleased : p ∈ releasedPieces s now work
  · rw [if_neg fun h => (hkept.mp h).2 hreleased] at hworkers
    refine .released q ?_ ?_ hworkers
    · obtain ⟨w, hw, hwp, -⟩ := mem_releasedPieces.mp hreleased
      exact hwas.mpr ⟨w, hw, hwp⟩
    · rw [lookup_foldl_releaseCount,
        List.count_eq_one_of_mem (nodup_releasedPieces hlisted now) hreleased]
  · refine .still ?_ ?_
    · rw [lookup_foldl_releaseCount, List.count_eq_zero_of_not_mem hreleased]
      exact Option.map_id'
    · refine hworkers.trans ?_
      simp only [hkept, hreleased, not_false_eq_true, and_true, ← hwas]
      split_ifs with hq
      · exact Finset.insert_eq_of_mem hq
      · exact Finset.erase_eq_of_notMem hq

/-- INTERNAL: every message moves the count of a piece that stays wanted and its workers so.
SOURCE: torrent_manager.rs:113-364 -/
theorem workMove {s t : TorrentManagerActor} {e : TorrentManagerMessage × Env}
    {r : TorrentManagerReply} (hs : WorkBook s) (h : managerStep s e = some (t, r)) {p : ℕ}
    (hp : ¬ Owned t p) : WorkMove s t e p := by
  obtain ⟨msg, env⟩ := e
  cases managerEffect h with
  | @registered q =>
    refine .forgotten q rfl rfl ?_
    exact (workers_insert s.peerActiveWork q [] p).trans (if_neg (by simp))
  | announced | had | unchanged => exact .still rfl rfl
  | @assigned q b i count work m hb hfind hcount hwork hm =>
    have hsel := selectable_iff.mp (List.find?_some hfind)
    have hwas : q ∈ workers s.peerActiveWork p ↔ ∃ w ∈ work, w.1 = p := by
      rw [mem_workers, hwork]
      simp
    by_cases hpi : p = i
    · subst hpi
      refine .assigned q b count m rfl (Finmap.mem_of_lookup_eq_some hwork) hb hfind hm hcount
        (Finmap.lookup_insert _) ?_ ?_
      · rw [hwas]
        rintro ⟨w, hw, hwp⟩
        exact hsel.unassigned work hwork w hw hwp
      · refine (workers_insert s.peerActiveWork q _ p).trans (if_pos ?_)
        exact ⟨(p, env.now), by simp, rfl⟩
    · refine .still ?_ ?_
      · exact (HashMap.lookup_insert_eq ..).trans (if_neg hpi)
      · -- the new entry is for another piece
        refine (workers_insert s.peerActiveWork q _ p).trans ?_
        have hiff : (∃ w ∈ work ++ [(i, env.now)], w.1 = p) ↔ ∃ w ∈ work, w.1 = p := by
          simp [Ne.symm hpi]
        simp only [hiff, ← hwas]
        split_ifs with hq
        · exact Finset.insert_eq_of_mem hq
        · exact Finset.erase_eq_of_notMem hq
  | expired hwork => exact workMove_expired hwork (hs.listed _ _ hwork) env.now hp _
  | @finished q i notifier stats log hlt hnot =>
    rw [owned_claim hlt, not_or] at hp
    refine .still ?_ ?_
    · exact (HashMap.lookup_erase_eq ..).trans (if_neg hp.1)
    · exact (workers_retainWork _ hp.1).trans (workers_retainWork _ hp.1)

/-! ## Counts and work lists -/

/-- The count of every wanted piece is the number of peers whose work list has it. -/
def CountsMatch (s : TorrentManagerActor) : Prop :=
  ∀ p < s.piecesFrequency.length, ¬ Owned s p →
    s.pieceConcurrencyCounts.lookup p = some (workers s.peerActiveWork p).card

/-- A peer that registers, with a bitfield whose bits all stand for pieces, is not tracked or has
nothing in its work list. -/
def RegistersIdle (s : TorrentManagerActor) : TorrentManagerMessage × Env → Prop
  | (.addPeer q b, _) => (∀ p ∈ b.iterOnes, p < s.piecesFrequency.length) →
    ∀ work ∈ s.peerActiveWork.lookup q, work = []
  | _ => True

instance (s : TorrentManagerActor) :
    (e : TorrentManagerMessage × Env) → Decidable (RegistersIdle s e)
  | (.addPeer _ b, _) => inferInstanceAs (Decidable ((∀ p ∈ b.iterOnes, _) → _))
  | (.updateBitField .., _) | (.addBitFeild .., _) | (.removePeer .., _)
  | (.pieceFinish .., _) | (.requestWork .., _) | (.getTorrentStats, _)
  | (.updateAndGetActiveRequestCount .., _) | (.hasUsefulPieces .., _) | (.getActivePeers, _)
  | (.getDataWithLength .., _) | (.getPieceManager .., _) | (.getHaveMessageProgress .., _) =>
    isTrue trivial

theorem registers_eq_some {msg : TorrentManagerMessage} {q : String}
    (h : registers msg = some q) : ∃ b, msg = .addPeer q b := by
  cases msg with
  | addPeer q' b =>
    cases h
    exact ⟨b, rfl⟩
  | _ => cases h

/-- INTERNAL: from a state in which counts and work lists agree, a message leads to such a state
exactly when it registers nobody who works on something.
SOURCE: torrent_manager.rs:116-122, torrent_manager.rs:207-223, torrent_manager.rs:281-312 -/
theorem countsMatch_step_iff {s : TorrentManagerActor} {e : TorrentManagerMessage × Env}
    (hs : ManagerInv torrent options s) (hbook : WorkBook s) (hmatch : CountsMatch s) :
    (∀ t r, managerStep s e = some (t, r) → CountsMatch t) ↔ RegistersIdle s e := by
  constructor
  · intro hnext
    obtain ⟨msg, env⟩ := e
    cases msg with
    | addPeer q b =>
      intro hbits work hwork
      apply List.eq_nil_iff_forall_not_mem.mpr
      intro w hw
      have hnot := (hbook.listed q work hwork).unowned w hw
      have hlt := hs.work_lt q work hwork w hw
      have hworks : q ∈ workers s.peerActiveWork w.1 := mem_workers.mpr ⟨work, hwork, w, hw, rfl⟩
      have hmsg : replaces (.addPeer q b) = some (q, b) := rfl
      obtain ⟨t, r, h⟩ := replaces_isSome hmsg hbits env
      have hlen := length_frequency_of_step hs h
      cases managerEffect h with
      | registered =>
        -- the piece lost a worker, and its count did not move
        have hcount := hnext _ _ h w.1 (hlen.symm ▸ hlt) hnot
        change s.pieceConcurrencyCounts.lookup w.1 =
          some (workers (s.peerActiveWork.insert q []) w.1).card at hcount
        rw [workers_insert, if_neg (by simp), hmatch w.1 hlt hnot, Option.some.injEq] at hcount
        have hcard := Finset.card_erase_add_one hworks
        omega
      | unchanged hnone => exact (hnone q b 0).1 rfl
    | _ => trivial
  · intro hidle t r h p hp hnot
    have hnot' : ¬ Owned s p := fun hown => hnot (owned_of_step h hown)
    rw [length_frequency_of_step hs h] at hp
    have hcount := hmatch p hp hnot'
    cases workMove hbook h hnot with
    | still hcount' hworkers => rw [hcount', hworkers, hcount]
    | assigned q b count m _ _ _ _ _ hold hcount' hq hworkers =>
      rw [hcount, Option.some.injEq] at hold
      rw [hcount', hworkers, Finset.card_insert_of_notMem hq, hold]
    | released q hq hcount' hworkers =>
      rw [hcount', hworkers, Finset.card_erase_of_mem hq, hcount, Option.map_some]
    | forgotten q he hcount' hworkers =>
      obtain ⟨msg, env⟩ := e
      obtain ⟨b, rfl⟩ := registers_eq_some he
      have hq : q ∉ workers s.peerActiveWork p := by
        rw [mem_workers]
        rintro ⟨work, hwork, w, hw, -⟩
        rw [hidle (bits_lt_of_replaces hs rfl h) work hwork] at hw
        exact absurd hw List.not_mem_nil
      rw [hcount', hworkers, Finset.erase_eq_of_notMem hq, hcount]

theorem countsMatch_new {s : TorrentManagerActor}
    (h : TorrentManagerActor.new torrent options = some s) : CountsMatch s := by
  intro p hp hnot
  obtain ⟨count, hcount⟩ := Finmap.mem_iff.mp (((workBook_new h).count_iff p).mpr ⟨hp, hnot⟩)
  rw [hcount, count_of_new h hcount]
  obtain ⟨numOfP, stats, -, rfl⟩ := manager_new_eq_some h
  rfl

/-- INTERNAL: the invariant of the manager and its books together. -/
theorem inv_workBook_step (s : TorrentManagerActor) (e : TorrentManagerMessage × Env)
    (t : TorrentManagerActor) (r : TorrentManagerReply)
    (hs : ManagerInv torrent options s ∧ WorkBook s) (h : managerStep s e = some (t, r)) :
    ManagerInv torrent options t ∧ WorkBook t :=
  ⟨managerInv_step hs.1 h, workBook_step hs.2 h⟩

/-- **Concurrency accounting, exactly when no busy peer registers.** Along a run of the manager the
count of every wanted piece is the number of peers whose work list has it, in every state, if and
only if every peer that registers, with a bitfield whose bits all stand for pieces, is new or has
nothing in its work list.
SOURCE: torrent_manager.rs:116-122, torrent_manager.rs:207-223, torrent_manager.rs:252-261,
torrent_manager.rs:281-312 -/
theorem counts_match_iff {s : TorrentManagerActor}
    (hnew : TorrentManagerActor.new torrent options = some s)
    (es : List (TorrentManagerMessage × Env)) :
    AllStates managerStep CountsMatch s es ↔ AllSteps managerStep RegistersIdle s es :=
  allStates_iff_allSteps (fun s => ManagerInv torrent options s ∧ WorkBook s) inv_workBook_step
    (fun _ _ hs hmatch => countsMatch_step_iff hs.1 hs.2 hmatch)
    ⟨managerInv_new hnew, workBook_new hnew⟩ (countsMatch_new hnew)

/-- A peer registers, announces the only piece, gets it and registers again. -/
def busyRun : List (TorrentManagerMessage × Env) :=
  announcedRun ++ [(.requestWork "seed", .quiet), (.addPeer "seed" [], .quiet)]

/-- The state it leads to. -/
def busyState : TorrentManagerActor :=
  (run managerStep onePieceStart busyRun).get (by decide +kernel)

/-- The piece counts a peer that does not work on it any more. -/
theorem count_leaked :
    run managerStep onePieceStart busyRun = some busyState ∧ ¬ Owned busyState 0 ∧
      busyState.pieceConcurrencyCounts.lookup 0 = some 1 ∧
      workers busyState.peerActiveWork 0 = ∅ ∧ ¬ CountsMatch busyState := by
  have hnot : ¬ Owned busyState 0 := by decide +kernel
  have hcount : busyState.pieceConcurrencyCounts.lookup 0 = some 1 := by decide +kernel
  have hworkers : workers busyState.peerActiveWork 0 = ∅ := by decide +kernel
  refine ⟨(Option.some_get _).symm, hnot, hcount, hworkers, fun hmatch => ?_⟩
  have hmatch := hmatch 0 (by decide +kernel) hnot
  rw [hcount, hworkers] at hmatch
  cases hmatch

/-- Without the second registration the count is right all along. -/
theorem counts_match_iff_one_registration :
    AllStates managerStep CountsMatch onePieceStart
      (announcedRun ++ [(.requestWork "seed", .quiet)]) := by
  have hidle : AllSteps managerStep RegistersIdle onePieceStart
      (announcedRun ++ [(.requestWork "seed", .quiet)]) := by decide +kernel
  exact (counts_match_iff new_onePieceStart _).mpr hidle

/-! ## The cap -/

/-- No piece has more workers than the cap allows. -/
def WithinCap (s : TorrentManagerActor) : Prop :=
  ∀ p, (workers s.peerActiveWork p).card ≤ s.peerOptions.perPieceActivePeerCount

/-- The piece has a shared manager, or one can be made from the metainfo. -/
def Manageable (s : TorrentManagerActor) (p : ℕ) : Prop :=
  p ∈ s.activePiecesManager ∨ (s.clientTorrentMeta.rawTorrent.getPieceHash p).isSome = true ∧
    (s.clientTorrentMeta.rawTorrent.getPieceLength p).isSome = true

instance (s : TorrentManagerActor) (p : ℕ) : Decidable (Manageable s p) :=
  inferInstanceAs (Decidable (_ ∨ _))

/-- When a tracked peer asks for work, the first piece in bucket order that passes the test of the
search, if it can be managed, is not one on which exactly as many peers work as the cap allows. -/
def SkipsFullPiece (s : TorrentManagerActor) : TorrentManagerMessage × Env → Prop
  | (.requestWork q, env) => q ∈ s.peerActiveWork → ∀ b ∈ s.peerBitfields.lookup q,
    ∀ i, ∀ hi : i < (s.bucketsInOrder env.order).length,
      s.selectable q b ((s.bucketsInOrder env.order)[i]) = true →
      (∀ j, ∀ hj : j < i, s.selectable q b ((s.bucketsInOrder env.order)[j]) = false) →
      Manageable s ((s.bucketsInOrder env.order)[i]) →
      (workers s.peerActiveWork ((s.bucketsInOrder env.order)[i])).card ≠
        s.peerOptions.perPieceActivePeerCount
  | _ => True

instance (s : TorrentManagerActor) :
    (e : TorrentManagerMessage × Env) → Decidable (SkipsFullPiece s e)
  | (.requestWork q, _) => inferInstanceAs (Decidable (q ∈ s.peerActiveWork → _))
  | (.updateBitField .., _) | (.addBitFeild .., _) | (.removePeer .., _)
  | (.pieceFinish .., _) | (.addPeer .., _) | (.getTorrentStats, _)
  | (.updateAndGetActiveRequestCount .., _) | (.hasUsefulPieces .., _) | (.getActivePeers, _)
  | (.getDataWithLength .., _) | (.getPieceManager .., _) | (.getHaveMessageProgress .., _) =>
    isTrue trivial

/-- INTERNAL: the search finds the first piece that passes. -/
theorem find?_eq_some_iff_first {s : TorrentManagerActor} {q : String} {b : Bitfield}
    {l : List ℕ} {p : ℕ} : l.find? (s.selectable q b) = some p ↔
      ∃ i, ∃ hi : i < l.length, l[i] = p ∧ s.selectable q b (l[i]) = true ∧
        ∀ j, ∀ hj : j < i, s.selectable q b (l[j]) = false := by
  rw [List.find?_eq_some_iff_getElem]
  constructor
  · rintro ⟨hp, i, hi, rfl, hbefore⟩
    exact ⟨i, hi, rfl, hp, fun j hj => by simpa using hbefore j hj⟩
  · rintro ⟨i, hi, rfl, hp, hbefore⟩
    exact ⟨hp, i, hi, rfl, fun j hj => by simpa using hbefore j hj⟩

theorem manageable_iff {s : TorrentManagerActor} {p : ℕ} (fresh : ℕ) :
    Manageable s p ↔ ∃ m, ManagerOf s p fresh m := by
  unfold Manageable ManagerOf
  rw [← Finmap.lookup_isSome]
  cases s.activePiecesManager.lookup p with
  | some active => simp
  | none =>
    simp only [Option.isSome_none, Bool.false_eq_true, false_or, Option.isSome_iff_exists]
    constructor
    · rintro ⟨⟨hash, hhash⟩, len, hlen⟩
      exact ⟨_, hash, len, hhash, hlen, rfl⟩
    · rintro ⟨m, hash, len, hhash, hlen, -⟩
      exact ⟨⟨hash, hhash⟩, len, hlen⟩

theorem workers_eq_empty_of_owned {s : TorrentManagerActor} (hs : WorkBook s) {p : ℕ}
    (hp : Owned s p) : workers s.peerActiveWork p = ∅ := by
  apply Finset.eq_empty_of_forall_notMem
  intro q hq
  obtain ⟨work, hwork, w, hw, rfl⟩ := mem_workers.mp hq
  exact (hs.listed q work hwork).unowned w hw hp

/-- INTERNAL: from a state within the cap, a message leads to such a state exactly when it does
not ask for work where a full piece passes first.
SOURCE: torrent_manager.rs:148-184, torrent_manager.rs:207-223 -/
theorem withinCap_step_iff {s : TorrentManagerActor} {e : TorrentManagerMessage × Env}
    (hs : ManagerInv torrent options s) (hbook : WorkBook s) (hcap : WithinCap s) :
    (∀ t r, managerStep s e = some (t, r) → WithinCap t) ↔ SkipsFullPiece s e := by
  obtain ⟨msg, env⟩ := e
  constructor
  · intro hnext
    cases msg with
    | requestWork q =>
      intro htracked b hb i hi hsel hbefore hmanageable heq
      obtain ⟨m, hm⟩ := (manageable_iff env.fresh).mp hmanageable
      obtain ⟨work, hwork⟩ := Finmap.mem_iff.mp htracked
      have hselected := selectable_iff.mp hsel
      obtain ⟨count, hcount, -⟩ := hselected.count
      have hfind := find?_eq_some_iff_first.mpr ⟨i, hi, rfl, hsel, hbefore⟩
      have hnot : q ∉ workers s.peerActiveWork (s.bucketsInOrder env.order)[i] := by
        rw [mem_workers]
        rintro ⟨work', hwork', w, hw, hwp⟩
        exact hselected.unassigned work' hwork' w hw hwp
      -- the assignment would give the piece one worker too many
      have hnext := hnext _ _ (managerStep_assigned hb hfind hcount hwork hm)
        ((s.bucketsInOrder env.order)[i])
      rw [workers_insert, if_pos ⟨_, List.mem_append_right _ (List.mem_singleton_self _), rfl⟩,
        Finset.card_insert_of_notMem hnot, heq] at hnext
      exact absurd hnext (Nat.not_succ_le_self _)
    | _ => trivial
  · intro hskips t r h p
    have hoptions : t.peerOptions = s.peerOptions :=
      (managerInv_step hs h).options_eq.trans hs.options_eq.symm
    have hbefore := hcap p
    rw [hoptions]
    by_cases hp : Owned t p
    · rw [workers_eq_empty_of_owned (workBook_step hbook h) hp]
      exact Nat.zero_le _
    cases workMove hbook h hp with
    | still hcount hworkers =>
      rw [hworkers]
      exact hbefore
    | released q hq hcount hworkers | forgotten q he hcount hworkers =>
      rw [hworkers]
      exact (Finset.card_le_card (Finset.erase_subset ..)).trans hbefore
    | assigned q b count m he htracked hb hfind hm hold hcount hq hworkers =>
      cases he
      obtain ⟨i, hi, rfl, hsel, hfirst⟩ := find?_eq_some_iff_first.mp hfind
      have hne := hskips htracked b hb i hi hsel hfirst ((manageable_iff _).mpr ⟨m, hm⟩)
      rw [hworkers, Finset.card_insert_of_notMem hq]
      exact Nat.lt_of_le_of_ne hbefore hne

/-- **The cap, exactly when no full piece is found first.** Along a run of the manager no piece is
ever in the work lists of more peers than the cap allows, in every state, if and only if no
request of a tracked peer finds as the first piece that passes the test of the search one on which
exactly as many peers work as the cap allows.
SOURCE: torrent_manager.rs:165-173, torrent_manager.rs:207-223, torrent_manager.rs:281-312 -/
theorem within_cap_iff {s : TorrentManagerActor}
    (hnew : TorrentManagerActor.new torrent options = some s)
    (es : List (TorrentManagerMessage × Env)) :
    AllStates managerStep WithinCap s es ↔ AllSteps managerStep SkipsFullPiece s es := by
  have hstart : WithinCap s := by
    obtain ⟨numOfP, stats, -, rfl⟩ := manager_new_eq_some hnew
    intro p
    exact Nat.zero_le _
  exact allStates_iff_allSteps (fun s => ManagerInv torrent options s ∧ WorkBook s)
    inv_workBook_step (fun _ _ hs hcap => withinCap_step_iff hs.1 hs.2 hcap)
    ⟨managerInv_new hnew, workBook_new hnew⟩ hstart

/-- A peer registers, announces the only piece and asks for work. -/
def requestedBy (q : String) : List (TorrentManagerMessage × Env) :=
  [(.addPeer q [], .quiet), (.addBitFeild q [true], .quiet), (.requestWork q, .quiet)]

/-- The state after six peers have asked for the only piece. -/
def crowdedState : TorrentManagerActor :=
  (run managerStep onePieceStart (["a", "b", "c", "d", "e", "f"].flatMap requestedBy)).get
    (by decide +kernel)

/-- Six peers work on one piece although the cap is five. -/
theorem cap_exceeded :
    run managerStep onePieceStart (["a", "b", "c", "d", "e", "f"].flatMap requestedBy) =
        some crowdedState ∧
      crowdedState.peerOptions.perPieceActivePeerCount = 5 ∧
      (workers crowdedState.peerActiveWork 0).card = 6 ∧ ¬ WithinCap crowdedState := by
  have hcap : crowdedState.peerOptions.perPieceActivePeerCount = 5 := by decide +kernel
  have hworkers : (workers crowdedState.peerActiveWork 0).card = 6 := by decide +kernel
  refine ⟨(Option.some_get _).symm, hcap, hworkers, fun hwithin => ?_⟩
  have hle := hwithin 0
  rw [hcap, hworkers] at hle
  omega

/-- Five peers are within the cap. -/
theorem within_cap_iff_five_peers :
    AllStates managerStep WithinCap onePieceStart
      (["a", "b", "c", "d", "e"].flatMap requestedBy) := by
  have hskips : AllSteps managerStep SkipsFullPiece onePieceStart
      (["a", "b", "c", "d", "e"].flatMap requestedBy) := by decide +kernel
  exact (within_cap_iff new_onePieceStart _).mpr hskips

end Fissure.Analysis
