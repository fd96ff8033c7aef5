import Fissure.Model.TorrentManager

/-!
# What one step of the manager does

One lemma for each arm of the manager's loop that assigns, times out or finishes work says
everything the arm can do. Later modules reason from these and do not unfold the handlers. The
arms that count pieces are in `RarityIndex`.
-/

set_option autoImplicit false

namespace Fissure.Analysis

open Fissure.Library Fissure.Model
open Fissure.Model.TorrentManagerActor

/-- INTERNAL: a manager that has just started has no peer, no piece and no work.
SOURCE: torrent_manager.rs:67-112 -/
theorem manager_new_eq_some {torrent : ClientTorrentMetaInfo} {options : PeerOptions}
    {s : TorrentManagerActor} (h : TorrentManagerActor.new torrent options = some s) :
    ∃ numOfP stats, torrent.rawTorrent.getNumberOfPieces = some numOfP ∧
      s = {
        piecesFrequency := List.replicate numOfP 0
        rarityBucket := fun _ => ∅
        stats := stats
        clientTorrentMeta := torrent
        peerBitfields := ∅
        localBitfield := Bitfield.zeros numOfP
        peerActiveWork := ∅
        pieceConcurrencyCounts := ((List.range numOfP).map fun i => ⟨i, 0⟩).toFinmap
        activePiecesManager := ∅
        downloadedPieceIndex := []
        peerNotifier := 0
        peerOptions := options } := by
  unfold TorrentManagerActor.new at h
  simp only [Option.bind_eq_bind, Option.bind_eq_some_iff, Option.some.injEq] at h
  obtain ⟨numOfP, hnumber, totalSize, -, rfl⟩ := h
  exact ⟨numOfP, _, hnumber, rfl⟩

/-! ## Assigning work -/

/-- Where the manager of piece `index` comes from: it is active already, or it is made from the
metainfo and the fresh channel. -/
def ManagerOf (s : TorrentManagerActor) (index fresh : ℕ) (manager : PieceRequestManager) : Prop :=
  match s.activePiecesManager.lookup index with
  | some active => manager = active
  | none => ∃ sha1Hash pieceLength,
      s.clientTorrentMeta.rawTorrent.getPieceHash index = some sha1Hash ∧
      s.clientTorrentMeta.rawTorrent.getPieceLength index = some pieceLength ∧
      manager = ⟨index, sha1Hash, pieceLength, fresh⟩

theorem managerFor_eq_some_iff {s t : TorrentManagerActor} {index fresh : ℕ}
    {manager : PieceRequestManager} :
    s.managerFor index fresh = some (t, manager) ↔ ManagerOf s index fresh manager ∧
      t = { s with activePiecesManager := s.activePiecesManager.insert index manager } := by
  unfold managerFor ManagerOf
  cases hactive : s.activePiecesManager.lookup index with
  | some active =>
    simp only [Option.some.injEq, Prod.mk.injEq]
    constructor
    · rintro ⟨rfl, rfl⟩
      rw [HashMap.insert_lookup_self hactive]
      exact ⟨rfl, rfl⟩
    · rintro ⟨rfl, rfl⟩
      rw [HashMap.insert_lookup_self hactive]
      exact ⟨rfl, rfl⟩
  | none =>
    simp only [Option.bind_eq_bind, Option.bind_eq_some_iff, Option.some.injEq, Prod.mk.injEq]
    constructor
    · rintro ⟨sha1Hash, hhash, pieceLength, hlen, rfl, rfl⟩
      exact ⟨⟨sha1Hash, pieceLength, hhash, hlen, rfl⟩, rfl⟩
    · rintro ⟨⟨sha1Hash, pieceLength, hhash, hlen, rfl⟩, rfl⟩
      exact ⟨sha1Hash, hhash, pieceLength, hlen, rfl, rfl⟩

/-- INTERNAL: everything the assignment of a piece does.
SOURCE: torrent_manager.rs:197-224 -/
theorem assign_eq_some_iff {s t : TorrentManagerActor} {q : String} {index fresh : ℕ}
    {now : Instant} {manager : PieceRequestManager} :
    s.assign q index now fresh = some (t, manager) ↔
      ∃ count work, s.pieceConcurrencyCounts.lookup index = some count ∧
        s.peerActiveWork.lookup q = some work ∧ ManagerOf s index fresh manager ∧
        t = { s with
          activePiecesManager := s.activePiecesManager.insert index manager
          pieceConcurrencyCounts := s.pieceConcurrencyCounts.insert index (count + 1)
          peerActiveWork := s.peerActiveWork.insert q (work ++ [(index, now)]) } := by
  unfold assign
  simp only [Option.bind_eq_bind, Option.bind_eq_some_iff, Prod.exists, managerFor_eq_some_iff,
    Option.some.injEq, Prod.mk.injEq]
  constructor
  · rintro ⟨u, m, ⟨hm, rfl⟩, count, hcount, work, hwork, rfl, rfl⟩
    exact ⟨count, work, hcount, hwork, hm, rfl⟩
  · rintro ⟨count, work, hcount, hwork, hm, rfl⟩
    exact ⟨_, manager, ⟨hm, rfl⟩, count, hcount, work, hwork, rfl, rfl⟩

/-- INTERNAL: a request for work finds nothing and changes nothing, or assigns what it finds.
SOURCE: torrent_manager.rs:127-228 -/
theorem requestWork_eq_some {s t : TorrentManagerActor} {q : String} {env : Env}
    {manager : Option PieceRequestManager} (h : s.requestWork q env = some (t, manager)) :
    (manager = none ∧ t = s ∧ ∀ b, s.peerBitfields.lookup q = some b →
      ∀ p ∈ s.bucketsInOrder env.order, s.selectable q b p = false) ∨
    ∃ b index m, s.peerBitfields.lookup q = some b ∧
      (s.bucketsInOrder env.order).find? (s.selectable q b) = some index ∧
      s.assign q index env.now env.fresh = some (t, m) ∧ manager = some m := by
  unfold requestWork at h
  cases hb : s.peerBitfields.lookup q with
  | none =>
    rw [hb] at h
    cases h
    exact Or.inl ⟨rfl, rfl, by simp⟩
  | some b =>
    rw [hb] at h
    dsimp only at h
    cases hfind : (s.bucketsInOrder env.order).find? (s.selectable q b) with
    | none =>
      rw [hfind] at h
      cases h
      refine Or.inl ⟨rfl, rfl, ?_⟩
      rintro _ ⟨⟩ p hp
      exact eq_false_of_ne_true (List.find?_eq_none.mp hfind p hp)
    | some index =>
      rw [hfind] at h
      dsimp only at h
      rw [Option.map_eq_some_iff] at h
      obtain ⟨⟨u, m⟩, hassign, h⟩ := h
      cases h
      exact Or.inr ⟨b, index, m, rfl, hfind, hassign, rfl⟩

theorem mem_bucketsInOrder {s : TorrentManagerActor} {order : IterationOrder} {p : ℕ} :
    p ∈ s.bucketsInOrder order ↔ ∃ f, p ∈ s.rarityBucket f := by
  unfold bucketsInOrder
  rw [mem_inBucketOrder]
  apply exists_congr
  intro f
  rw [← Multiset.mem_coe, order.coe_list, Finset.mem_val]

/-- A piece that `RequestWork` may choose for peer `q`. -/
structure Selectable (s : TorrentManagerActor) (q : String) (b : Bitfield) (p : ℕ) : Prop where
  held : b.getD p false = true
  unowned : s.localBitfield.getD p false = false
  count : ∃ count, s.pieceConcurrencyCounts.lookup p = some count ∧
    count ≤ s.peerOptions.perPieceActivePeerCount
  unassigned : ∀ work, s.peerActiveWork.lookup q = some work → ∀ w ∈ work, w.1 ≠ p

/-- INTERNAL: what the predicate of the search says.
SOURCE: torrent_manager.rs:148-184 -/
theorem selectable_iff {s : TorrentManagerActor} {q : String} {b : Bitfield} {p : ℕ} :
    s.selectable q b p = true ↔ Selectable s q b p := by
  have hassigned : ((s.peerActiveWork.lookup q).any fun t => t.any fun t => t.1 == p) = false ↔
      ∀ work, s.peerActiveWork.lookup q = some work → ∀ w ∈ work, w.1 ≠ p := by
    cases s.peerActiveWork.lookup q with
    | none => simp
    | some work => simp
  cases hcount : s.pieceConcurrencyCounts.lookup p with
  | none =>
    constructor
    · intro h
      simp [selectable, hcount] at h
    · intro h
      obtain ⟨count, hsome, -⟩ := h.count
      rw [hcount] at hsome
      cases hsome
  | some count =>
    have hguard : s.selectable q b p = (b.getD p false && !s.localBitfield.getD p false &&
        decide (count ≤ s.peerOptions.perPieceActivePeerCount) &&
        !(s.peerActiveWork.lookup q).any fun t => t.any fun t => t.1 == p) := by
      unfold selectable
      rw [hcount]
      cases s.peerActiveWork.lookup q <;> rfl
    rw [hguard]
    simp only [Bool.and_eq_true, Bool.not_eq_true', decide_eq_true_eq]
    constructor
    · rintro ⟨⟨⟨hheld, hown⟩, hle⟩, hwork⟩
      exact ⟨hheld, hown, ⟨count, hcount, hle⟩, hassigned.mp hwork⟩
    · rintro ⟨hheld, hown, ⟨count', hcount', hle⟩, hwork⟩
      rw [hcount] at hcount'
      cases hcount'
      exact ⟨⟨⟨hheld, hown⟩, hle⟩, hassigned.mpr hwork⟩

/-! ## Work lists -/

theorem lookup_retainWork (work : HashMap String (List (ℕ × Instant))) (index : ℕ) (q : String) :
    (retainWork work index).lookup q =
      (work.lookup q).map fun v => v.filter fun w => w.1 != index := by
  unfold retainWork
  rw [HashMap.lookup_filterMapVals]
  cases work.lookup q <;> rfl

theorem mem_retainWork {work : HashMap String (List (ℕ × Instant))} {index : ℕ} {q : String} :
    q ∈ retainWork work index ↔ q ∈ work := by
  rw [← Finmap.lookup_isSome, ← Finmap.lookup_isSome, lookup_retainWork, Option.isSome_map]

/-- Whether an entry of a work list has timed out. -/
def timedOut (timeout : ℕ) (now : Instant) (w : ℕ × Instant) : Bool :=
  decide (timeout < now.durationSince w.2)

/-- What the time-out pass keeps of a work list: entries for wanted pieces that are in time. -/
def inTime (localBitfield : Bitfield) (timeout : ℕ) (now : Instant)
    (work : List (ℕ × Instant)) : List (ℕ × Instant) :=
  work.filter fun w => !localBitfield.getD w.1 false && !timedOut timeout now w

/-- The wanted pieces whose entry the time-out pass gives back. -/
def givenBack (localBitfield : Bitfield) (timeout : ℕ) (now : Instant)
    (work : List (ℕ × Instant)) : List ℕ :=
  (work.filter fun w => !localBitfield.getD w.1 false && timedOut timeout now w).map Prod.fst

theorem inTime_sublist (localBitfield : Bitfield) (timeout : ℕ) (now : Instant)
    (work : List (ℕ × Instant)) : (inTime localBitfield timeout now work).Sublist work :=
  List.filter_sublist

/-- INTERNAL: everything the time-out pass does. It stops the manager only for an index without a
piece.
SOURCE: torrent_manager.rs:289-301 -/
theorem retainActive_eq_some {local_ : Bitfield} {timeout : ℕ} {now : Instant}
    {work kept : List (ℕ × Instant)} {counts counts' : HashMap ℕ ℕ}
    (h : retainActive local_ timeout now work counts = some (kept, counts')) :
    kept = inTime local_ timeout now work ∧
      counts' = (givenBack local_ timeout now work).foldl releaseCount counts := by
  induction work generalizing counts kept with
  | nil =>
    cases h
    exact ⟨rfl, rfl⟩
  | cons w rest ih =>
    obtain ⟨piece, time⟩ := w
    unfold retainActive at h
    simp only [Option.bind_eq_bind, Option.bind_eq_some_iff] at h
    obtain ⟨owned, howned, h⟩ := h
    have hbit : local_[piece]?.getD false = owned := by rw [howned, Option.getD_some]
    unfold inTime givenBack timedOut at ih ⊢
    cases owned with
    | true =>
      rw [if_pos rfl] at h
      simpa [hbit] using ih h
    | false =>
      rw [if_neg Bool.false_ne_true] at h
      split_ifs at h with hlate
      · simpa [hbit, hlate] using ih h
      · rw [Option.bind_eq_some_iff] at h
        obtain ⟨⟨kept', counts''⟩, hrest, h⟩ := h
        cases h
        simpa [hbit, hlate] using ih hrest

theorem lookup_releaseCount (counts : HashMap ℕ ℕ) (piece p : ℕ) :
    (releaseCount counts piece).lookup p =
      if p = piece then (counts.lookup p).map fun count => count - 1 else counts.lookup p := by
  unfold releaseCount
  by_cases hp : p = piece
  · subst hp
    rw [if_pos rfl]
    cases hcount : counts.lookup p with
    | none => exact hcount
    | some count =>
      dsimp only
      split_ifs with hpos
      · rw [Finmap.lookup_insert, Option.map_some]
      · rw [hcount, Option.map_some]
        exact congrArg some (by omega)
  · rw [if_neg hp]
    cases counts.lookup piece with
    | none => rfl
    | some count =>
      dsimp only
      split_ifs
      · rw [HashMap.lookup_insert_eq, if_neg hp]
      · rfl

/-- INTERNAL: the count of a piece goes down once for each entry that is given back, down to
zero. -/
theorem lookup_foldl_releaseCount (l : List ℕ) (counts : HashMap ℕ ℕ) (p : ℕ) :
    (l.foldl releaseCount counts).lookup p =
      (counts.lookup p).map fun count => count - l.count p := by
  induction l generalizing counts with
  | nil => simp
  | cons piece l ih =>
    rw [List.foldl_cons, ih, lookup_releaseCount, List.count_cons]
    by_cases hp : p = piece
    · subst hp
      rw [if_pos rfl, Option.map_map]
      refine congrFun (congrArg _ (funext fun count => ?_)) _
      simp only [Function.comp_apply, beq_self_eq_true, if_true]
      omega
    · simp [hp, Ne.symm hp]

theorem retainActive_isSome {local_ : Bitfield} {work : List (ℕ × Instant)}
    (hwork : ∀ w ∈ work, w.1 < local_.length) (timeout : ℕ) (now : Instant)
    (counts : HashMap ℕ ℕ) : ∃ r, retainActive local_ timeout now work counts = some r := by
  induction work generalizing counts with
  | nil => exact ⟨_, rfl⟩
  | cons w rest ih =>
    obtain ⟨piece, time⟩ := w
    have hlt : piece < local_.length := hwork (piece, time) List.mem_cons_self
    have ih := ih fun w hw => hwork w (List.mem_cons_of_mem _ hw)
    unfold retainActive
    rw [List.getElem?_eq_getElem hlt]
    simp only [Option.bind_eq_bind, Option.bind_some]
    split_ifs
    · exact ih counts
    · exact ih (releaseCount counts piece)
    · obtain ⟨r, hr⟩ := ih counts
      rw [hr]
      exact ⟨_, rfl⟩

/-- INTERNAL: a time-out query of a tracked peer replaces its work list by what is kept of it and
gives back the counts of the rest; of another peer it changes nothing.
SOURCE: torrent_manager.rs:281-312 -/
theorem updateAndGetActiveRequestCount_eq_some {s t : TorrentManagerActor} {q : String}
    {now : Instant} {reply : Option (List (ℕ × Instant))}
    (h : s.updateAndGetActiveRequestCount q now = some (t, reply)) :
    (s.peerActiveWork.lookup q = none ∧ t = s) ∨
    ∃ work kept, s.peerActiveWork.lookup q = some work ∧
      kept = inTime s.localBitfield (fromSecs s.peerOptions.pieceRequestTimeout) now work ∧
      t = { s with
        peerActiveWork := s.peerActiveWork.insert q kept
        pieceConcurrencyCounts := (givenBack s.localBitfield
          (fromSecs s.peerOptions.pieceRequestTimeout) now work).foldl releaseCount
            s.pieceConcurrencyCounts } ∧
      reply = some kept := by
  unfold updateAndGetActiveRequestCount at h
  cases hwork : s.peerActiveWork.lookup q with
  | none =>
    rw [hwork] at h
    cases h
    exact Or.inl ⟨rfl, rfl⟩
  | some work =>
    rw [hwork] at h
    simp only [Option.bind_eq_bind, Option.bind_eq_some_iff] at h
    obtain ⟨⟨kept, counts⟩, hretain, h⟩ := h
    cases h
    obtain ⟨hkept, rfl⟩ := retainActive_eq_some hretain
    exact Or.inr ⟨work, kept, rfl, hkept, rfl, rfl⟩

/-- INTERNAL: a manager that has just started has no active piece. -/
theorem lookup_active_new {torrent : ClientTorrentMetaInfo} {options : PeerOptions}
    {s : TorrentManagerActor} (h : TorrentManagerActor.new torrent options = some s) (p : ℕ) :
    s.activePiecesManager.lookup p = none := by
  obtain ⟨numOfP, stats, -, rfl⟩ := manager_new_eq_some h
  exact Finmap.lookup_empty p

end Fissure.Analysis
