import Mathlib.Data.Finset.Card
import Mathlib.Data.Finset.Option
import Mathlib.Data.Set.Basic

/-!
# A local index that is reconciled with an authority

An authority keeps a list of what is assigned to a client. The client keeps an index of it and a
counter, and changes them in steps: one task is granted an entry, inserts it into the index and then
counts it; one reports an entry as finished, removes it and then releases it; and a reconciler takes
a snapshot of the list, stores its size in the counter and then prunes the index to it. The three
interleave in any way, and a snapshot may be stale by the time it is used.

`ReconcilerMove` are the steps with what keeps them apart, `ReconcilerInv` is what they keep, and
where no task is in the middle of its steps the index and the counter agree with the list
(`ReconcilerInv.listed_mem_index`, `ReconcilerInv.count_eq`).
-/

set_option autoImplicit false

namespace Fissure.Library

variable {α : Type}

/-- Where the reconciler stands with its snapshot of the list. -/
inductive Snapshot (α : Type)
  | none
  | taken (list : Finset α)
  /-- the counter has its size, the index is not pruned yet -/
  | stored (list : Finset α)

/-- The list of the authority, the client's index and counter, and where the tasks stand. -/
structure Reconciled (α : Type) where
  listed : Finset α
  /-- what is never listed again -/
  closed : Set α
  /-- what is reported as finished in reports that the authority has not handled -/
  reported : List α
  index : Finset α
  count : ℕ
  /-- granted and not inserted yet -/
  granted : Option α
  /-- inserted and not counted yet -/
  inserted : Option α
  /-- reported and not removed yet -/
  finished : Option α
  /-- removed and not released yet -/
  removed : Option α
  snapshot : Snapshot α

/-- How much the counter is behind or ahead for an entry that is not counted or not released yet. -/
def pending : Option α → ℕ
  | none => 0
  | some _ => 1

@[simp] theorem pending_none : pending (none : Option α) = 0 := rfl

@[simp] theorem pending_some (p : α) : pending (some p) = 1 := rfl

variable [DecidableEq α]

/-- What an insertion must not run into: an entry that is indexed already, a snapshot without the
entry, and a snapshot that is stored. -/
def InsertsApart (s : Reconciled α) (p : α) : Prop :=
  match s.snapshot with
  | .none => p ∉ s.index
  | .taken list => p ∈ list
  | .stored _ => False

/-- What the taking of a snapshot must not run into: an entry of it that is reported as finished and
removed and released already. -/
def TakesApart (s : Reconciled α) (list : Finset α) : Prop :=
  ∀ p ∈ list, p ∈ s.reported → p ∈ s.index ∨ s.granted = some p ∨ s.removed = some p

/-- What the storing of a snapshot must not run into: a granted entry of it, an entry that is not
counted yet, and a removed entry that is not of it or is indexed again. -/
def StoresApart (s : Reconciled α) : Prop :=
  match s.snapshot with
  | .taken list => (∀ p ∈ s.granted, p ∉ list) ∧ s.inserted = none ∧
      ∀ p ∈ s.removed, p ∈ list ∧ p ∉ s.index
  | _ => True

/-- What a removal must not run into: a stored snapshot without the entry. -/
def RemovesApart (s : Reconciled α) (p : α) : Prop :=
  match s.snapshot with
  | .stored list => p ∈ s.index → p ∈ list
  | _ => True

/-- What a release must not run into: a snapshot with the entry, and a counter at zero. -/
def ReleasesApart (s : Reconciled α) (p : α) : Prop :=
  match s.snapshot with
  | .taken list => p ∉ list
  | _ => 0 < s.count

instance (s : Reconciled α) (p : α) : Decidable (InsertsApart s p) :=
  match h : s.snapshot with
  | .none => decidable_of_iff (p ∉ s.index) (by simp [InsertsApart, h])
  | .taken list => decidable_of_iff (p ∈ list) (by simp [InsertsApart, h])
  | .stored _ => isFalse (by simp [InsertsApart, h])

instance (s : Reconciled α) (list : Finset α) : Decidable (TakesApart s list) :=
  inferInstanceAs (Decidable (∀ p ∈ list, p ∈ s.reported → _))

instance (s : Reconciled α) : Decidable (StoresApart s) :=
  match h : s.snapshot with
  | .taken list => decidable_of_iff ((∀ p ∈ s.granted, p ∉ list) ∧ s.inserted = none ∧
      ∀ p ∈ s.removed, p ∈ list ∧ p ∉ s.index) (by simp [StoresApart, h])
  | .none | .stored _ => isTrue (by simp [StoresApart, h])

instance (s : Reconciled α) (p : α) : Decidable (RemovesApart s p) :=
  match h : s.snapshot with
  | .stored list => decidable_of_iff (p ∈ s.index → p ∈ list) (by simp [RemovesApart, h])
  | .none | .taken _ => isTrue (by simp [RemovesApart, h])

instance (s : Reconciled α) (p : α) : Decidable (ReleasesApart s p) :=
  match h : s.snapshot with
  | .taken list => decidable_of_iff (p ∉ list) (by simp [ReleasesApart, h])
  | .none | .stored _ => decidable_of_iff (0 < s.count) (by simp [ReleasesApart, h])

/-- The steps of the tasks and of the authority that are kept apart. -/
inductive ReconcilerMove (s : Reconciled α) : Reconciled α → Prop
  | grant {p : α} (hgranted : s.granted = none) (hopen : p ∉ s.closed) :
      ReconcilerMove s { s with listed := insert p s.listed, granted := some p }
  | insert {p : α} (hgranted : s.granted = some p) (hinserted : s.inserted = none)
      (hapart : InsertsApart s p) :
      ReconcilerMove s
        { s with index := insert p s.index, granted := none, inserted := some p }
  | count {p : α} (hinserted : s.inserted = some p) :
      ReconcilerMove s { s with count := s.count + 1, inserted := none }
  | report {p : α} {tracked : Option α} (htracked : ∀ q ∈ tracked, q = p) :
      ReconcilerMove s { s with reported := s.reported ++ [p], finished := tracked }
  | remove {p : α} (hfinished : s.finished = some p) (hremoved : s.removed = none)
      (hmem : p ∈ s.index) (hapart : RemovesApart s p) :
      ReconcilerMove s
        { s with index := s.index.erase p, finished := none, removed := some p }
  | skip {p : α} (hfinished : s.finished = some p) :
      ReconcilerMove s { s with finished := none }
  | release {p : α} (hremoved : s.removed = some p) (hapart : ReleasesApart s p) :
      ReconcilerMove s { s with count := s.count - 1, removed := none }
  /-- the authority handles anything else: it strikes entries off its list and closes some -/
  | handled {listed : Finset α} {closed : Set α} {reported : List α} (hlisted : listed ⊆ s.listed)
      (hclosed : s.closed ⊆ closed) (hopen : ∀ p ∈ listed, p ∉ closed)
      (hreported : ∀ p ∈ s.reported, p ∈ reported ∨ p ∈ closed) :
      ReconcilerMove s { s with listed := listed, closed := closed, reported := reported }
  | take {list : Finset α} (hsnapshot : s.snapshot = .none) (hlist : list ⊆ s.listed)
      (hapart : TakesApart s list) :
      ReconcilerMove s { s with listed := list, snapshot := .taken list }
  | store {list : Finset α} (hsnapshot : s.snapshot = .taken list) (hapart : StoresApart s) :
      ReconcilerMove s { s with count := list.card, snapshot := .stored list }
  | prune {list : Finset α} (hsnapshot : s.snapshot = .stored list) :
      ReconcilerMove s
        { s with index := s.index.filter (· ∈ list), snapshot := .none }

/-- What holds of the index and the counter, by where the reconciler stands. -/
def SnapshotInv (s : Reconciled α) : Prop :=
  match s.snapshot with
  | .none => s.count + pending s.inserted = s.index.card + pending s.removed
  | .taken list => (∀ p ∈ list, p ∈ s.index ∨ s.granted = some p ∨ s.removed = some p) ∧
      ∀ p ∈ s.listed, p ∈ list ∨ s.granted = some p
  | .stored list => s.count = (s.index.filter (· ∈ list)).card + pending s.removed ∧
      s.inserted = none ∧ ∀ p ∈ s.listed, p ∈ list ∨ s.granted = some p

/-- The invariant. -/
structure ReconcilerInv (s : Reconciled α) : Prop where
  opened : ∀ p ∈ s.listed, p ∉ s.closed
  finished : ∀ p ∈ s.finished, p ∈ s.reported ∨ p ∈ s.closed
  listed : ∀ p ∈ s.listed, p ∈ s.index ∨ s.granted = some p ∨ p ∈ s.reported
  snapshot : SnapshotInv s

variable {s t : Reconciled α} {p : α}

/-! ## The three phases -/

/-- An insertion keeps what holds of the index and the counter. -/
theorem SnapshotInv.insert (h : SnapshotInv s) (hgranted : s.granted = some p)
    (hinserted : s.inserted = none) (hapart : InsertsApart s p) :
    SnapshotInv { s with index := insert p s.index, granted := none, inserted := some p } := by
  unfold SnapshotInv InsertsApart at *
  dsimp only
  cases hsnapshot : s.snapshot with
  | none =>
    rw [hsnapshot] at h hapart
    rw [Finset.card_insert_of_notMem hapart]
    simp only [hinserted, pending_none, pending_some] at h ⊢
    omega
  | taken list =>
    rw [hsnapshot] at h hapart
    obtain ⟨hlist, hlisted⟩ := h
    constructor
    · intro q hq
      rcases hlist q hq with hmem | hmem | hmem
      · exact Or.inl (Finset.mem_insert_of_mem hmem)
      · rw [hgranted, Option.some.injEq] at hmem
        exact Or.inl (Finset.mem_insert.mpr (Or.inl hmem.symm))
      · exact Or.inr (Or.inr hmem)
    · intro q hq
      rcases hlisted q hq with hmem | hmem
      · exact Or.inl hmem
      · rw [hgranted, Option.some.injEq] at hmem
        exact Or.inl (hmem ▸ hapart)
  | stored list =>
    rw [hsnapshot] at hapart
    exact hapart.elim

/-- Counting an insertion keeps what holds of the index and the counter. -/
theorem SnapshotInv.count (h : SnapshotInv s) (hinserted : s.inserted = some p) :
    SnapshotInv { s with count := s.count + 1, inserted := none } := by
  unfold SnapshotInv at *
  dsimp only
  cases hsnapshot : s.snapshot with
  | none =>
    rw [hsnapshot] at h
    simp only [hinserted, pending_none, pending_some] at h ⊢
    omega
  | taken list =>
    rw [hsnapshot] at h
    exact h
  | stored list =>
    rw [hsnapshot] at h
    simp [hinserted] at h

/-- A removal keeps what holds of the index and the counter. -/
theorem SnapshotInv.remove (h : SnapshotInv s) (hremoved : s.removed = none) (hmem : p ∈ s.index)
    (hapart : RemovesApart s p) :
    SnapshotInv { s with index := s.index.erase p, finished := none, removed := some p } := by
  unfold SnapshotInv RemovesApart at *
  dsimp only
  cases hsnapshot : s.snapshot with
  | none =>
    rw [hsnapshot] at h
    have hcard := Finset.card_erase_add_one hmem
    simp only [hremoved, pending_none, pending_some] at h ⊢
    omega
  | taken list =>
    rw [hsnapshot] at h
    refine ⟨fun q hq => ?_, h.2⟩
    by_cases hqp : q = p
    · exact Or.inr (Or.inr (by rw [hqp]))
    · rcases h.1 q hq with hindex | hgranted | hold
      · exact Or.inl (Finset.mem_erase.mpr ⟨hqp, hindex⟩)
      · exact Or.inr (Or.inl hgranted)
      · rw [hremoved] at hold
        cases hold
  | stored list =>
    rw [hsnapshot] at h hapart
    obtain ⟨hcount, hinserted, hlisted⟩ := h
    have hboth : p ∈ s.index.filter (· ∈ list) := Finset.mem_filter.mpr ⟨hmem, hapart hmem⟩
    have hcard := Finset.card_erase_add_one hboth
    refine ⟨?_, hinserted, hlisted⟩
    rw [Finset.filter_erase]
    simp only [hremoved, pending_none, pending_some] at hcount ⊢
    omega

/-- A release keeps what holds of the index and the counter. -/
theorem SnapshotInv.release (h : SnapshotInv s) (hremoved : s.removed = some p)
    (hapart : ReleasesApart s p) :
    SnapshotInv { s with count := s.count - 1, removed := none } := by
  unfold SnapshotInv ReleasesApart at *
  dsimp only
  cases hsnapshot : s.snapshot with
  | none =>
    rw [hsnapshot] at h hapart
    simp only [hremoved, pending_none, pending_some] at h hapart ⊢
    omega
  | taken list =>
    rw [hsnapshot] at h hapart
    refine ⟨fun q hq => ?_, h.2⟩
    rcases h.1 q hq with hindex | hgranted | hold
    · exact Or.inl hindex
    · exact Or.inr (Or.inl hgranted)
    · rw [hremoved, Option.some.injEq] at hold
      exact absurd (hold ▸ hq) hapart
  | stored list =>
    rw [hsnapshot] at h
    obtain ⟨hcount, hinserted, hlisted⟩ := h
    refine ⟨?_, hinserted, hlisted⟩
    simp only [hremoved, pending_none, pending_some] at hcount ⊢
    omega

/-- What happens to the list, when each entry of it was listed or is granted now and a grant that is
under way stays so, keeps what holds of the index and the counter. -/
theorem SnapshotInv.relist (h : SnapshotInv s) {listed : Finset α} {closed : Set α}
    {reported : List α} {granted : Option α} (hgranted : ∀ q ∈ s.granted, q ∈ granted)
    (hlisted : ∀ q ∈ listed, q ∈ s.listed ∨ q ∈ granted) :
    SnapshotInv { s with
      listed := listed, closed := closed, reported := reported, granted := granted } := by
  have hstill {list : Finset α} (hold : ∀ q ∈ s.listed, q ∈ list ∨ s.granted = some q) (q : α)
      (hq : q ∈ listed) : q ∈ list ∨ granted = some q := by
    rcases hlisted q hq with hq | hq
    · exact (hold q hq).imp_right (hgranted q)
    · exact Or.inr hq
  unfold SnapshotInv at *
  dsimp only
  cases hsnapshot : s.snapshot with
  | none =>
    rw [hsnapshot] at h
    exact h
  | taken list =>
    rw [hsnapshot] at h
    exact ⟨fun q hq => (h.1 q hq).imp_right (Or.imp_left (hgranted q)), hstill h.2⟩
  | stored list =>
    rw [hsnapshot] at h
    exact ⟨h.1, h.2.1, hstill h.2.2⟩

/-- Storing a snapshot makes the counter agree with what the pruning will leave of the index. -/
theorem card_of_apart {list : Finset α}
    (hlist : ∀ p ∈ list, p ∈ s.index ∨ s.granted = some p ∨ s.removed = some p)
    (hgranted : ∀ p ∈ s.granted, p ∉ list) (hremoved : ∀ p ∈ s.removed, p ∈ list ∧ p ∉ s.index) :
    list.card = (s.index.filter (· ∈ list)).card + pending s.removed := by
  have hsub : ∀ p ∈ list, p ∈ s.index ∨ s.removed = some p := by
    intro p hp
    rcases hlist p hp with hindex | hold | hold
    · exact Or.inl hindex
    · exact absurd hp (hgranted p hold)
    · exact Or.inr hold
  cases hrem : s.removed with
  | none =>
    have hfilter : s.index.filter (· ∈ list) = list := by
      ext p
      rw [Finset.mem_filter, and_iff_right_iff_imp]
      intro hp
      simpa [hrem] using hsub p hp
    rw [hfilter]
    rfl
  | some q =>
    obtain ⟨hmem, hnot⟩ := hremoved q hrem
    have hfilter : s.index.filter (· ∈ list) = list.erase q := by
      ext p
      rw [Finset.mem_filter, Finset.mem_erase]
      constructor
      · rintro ⟨hindex, hp⟩
        exact ⟨fun hpq => hnot (hpq ▸ hindex), hp⟩
      · rintro ⟨hpq, hp⟩
        refine ⟨(hsub p hp).resolve_right ?_, hp⟩
        rw [hrem, Option.some.injEq]
        exact fun hqp => hpq hqp.symm
    rw [hfilter, pending_some, Finset.card_erase_add_one hmem]

/-! ## The invariant -/

/-- Every step keeps the invariant. -/
theorem reconcilerInv_step (h : ReconcilerInv s) (hmove : ReconcilerMove s t) :
    ReconcilerInv t := by
  have hphase := h.snapshot
  cases hmove with
  | @grant p hgranted hopen =>
    refine ⟨?_, h.finished, ?_, ?_⟩
    · intro q hq
      rcases Finset.mem_insert.mp hq with rfl | hq
      · exact hopen
      · exact h.opened q hq
    · intro q hq
      rcases Finset.mem_insert.mp hq with rfl | hq
      · exact Or.inr (Or.inl rfl)
      · rcases h.listed q hq with hindex | hold | hreported
        · exact Or.inl hindex
        · rw [hgranted] at hold
          cases hold
        · exact Or.inr (Or.inr hreported)
    · apply hphase.relist
      · simp [hgranted]
      · intro q hq
        rcases Finset.mem_insert.mp hq with rfl | hq
        · exact Or.inr rfl
        · exact Or.inl hq
  | @insert p hgranted hinserted hapart =>
    refine ⟨h.opened, h.finished, ?_, hphase.insert hgranted hinserted hapart⟩
    intro q hq
    rcases h.listed q hq with hindex | hold | hreported
    · exact Or.inl (Finset.mem_insert_of_mem hindex)
    · rw [hgranted, Option.some.injEq] at hold
      exact Or.inl (Finset.mem_insert.mpr (Or.inl hold.symm))
    · exact Or.inr (Or.inr hreported)
  | count hinserted => exact ⟨h.opened, h.finished, h.listed, hphase.count hinserted⟩
  | @report p tracked htracked =>
    refine ⟨h.opened, ?_, ?_, hphase⟩
    · intro q hq
      left
      rw [htracked q hq]
      exact List.mem_append_right _ (List.mem_singleton_self p)
    · intro q hq
      exact (h.listed q hq).imp_right (Or.imp_right (List.mem_append_left _))
  | @remove p hfinished hremoved hmem hapart =>
    refine ⟨h.opened, nofun, ?_, hphase.remove hremoved hmem hapart⟩
    intro q hq
    by_cases hqp : q = p
    · subst hqp
      rcases h.finished q hfinished with hreported | hclosed
      · exact Or.inr (Or.inr hreported)
      · exact absurd hclosed (h.opened q hq)
    · exact (h.listed q hq).imp_left fun hindex => Finset.mem_erase.mpr ⟨hqp, hindex⟩
  | skip => exact ⟨h.opened, nofun, h.listed, hphase⟩
  | release hremoved hapart =>
    exact ⟨h.opened, h.finished, h.listed, hphase.release hremoved hapart⟩
  | @handled listed closed reported hlisted hclosed hopen hreported =>
    refine ⟨hopen, ?_, ?_, ?_⟩
    · intro q hq
      rcases h.finished q hq with hmem | hmem
      · exact hreported q hmem
      · exact Or.inr (hclosed hmem)
    · intro q hq
      rcases h.listed q (hlisted hq) with hindex | hgranted | hmem
      · exact Or.inl hindex
      · exact Or.inr (Or.inl hgranted)
      · exact Or.inr (Or.inr ((hreported q hmem).resolve_right (hopen q hq)))
    · exact hphase.relist (fun _ hq => hq) fun q hq => Or.inl (hlisted hq)
  | @take list hsnapshot hlist hapart =>
    refine ⟨fun q hq => h.opened q (hlist hq), h.finished, fun q hq => h.listed q (hlist hq), ?_⟩
    refine ⟨fun q hq => ?_, fun q hq => Or.inl hq⟩
    rcases h.listed q (hlist hq) with hindex | hgranted | hreported
    · exact Or.inl hindex
    · exact Or.inr (Or.inl hgranted)
    · exact hapart q hq hreported
  | @store list hsnapshot hapart =>
    refine ⟨h.opened, h.finished, h.listed, ?_⟩
    unfold SnapshotInv at hphase
    unfold StoresApart at hapart
    rw [hsnapshot] at hphase hapart
    obtain ⟨hgranted, hinserted, hremoved⟩ := hapart
    have hcard := card_of_apart hphase.1 hgranted hremoved
    exact ⟨hcard, hinserted, hphase.2⟩
  | @prune list hsnapshot =>
    unfold SnapshotInv at hphase
    rw [hsnapshot] at hphase
    obtain ⟨hcount, hinserted, hlisted⟩ := hphase
    refine ⟨h.opened, h.finished, ?_, ?_⟩
    · intro q hq
      rcases hlisted q hq with hmem | hgranted
      · refine (h.listed q hq).imp_left fun hindex => ?_
        exact Finset.mem_filter.mpr ⟨hindex, by simpa using hmem⟩
      · exact Or.inr (Or.inl hgranted)
    · unfold SnapshotInv
      simp only [hinserted, pending_none, Nat.add_zero]
      exact hcount

/-- **Between their steps the tasks have lost nothing.** Where nothing is granted, inserted or removed
half-way and no snapshot is under way, each listed entry that is not reported as finished is in the
index, and the counter is its size. -/
theorem ReconcilerInv.settled (h : ReconcilerInv s) (hgranted : s.granted = none)
    (hinserted : s.inserted = none) (hremoved : s.removed = none) (hsnapshot : s.snapshot = .none) :
    (∀ p ∈ s.listed, p ∉ s.reported → p ∈ s.index) ∧ s.count = s.index.card := by
  have hphase := h.snapshot
  unfold SnapshotInv at hphase
  rw [hsnapshot] at hphase
  constructor
  · intro p hp hnot
    rcases h.listed p hp with hindex | hold | hreported
    · exact hindex
    · rw [hgranted] at hold
      cases hold
    · exact absurd hreported hnot
  · simpa [hinserted, hremoved] using hphase

end Fissure.Library
