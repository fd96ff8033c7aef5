import Fissure.Analysis.TierRounds

/-!
# The rotation of a tier

`tier_clone` is meant to be the tier with the tracker that has answered last in front. A round reads
the URLs from the tier and writes `tier_clone` at the same index, so the two are in step until a
tracker answers that is not the first of the tier (`after_of_firstOrNone`). The round after that
tries the wrong tracker first (`rotation_iff`).
-/

set_option autoImplicit false

namespace Fissure.Analysis

open Fissure.Library Fissure.Model

variable {tier : List String} {env : RoundEnv}

/-- The round that leads from `tierClone` to `after` has rotated the tier: `after` has its URLs, the
trackers were tried in the order of `tierClone`, the one that has answered is in front, and if none
has, all of them were tried. -/
structure Rotated (tier tierClone after : List String) (round : TierRound) : Prop where
  perm : after.Perm tier
  in_order : round.tried <+: tierClone
  front : round.sent.isSome = true → after.head? = round.tried.getLast?
  all_tried : round.sent = none → round.tried.Perm tier

/-- The round rotates the tier, if it ends. -/
def KeepsRotation (tier tierClone : List String) (env : RoundEnv) : Prop :=
  ∀ after round secs, tierStep tier tierClone env = some (after, round, secs) →
    Rotated tier tierClone after round

/-- The first tracker of the tier answers, or none does. -/
def FirstOrNone (tier : List String) (env : RoundEnv) : Prop :=
  (∃ idx < tier.length, TrackerAnswers (env.calls idx)) → TrackerAnswers (env.calls 0)

/-- INTERNAL: a round from the tier itself rotates it.
SOURCE: torrent_refresh.rs:35-79 -/
theorem keepsRotation_tier (tier : List String) (env : RoundEnv) : KeepsRotation tier tier env := by
  intro after round secs h
  obtain ⟨a, -, hends, -⟩ := (tierStep_eq_some_iff (Eq.refl tier.length)).mp h
  cases hends with
  | unanswered => exact ⟨List.Perm.refl _, List.prefix_refl _, nofun, fun _ => List.Perm.refl _⟩
  | answered hurl =>
    obtain ⟨hlt, rfl⟩ := List.getElem?_eq_some_iff.mp hurl
    refine ⟨List.getElem_cons_eraseIdx_perm hlt, List.take_prefix _ _, fun _ => ?_, nofun⟩
    simp only [List.head?_cons, List.drop_zero, List.take_add_one, hurl, Option.toList_some,
      List.getLast?_append, List.getLast?_singleton, Option.some_or]

/-- INTERNAL: when the first tracker answers or none does, the lists stay in step.
SOURCE: torrent_refresh.rs:54-61, torrent_refresh.rs:75-76 -/
theorem after_of_firstOrNone (h : FirstOrNone tier env) {after : List String}
    {round : TierRound × ℕ} (hstep : tierStep tier tier env = some (after, round)) :
    after = tier := by
  obtain ⟨round, secs⟩ := round
  obtain ⟨a, hover, hends, -⟩ := (tierStep_eq_some_iff (Eq.refl tier.length)).mp hstep
  cases hends with
  | unanswered => rfl
  | answered hurl hcall =>
    obtain ⟨hlt, rfl⟩ := List.getElem?_eq_some_iff.mp hurl
    have hfirst := h ⟨a, hlt, by rw [hcall]; trivial⟩
    have hzero : a = 0 := by
      by_contra hpos
      exact (hover 0 (by omega)).1 hfirst
    subst hzero
    rw [List.eraseIdx_zero, ← List.drop_one, ← List.drop_eq_getElem_cons hlt, List.drop_zero]

/-- INTERNAL: when another tracker than the first one answers, it is the first one of `tier_clone`
then.
SOURCE: torrent_refresh.rs:75-76 -/
theorem head_of_not_firstOrNone (h : ¬ FirstOrNone tier env) {after : List String}
    {round : TierRound × ℕ} (hstep : tierStep tier tier env = some (after, round)) :
    ∃ a, 0 < a ∧ a < tier.length ∧ after.head? = tier[a]? := by
  obtain ⟨round, secs⟩ := round
  obtain ⟨a, hover, hends, -⟩ := (tierStep_eq_some_iff (Eq.refl tier.length)).mp hstep
  unfold FirstOrNone at h
  rw [Classical.not_imp] at h
  obtain ⟨⟨idx, hidx, hanswers⟩, hfirst⟩ := h
  cases hends with
  | unanswered => exact absurd hanswers (hover idx hidx).1
  | answered hurl hcall =>
    refine ⟨a, Nat.pos_of_ne_zero ?_, (List.getElem?_eq_some_iff.mp hurl).1, hurl.symm⟩
    rintro rfl
    rw [hcall] at hfirst
    exact hfirst trivial

/-- INTERNAL: a round tries the first tracker of the tier first.
SOURCE: torrent_refresh.rs:35-36 -/
theorem head_tried {tierClone after : List String} (hlength : tierClone.length = tier.length)
    {round : TierRound} {secs : ℕ}
    (hstep : tierStep tier tierClone env = some (after, round, secs)) :
    round.tried.head? = tier.head? := by
  obtain ⟨a, -, hends, -⟩ := (tierStep_eq_some_iff hlength).mp hstep
  cases hends with
  | unanswered => rfl
  | answered hurl => simp [List.head?_take]

/-- INTERNAL: a round from a list with another tracker in front does not rotate the tier. -/
theorem not_keepsRotation {tierClone : List String} (hdistinct : tier.Nodup)
    (hlength : tierClone.length = tier.length) {a : ℕ} (hpos : 0 < a) (hlt : a < tier.length)
    (hhead : tierClone.head? = tier[a]?) {done : List String × TierRound × ℕ}
    (hstep : tierStep tier tierClone env = some done) : ¬ KeepsRotation tier tierClone env := by
  obtain ⟨after, round, secs⟩ := done
  intro hkeeps
  have htried := head_tried hlength hstep
  have hnonempty : 0 < tier.length := Nat.zero_lt_of_lt hlt
  obtain ⟨rest, hrest⟩ := (hkeeps after round secs hstep).in_order
  have hfirst : tierClone.head? = some tier[0] := calc
    tierClone.head? = (round.tried ++ rest).head? := congrArg List.head? hrest.symm
    _ = tier.head?.or rest.head? := by rw [List.head?_append, htried]
    _ = some tier[0] := by simp [List.head?_eq_getElem?, hnonempty]
  rw [hhead, List.getElem?_eq_getElem hlt, Option.some.injEq] at hfirst
  exact absurd (hdistinct.getElem_inj_iff.mp hfirst) (Nat.pos_iff_ne_zero.mp hpos)

/-- INTERNAL: the rotation is kept while the lists are in step.
SOURCE: torrent_refresh.rs:31-82 -/
theorem allSteps_keepsRotation (tier : List String) {envs : List RoundEnv}
    (h : ∀ env ∈ envs.dropLast, FirstOrNone tier env) :
    AllSteps (tierStep tier) (KeepsRotation tier) tier envs := by
  induction envs with
  | nil => trivial
  | cons env envs ih =>
    refine ⟨keepsRotation_tier tier env, fun after round hstep => ?_⟩
    cases envs with
    | nil => trivial
    | cons next envs =>
      rw [List.dropLast_cons_cons, List.forall_mem_cons] at h
      rw [after_of_firstOrNone h.1 hstep]
      exact ih h.2

/-- INTERNAL: only while the lists are in step is the rotation kept.
SOURCE: torrent_refresh.rs:31-82 -/
theorem firstOrNone_of_allSteps (hdistinct : tier.Nodup) {envs : List RoundEnv}
    {last : List String} (hrun : run (tierStep tier) tier envs = some last)
    (h : AllSteps (tierStep tier) (KeepsRotation tier) tier envs) :
    ∀ env ∈ envs.dropLast, FirstOrNone tier env := by
  induction envs with
  | nil => simp
  | cons env envs ih =>
    cases envs with
    | nil => simp
    | cons next envs =>
      obtain ⟨after, round, hstep, hrest⟩ := run_cons_eq_some.mp hrun
      have hnext := h.2 after round hstep
      have hfirst : FirstOrNone tier env := by
        by_contra hnot
        obtain ⟨a, hpos, hlt, hhead⟩ := head_of_not_firstOrNone hnot hstep
        obtain ⟨_, _, hstepped, -⟩ := run_cons_eq_some.mp hrest
        have hlength := length_tierStep (Eq.refl tier.length) hstep
        exact not_keepsRotation hdistinct hlength hpos hlt hhead hstepped hnext.1
      rw [after_of_firstOrNone hfirst hstep] at hnext hrest
      rw [List.dropLast_cons_cons, List.forall_mem_cons]
      exact ⟨hfirst, ih hrest hnext⟩

/-- **When the rotation of a tier is kept.** For every tier of distinct URLs and every sequence of
rounds, each round tries the trackers in the order of `tier_clone`, leaves it a permutation of the
tier with the tracker that has answered in front, and tries all trackers when none answers, if in
every round but the last the first tracker of the tier answers or none does. When the rounds all
end, it is so only then.
SOURCE: torrent_refresh.rs:24-83 -/
theorem rotation_iff (tier : List String) (hdistinct : tier.Nodup) (envs : List RoundEnv) :
    ((∀ env ∈ envs.dropLast, FirstOrNone tier env) →
        AllSteps (tierStep tier) (KeepsRotation tier) tier envs) ∧
      ∀ last, run (tierStep tier) tier envs = some last →
        AllSteps (tierStep tier) (KeepsRotation tier) tier envs →
          ∀ env ∈ envs.dropLast, FirstOrNone tier env :=
  ⟨allSteps_keepsRotation tier, fun _ => firstOrNone_of_allSteps hdistinct⟩

/-- The rotation of a tier of two trackers is kept over a round in which both would answer and one
in which none does. -/
theorem rotation_first_answers :
    AllSteps (tierStep ["http://a", "http://b"]) (KeepsRotation ["http://a", "http://b"])
      ["http://a", "http://b"]
      [sameCalls (.ok ⟨some 1800, some []⟩), sameCalls (.error ⟨"timeout"⟩)] :=
  (rotation_iff ["http://a", "http://b"] (by decide) _).1
    (by simp [FirstOrNone, sameCalls, TrackerAnswers])

/-- A round in which only the tracker at the position answers. -/
def answersAt (a : ℕ) : RoundEnv where
  parseUrl _ := none
  calls idx :=
    .returned (if idx = a then .ok ⟨some 1800, some []⟩ else .error ⟨"timeout"⟩)
  alreadySeenPeers := []
  receiving := true

/-- When the second of two trackers answers and then the first one, the first one is twice in
`tier_clone` and the second one is lost, and the second round has tried the first tracker first. -/
theorem second_tracker_lost :
    run (tierStep ["http://a", "http://b"]) ["http://a", "http://b"] [answersAt 1, answersAt 0] =
        some ["http://a", "http://a"] ∧
      ¬ AllSteps (tierStep ["http://a", "http://b"]) (KeepsRotation ["http://a", "http://b"])
        ["http://a", "http://b"] [answersAt 1, answersAt 0] := by
  have hfirst : tierStep ["http://a", "http://b"] ["http://a", "http://b"] (answersAt 1) =
      some (["http://b", "http://a"],
        ⟨["http://a", "http://b"], some ⟨some 1800, some []⟩, 1800, 1⟩, 1800) := by decide +kernel
  have hsecond : tierStep ["http://a", "http://b"] ["http://b", "http://a"] (answersAt 0) =
      some (["http://a", "http://a"],
        ⟨["http://a"], some ⟨some 1800, some []⟩, 1800, 0⟩, 1800) := by decide +kernel
  constructor
  · rw [run_cons_some _ hfirst, run_cons_some _ hsecond, run_nil]
  · rintro ⟨-, hnext⟩
    have hrotated := (hnext _ _ hfirst).1 _ _ _ hsecond
    exact absurd hrotated.perm (by decide)

end Fissure.Analysis
