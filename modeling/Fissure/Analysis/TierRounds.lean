import Fissure.Library.Transition
import Fissure.Model.TrackerRounds

/-!
# The rounds of a tier

A round tries the trackers at the positions of the tier until one answers, and counts the failures
before. `tryTrackers_cons_eq_ok_iff` says what one position does, `tryTrackers_range'_eq_ok_iff` when a
round gets to its end and what it has done by then.

`rounds_go_on_iff` says which rounds end without a panic and with the sleep that was asked for. The
trackers are tried in the order of the tier, not in that of `tier_clone`, where the one that has
answered is moved to the front: `rotation_iff` says how long the two lists are in step.
-/

set_option autoImplicit false

namespace Fissure.Analysis

open Fissure.Library Fissure.Model

/-! ## One round -/

/-- The tracker has answered. -/
def TrackerAnswers : TrackerCall → Prop
  | .returned (.ok _) => True
  | _ => False

/-- The call gets as far as to wait for the tracker. -/
def WaitedFor : TrackerCall → Prop
  | .returned _ => True
  | _ => False

/-- A UDP tracker with this URL is found and waited for: the URL has a host, and the time to wait
fits `u64`. -/
def Reachable (parseUrl : String → Option ParsedUrl) (url : String) (retry : ℕ) : Prop :=
  (extractTrackerHostPort parseUrl url).isSome = true ∧ retry ≤ 60

/-- The call of the tracker at the position does not panic. -/
def CallSurvives (tier : List String) (env : RoundEnv) (idx : ℕ) : Prop :=
  env.calls idx ≠ .panics ∧
    ∀ url, tier[idx]? = some url → isHttp url = false → WaitedFor (env.calls idx) →
      Reachable env.parseUrl url idx

/-- INTERNAL: the time to wait for a UDP tracker fits `u64` after at most sixty failures.
SOURCE: tracker.rs:85, tracker.rs:129 -/
theorem udpTimeout_isSome_iff {retry : ℕ} : (udpTimeout retry).isSome = true ↔ retry ≤ 60 := by
  have hfits : 15 * (2 ^ retry + 1) < 2 ^ 64 ↔ retry ≤ 60 := by
    constructor
    · intro h
      by_contra hlarge
      have hpow := Nat.pow_le_pow_right (n := 2) (by decide) (Nat.not_le.mp hlarge)
      omega
    · intro h
      have hpow := Nat.pow_le_pow_right (n := 2) (by decide) h
      omega
  unfold udpTimeout
  by_cases h : retry ≤ 60
  · rw [if_pos (hfits.mpr h)]
    simp [h]
  · rw [if_neg (mt hfits.mp h)]
    simp [h]

/-- INTERNAL: the backoff fits `u32` after at most thirteen failures.
SOURCE: torrent_refresh.rs:80 -/
theorem backoff_eq_ok_iff {tierRetry secs : ℕ} :
    backoff tierRetry = .ok secs ↔ tierRetry ≤ 13 ∧ secs = 5 ^ tierRetry := by
  have hfits : 5 ^ tierRetry < 2 ^ 32 ↔ tierRetry ≤ 13 := by
    constructor
    · intro h
      by_contra hlarge
      have hpow := Nat.pow_le_pow_right (n := 5) (by decide) (Nat.not_le.mp hlarge)
      omega
    · intro h
      have hpow := Nat.pow_le_pow_right (n := 5) (by decide) h
      omega
  unfold backoff
  by_cases h : tierRetry ≤ 13
  · rw [if_pos (hfits.mpr h)]
    simp [h, eq_comm]
  · rw [if_neg (mt hfits.mp h)]
    simp [h]

/-- INTERNAL: a call that gets to wait for its tracker returns what it was told, or panics before.
SOURCE: tracker.rs:70-71, tracker.rs:85-102 -/
theorem callTracker_returned (parseUrl : String → Option ParsedUrl) (url : String) (retry : ℕ)
    (trackerRes : Except FissureErr TrackerResponse) :
    ((isHttp url = false → Reachable parseUrl url retry) ∧
        callTracker parseUrl url retry (.returned trackerRes) = .ok trackerRes) ∨
      ¬ (isHttp url = false → Reachable parseUrl url retry) ∧
        ∃ panic, callTracker parseUrl url retry (.returned trackerRes) = .error panic := by
  unfold callTracker Reachable
  cases isHttp url with
  | true => exact Or.inl ⟨nofun, rfl⟩
  | false =>
    cases hhost : extractTrackerHostPort parseUrl url with
    | none => exact Or.inr ⟨by simp, .noHostPort, rfl⟩
    | some host =>
      by_cases hretry : retry ≤ 60
      · exact Or.inl ⟨fun _ => ⟨rfl, hretry⟩, by simp [udpTimeout_isSome_iff.mpr hretry]⟩
      · refine Or.inr ⟨by simp [hretry], .timeoutOverflow, ?_⟩
        simp [mt udpTimeout_isSome_iff.mp hretry]

/-- INTERNAL: when a call fails without a panic.
SOURCE: tracker.rs:70-71, tracker.rs:85-102 -/
theorem callTracker_error_iff {parseUrl : String → Option ParsedUrl} {url : String} {retry : ℕ}
    {call : TrackerCall} :
    (∃ e, callTracker parseUrl url retry call = .ok (.error e)) ↔
      ¬ TrackerAnswers call ∧ call ≠ .panics ∧
        (isHttp url = false → WaitedFor call → Reachable parseUrl url retry) := by
  cases call with
  | unbound e => simp [callTracker, TrackerAnswers, WaitedFor]
  | panics => simp [callTracker]
  | returned trackerRes =>
    rcases callTracker_returned parseUrl url retry trackerRes with ⟨hfound, hcall⟩ |
      ⟨hlost, panic, hcall⟩
    · cases trackerRes with
      | error e => simpa [hcall, TrackerAnswers, WaitedFor] using hfound
      | ok resp => simp [hcall, TrackerAnswers]
    · refine iff_of_false (by simp [hcall]) ?_
      rintro ⟨-, -, hfound⟩
      exact hlost fun hudp => hfound hudp trivial

/-- INTERNAL: when a call brings an answer.
SOURCE: tracker.rs:57-60, tracker.rs:144 -/
theorem callTracker_ok_iff {parseUrl : String → Option ParsedUrl} {url : String} {retry : ℕ}
    {call : TrackerCall} {resp : TrackerResponse} :
    callTracker parseUrl url retry call = .ok (.ok resp) ↔
      call = .returned (.ok resp) ∧ (isHttp url = false → Reachable parseUrl url retry) := by
  cases call with
  | unbound e => simp [callTracker]
  | panics => simp [callTracker]
  | returned trackerRes =>
    rcases callTracker_returned parseUrl url retry trackerRes with ⟨hfound, hcall⟩ |
      ⟨hlost, panic, hcall⟩
    · rw [hcall, and_iff_left hfound]
      simp
    · exact iff_of_false (by simp [hcall]) fun h => hlost h.2

/-- The tracker at the position fails, and the round goes on to the next one. -/
def PassedOver (tier : List String) (env : RoundEnv) (idx : ℕ) : Prop :=
  ¬ TrackerAnswers (env.calls idx) ∧ CallSurvives tier env idx ∧ idx + 1 < 2 ^ 32

/-- The loop of a round ends at position `a`: no tracker is left, or the one there has given a whole
answer and its peers were sent. -/
inductive EndsAt (tier tierClone : List String) (env : RoundEnv) (start : ℕ) :
    ℕ → List String → TierRound → Prop
  | unanswered :
    EndsAt tier tierClone env start tier.length tierClone ⟨tier.drop start, none, 0, tier.length⟩
  | answered {a : ℕ} {url : String} {resp : TrackerResponse} {peers : List Peer} {interval : ℤ}
    (hurl : tier[a]? = some url) (hcall : env.calls a = .returned (.ok resp))
    (hfits : CallSurvives tier env a) (hpeers : resp.peers = some peers)
    (hinterval : resp.interval = some interval) (hreceiving : env.receiving = true) :
    EndsAt tier tierClone env start a (url :: tierClone.eraseIdx a)
      ⟨(tier.take (a + 1)).drop start,
        some { resp with peers := some (fresh Peer.ip env.alreadySeenPeers peers) }, interval, a⟩

variable {tier tierClone : List String} {env : RoundEnv}

theorem callSurvives_iff {idx : ℕ} {url : String} (hurl : tier[idx]? = some url) :
    CallSurvives tier env idx ↔ env.calls idx ≠ .panics ∧
      (isHttp url = false → WaitedFor (env.calls idx) → Reachable env.parseUrl url idx) := by
  simp [CallSurvives, hurl]

/-- INTERNAL: a tracker is passed over when its call fails and the failure can be counted.
SOURCE: torrent_refresh.rs:54-61 -/
theorem passedOver_iff {idx : ℕ} {url : String} (hurl : tier[idx]? = some url) :
    PassedOver tier env idx ↔
      (∃ e, callTracker env.parseUrl url idx (env.calls idx) = .ok (.error e)) ∧
        idx + 1 < 2 ^ 32 := by
  rw [callTracker_error_iff, ← callSurvives_iff hurl, PassedOver, and_assoc]

/-- INTERNAL: one more tracker is tried before. -/
theorem EndsAt.cons {start a : ℕ} {url : String} {after : List String} {round : TierRound}
    (h : EndsAt tier tierClone env (start + 1) a after round) (hurl : tier[start]? = some url)
    (hlt : start < a) :
    EndsAt tier tierClone env start a after { round with tried := url :: round.tried } := by
  obtain ⟨hstart, rfl⟩ := List.getElem?_eq_some_iff.mp hurl
  cases h with
  | unanswered =>
    rw [← List.drop_eq_getElem_cons hstart]
    exact .unanswered
  | answered hanswer hcall hfits hpeers hinterval hreceiving =>
    have htaken : start < (tier.take (a + 1)).length := by
      rw [List.length_take]
      omega
    have htried : tier[start] :: (tier.take (a + 1)).drop (start + 1) =
        (tier.take (a + 1)).drop start := by
      rw [List.drop_eq_getElem_cons htaken, List.getElem_take]
    rw [htried]
    exact .answered hanswer hcall hfits hpeers hinterval hreceiving

/-- INTERNAL: the first of the trackers was tried before the others. -/
theorem EndsAt.tail {start a : ℕ} {url : String} {after : List String} {round : TierRound}
    (h : EndsAt tier tierClone env start a after round) (hurl : tier[start]? = some url)
    (hlt : start < a) :
    ∃ rest, EndsAt tier tierClone env (start + 1) a after rest ∧
      round = { rest with tried := url :: rest.tried } := by
  obtain ⟨hstart, rfl⟩ := List.getElem?_eq_some_iff.mp hurl
  cases h with
  | unanswered => exact ⟨_, .unanswered, by rw [List.drop_eq_getElem_cons hstart]⟩
  | answered hanswer hcall hfits hpeers hinterval hreceiving =>
    refine ⟨_, .answered hanswer hcall hfits hpeers hinterval hreceiving, ?_⟩
    have htaken : start < (tier.take (a + 1)).length := by
      rw [List.length_take]
      omega
    rw [List.drop_eq_getElem_cons htaken, List.getElem_take]

/-- INTERNAL: one position of the loop: the round ends there, or the tracker is passed over and the
round goes on with the next position.
SOURCE: torrent_refresh.rs:35-79 -/
theorem tryTrackers_cons_eq_ok_iff {start : ℕ} {rest : List ℕ} {url : String}
    (hurl : tier[start]? = some url) {after : List String} {round : TierRound} :
    tryTrackers tier tierClone env (start :: rest) start = .ok (after, round) ↔
      EndsAt tier tierClone env start start after round ∨
        PassedOver tier env start ∧
          ∃ later, tryTrackers tier tierClone env rest (start + 1) = .ok (after, later) ∧
            round = { later with tried := url :: later.tried } := by
  have hstart : start < tier.length := (List.getElem?_eq_some_iff.mp hurl).1
  have htried : (tier.take (start + 1)).drop start = [url] := by
    rw [List.take_add_one, hurl, List.drop_left' (by simp; omega)]
    rfl
  simp only [tryTrackers, hurl]
  constructor
  · intro h
    cases hcall : callTracker env.parseUrl url start (env.calls start) with
    | error panic => simp [hcall] at h
    | ok res =>
      cases res with
      | error e =>
        simp only [hcall] at h
        split_ifs at h with hcount
        refine Or.inr ⟨(passedOver_iff hurl).mpr ⟨⟨e, hcall⟩, hcount⟩, ?_⟩
        cases hlater : tryTrackers tier tierClone env rest (start + 1) with
        | error panic => simp [hlater, Except.map] at h
        | ok done =>
          simp only [hlater, Except.map, Except.ok.injEq] at h
          cases h
          exact ⟨done.2, rfl, rfl⟩
      | ok resp =>
        obtain ⟨hanswer, hfits⟩ := callTracker_ok_iff.mp hcall
        simp only [hcall] at h
        split at h
        · cases h
        · cases h
        · rename_i peers interval hpeers hinterval
          split_ifs at h with hreceiving
          cases h
          left
          rw [← htried]
          have hfits : CallSurvives tier env start :=
            (callSurvives_iff hurl).mpr ⟨by simp [hanswer], fun hudp _ => hfits hudp⟩
          exact .answered hurl hanswer hfits hpeers hinterval hreceiving
  · rintro (hends | ⟨hover, later, hlater, rfl⟩)
    · cases hends with
      | unanswered => omega
      | answered hfirst hanswer hfits hpeers hinterval hreceiving =>
        rw [hurl] at hfirst
        cases hfirst
        have hcall := callTracker_ok_iff.mpr ⟨hanswer, fun hudp =>
          ((callSurvives_iff hurl).mp hfits).2 hudp (by rw [hanswer]; trivial)⟩
        simp [hcall, hpeers, hinterval, hreceiving, htried]
    · obtain ⟨⟨e, hcall⟩, hcount⟩ := (passedOver_iff hurl).mp hover
      simp only [hcall, if_pos hcount, hlater, Except.map]

/-- INTERNAL: what it takes for the rest of a round to get to its end, and what is done then. The
induction is on the positions that are left; the failures so far are the position.
SOURCE: torrent_refresh.rs:35-79 -/
theorem tryTrackers_range'_eq_ok_iff {start k : ℕ} (hlength : start + k = tier.length)
    {after : List String} {round : TierRound} :
    tryTrackers tier tierClone env (List.range' start k) start = .ok (after, round) ↔
      ∃ a, start ≤ a ∧ (∀ idx, start ≤ idx → idx < a → PassedOver tier env idx) ∧
        EndsAt tier tierClone env start a after round := by
  induction k generalizing start after round with
  | zero =>
    have hstart : start = tier.length := hlength
    subst hstart
    have hnil : tier.drop tier.length = [] := List.drop_length
    constructor
    · intro h
      cases h
      refine ⟨tier.length, Nat.le_refl _, fun idx hle hlt => absurd hlt (Nat.not_lt.mpr hle), ?_⟩
      rw [← hnil]
      exact .unanswered
    · rintro ⟨a, hle, -, hends⟩
      cases hends with
      | unanswered => rw [hnil]; rfl
      | answered hurl =>
        rw [List.getElem?_eq_none hle] at hurl
        cases hurl
  | succ k ih =>
    have hstart : start < tier.length := by omega
    have hurl := List.getElem?_eq_getElem hstart
    have hrest {after : List String} {later : TierRound} :
        tryTrackers tier tierClone env (List.range' (start + 1) k) (start + 1) =
            .ok (after, later) ↔ _ := ih (by omega)
    rw [List.range'_succ, tryTrackers_cons_eq_ok_iff hurl]
    constructor
    · rintro (hends | ⟨hover, later, hlater, rfl⟩)
      · exact ⟨start, Nat.le_refl _, fun idx hle hlt => absurd hlt (Nat.not_lt.mpr hle), hends⟩
      · obtain ⟨a, hle, hovers, hends⟩ := hrest.mp hlater
        refine ⟨a, Nat.le_of_succ_le hle, fun idx hidx hlt => ?_, hends.cons hurl hle⟩
        rcases Nat.eq_or_lt_of_le hidx with rfl | hidx
        · exact hover
        · exact hovers idx hidx hlt
    · rintro ⟨a, hle, hovers, hends⟩
      rcases Nat.eq_or_lt_of_le hle with rfl | hlt
      · exact Or.inl hends
      · obtain ⟨later, hlast, rfl⟩ := hends.tail hurl hlt
        refine Or.inr ⟨hovers start (Nat.le_refl _) hlt, later, hrest.mpr ?_, rfl⟩
        exact ⟨a, hlt, fun idx hidx => hovers idx (Nat.le_of_succ_le hidx), hlast⟩

/-- The sleep after the round has this length, in seconds. -/
def Sleeps (round : TierRound) (secs : ℕ) : Prop :=
  if round.interval ≠ 0 then secs = intervalAsU64 round.interval
  else round.tierRetry ≤ 13 ∧ secs = 5 ^ round.tierRetry

theorem sleepSecs_eq_ok_iff {round : TierRound} {secs : ℕ} :
    sleepSecs round = .ok secs ↔ Sleeps round secs := by
  unfold sleepSecs Sleeps
  split_ifs
  · simp [eq_comm]
  · exact backoff_eq_ok_iff

/-- INTERNAL: what it takes for a round to end without a panic, and what is done then.
SOURCE: torrent_refresh.rs:32-80 -/
theorem tierStep_eq_some_iff (hlength : tierClone.length = tier.length) {after : List String}
    {round : TierRound} {secs : ℕ} :
    tierStep tier tierClone env = some (after, round, secs) ↔
      ∃ a, (∀ idx < a, PassedOver tier env idx) ∧ EndsAt tier tierClone env 0 a after round ∧
        Sleeps round secs := by
  have htried : tryTrackers tier tierClone env (List.range' 0 tier.length) 0 = .ok (after, round) ↔
      _ := tryTrackers_range'_eq_ok_iff (Nat.zero_add tier.length)
  have hround : tierStep tier tierClone env = some (after, round, secs) ↔
      tryTrackers tier tierClone env (List.range' 0 tier.length) 0 = .ok (after, round) ∧
        Sleeps round secs := by
    unfold tierStep tierRound
    rw [← sleepSecs_eq_ok_iff, List.range_eq_range', hlength]
    cases tryTrackers tier tierClone env (List.range' 0 tier.length) 0 with
    | error panic => simp [Except.toOption, bind, Except.bind]
    | ok done =>
      obtain ⟨last, done⟩ := done
      simp only [bind, Except.bind, Except.ok.injEq, Prod.mk.injEq]
      cases hsecs : sleepSecs done with
      | error panic =>
        simp only [Except.toOption, reduceCtorEq, false_iff]
        rintro ⟨⟨rfl, rfl⟩, h⟩
        simp [hsecs] at h
      | ok slept =>
        simp only [Except.toOption, Option.some.injEq, Prod.mk.injEq]
        constructor
        · rintro ⟨rfl, rfl, rfl⟩
          exact ⟨⟨rfl, rfl⟩, hsecs⟩
        · rintro ⟨⟨rfl, rfl⟩, h⟩
          rw [hsecs] at h
          exact ⟨rfl, rfl, Except.ok.inj h⟩
  rw [hround, htried]
  constructor
  · rintro ⟨⟨a, -, hover, hends⟩, hsecs⟩
    exact ⟨a, fun idx => hover idx (Nat.zero_le _), hends, hsecs⟩
  · rintro ⟨a, hover, hends, hsecs⟩
    exact ⟨⟨a, Nat.zero_le _, fun idx _ => hover idx, hends⟩, hsecs⟩

/-- INTERNAL: a round keeps the length of `tier_clone`.
SOURCE: torrent_refresh.rs:75-76 -/
theorem length_tierStep (hlength : tierClone.length = tier.length) {after : List String}
    {round : TierRound × ℕ} (h : tierStep tier tierClone env = some (after, round)) :
    after.length = tier.length := by
  obtain ⟨round, secs⟩ := round
  obtain ⟨a, -, hends, -⟩ := (tierStep_eq_some_iff hlength).mp h
  cases hends with
  | unanswered => exact hlength
  | answered hurl =>
    have hlt : a < tierClone.length := by
      rw [hlength]
      exact (List.getElem?_eq_some_iff.mp hurl).1
    rw [List.length_cons, List.length_eraseIdx_of_lt hlt]
    omega

/-! ## Rounds that go on -/

/-- The round ends without a panic, and when it was told an interval, the task sleeps for that. -/
def KeepsGoing (tier tierClone : List String) (env : RoundEnv) : Prop :=
  ∃ after round secs, tierStep tier tierClone env = some (after, round, secs) ∧
    (round.interval ≠ 0 → (secs : ℤ) = round.interval)

/-- The answer has peers and an interval that is not negative. -/
def WholeAnswer (resp : TrackerResponse) (interval : ℤ) : Prop :=
  resp.peers.isSome = true ∧ resp.interval = some interval ∧ 0 ≤ interval

/-- After the trackers that are passed over, none is left and there were at most thirteen; or the
call of the next one survives and brings a whole answer, the orchestrator still receives, and there
were at most thirteen failures if the interval is zero. -/
def TierGoesOn (tier : List String) (env : RoundEnv) : Prop :=
  ∃ a, (∀ idx < a, PassedOver tier env idx) ∧
    (a = tier.length ∧ a ≤ 13 ∨
      a < tier.length ∧ CallSurvives tier env a ∧ env.receiving = true ∧
        ∃ resp interval, env.calls a = .returned (.ok resp) ∧ WholeAnswer resp interval ∧
          (interval = 0 → a ≤ 13))

/-- INTERNAL: an interval is slept for as it is unless it is negative.
SOURCE: torrent_refresh.rs:80 -/
theorem intervalAsU64_eq_iff {interval : ℤ} :
    (intervalAsU64 interval : ℤ) = interval ↔ 0 ≤ interval := by
  unfold intervalAsU64
  split_ifs with h
  · simp [h]
  · omega

/-- INTERNAL: when there is a sleep of the length that was asked for.
SOURCE: torrent_refresh.rs:80 -/
theorem exists_sleeps_iff {round : TierRound} :
    (∃ secs, Sleeps round secs ∧ (round.interval ≠ 0 → (secs : ℤ) = round.interval)) ↔
      0 ≤ round.interval ∧ (round.interval = 0 → round.tierRetry ≤ 13) := by
  by_cases hzero : round.interval = 0
  · simp [Sleeps, hzero]
  · simp [Sleeps, hzero, intervalAsU64_eq_iff]

/-- INTERNAL: one round.
SOURCE: torrent_refresh.rs:31-82 -/
theorem keepsGoing_iff (hlength : tierClone.length = tier.length) :
    KeepsGoing tier tierClone env ↔ TierGoesOn tier env := by
  constructor
  · rintro ⟨after, round, secs, hstep, hslept⟩
    obtain ⟨a, hover, hends, hsleeps⟩ := (tierStep_eq_some_iff hlength).mp hstep
    obtain ⟨hnonneg, hfew⟩ := exists_sleeps_iff.mp ⟨secs, hsleeps, hslept⟩
    refine ⟨a, hover, ?_⟩
    cases hends with
    | unanswered => exact Or.inl ⟨rfl, hfew rfl⟩
    | answered hurl hcall hfits hpeers hinterval hreceiving =>
      have hlt := (List.getElem?_eq_some_iff.mp hurl).1
      have hwhole : WholeAnswer _ _ := ⟨by simp [hpeers], hinterval, hnonneg⟩
      exact Or.inr ⟨hlt, hfits, hreceiving, _, _, hcall, hwhole, hfew⟩
  · rintro ⟨a, hover, hend⟩
    have hround : ∃ after round, EndsAt tier tierClone env 0 a after round ∧ 0 ≤ round.interval ∧
        (round.interval = 0 → round.tierRetry ≤ 13) := by
      rcases hend with ⟨rfl, hfew⟩ | ⟨hlt, hfits, hreceiving, resp, interval, hcall, hwhole, hfew⟩
      · exact ⟨_, _, .unanswered, Int.le_refl 0, fun _ => hfew⟩
      · obtain ⟨hpeers, hinterval, hnonneg⟩ := hwhole
        obtain ⟨peers, hpeers⟩ := Option.isSome_iff_exists.mp hpeers
        have hurl := List.getElem?_eq_getElem hlt
        exact ⟨_, _, .answered hurl hcall hfits hpeers hinterval hreceiving, hnonneg, hfew⟩
    obtain ⟨after, round, hends, hsleeps⟩ := hround
    obtain ⟨secs, hsleeps, hslept⟩ := exists_sleeps_iff.mpr hsleeps
    have hstep := (tierStep_eq_some_iff hlength).mpr ⟨a, hover, hends, hsleeps⟩
    exact ⟨after, round, secs, hstep, hslept⟩

/-- **Which rounds a tier survives.** For every tier and every sequence of rounds, whatever the
calls of the trackers come to: all rounds end without a panic, an overflow or a missing field, and
with the sleep that the tracker has asked for, exactly when in each of them no call panics, the
trackers before the answer fail in time and few enough, and the answer is a whole one that is
received.
SOURCE: torrent_refresh.rs:31-82, tracker.rs:63-102, tracker.rs:189-197 -/
theorem rounds_go_on_iff (tier : List String) (envs : List RoundEnv) :
    AllSteps (tierStep tier) (KeepsGoing tier) tier envs ↔ ∀ env ∈ envs, TierGoesOn tier env := by
  have hrounds (tierClone : List String) (hlength : tierClone.length = tier.length) :
      AllSteps (tierStep tier) (KeepsGoing tier) tierClone envs ↔
        ∀ env ∈ envs, TierGoesOn tier env := by
    induction envs generalizing tierClone with
    | nil => simp [AllSteps]
    | cons env envs ih =>
      rw [List.forall_mem_cons, ← keepsGoing_iff hlength]
      constructor
      · rintro ⟨hfirst, hrest⟩
        have ⟨after, round, secs, hstep, _⟩ := hfirst
        exact ⟨hfirst, (ih after (length_tierStep hlength hstep)).mp (hrest _ _ hstep)⟩
      · rintro ⟨hfirst, hrest⟩
        exact ⟨hfirst, fun after _ hstep => (ih after (length_tierStep hlength hstep)).mpr hrest⟩
  exact hrounds tier rfl

/-- A round in which every call ends in the same way. -/
def sameCalls (trackerRes : Except FissureErr TrackerResponse) : RoundEnv :=
  ⟨fun _ => none, fun _ => .returned trackerRes, [], true⟩

/-- What `Url::parse` makes of `udp:/`: a URL without a host. -/
def noHost : ParsedUrl := ⟨"udp", none, none⟩

theorem not_keepsGoing_of_panic (h : tierStep tier tierClone env = none) :
    ¬ KeepsGoing tier tierClone env := by
  rintro ⟨after, round, secs, hstep, -⟩
  rw [h] at hstep
  cases hstep

/-- A tier ends when its fourteen trackers fail, at an answer without peers and at one without an
interval, and at a UDP tracker without a host; and it sleeps for 584 billion years after an interval
of minus one second. -/
theorem tier_stops :
    ¬ KeepsGoing (List.replicate 14 "http://t") (List.replicate 14 "http://t")
        (sameCalls (.error ⟨"timeout"⟩)) ∧
      ¬ KeepsGoing ["http://t"] ["http://t"] (sameCalls (.ok ⟨some 1800, none⟩)) ∧
      ¬ KeepsGoing ["http://t"] ["http://t"] (sameCalls (.ok ⟨none, some []⟩)) ∧
      ¬ KeepsGoing ["udp:/"] ["udp:/"]
        { sameCalls (.error ⟨"timeout"⟩) with parseUrl := fun _ => some noHost } ∧
      ¬ KeepsGoing ["http://t"] ["http://t"] (sameCalls (.ok ⟨some (-1), some []⟩)) := by
  refine ⟨not_keepsGoing_of_panic (by decide +kernel), not_keepsGoing_of_panic (by decide +kernel),
    not_keepsGoing_of_panic (by decide +kernel), not_keepsGoing_of_panic (by decide +kernel), ?_⟩
  rintro ⟨after, round, secs, hstep, hslept⟩
  have hround : tierStep ["http://t"] ["http://t"] (sameCalls (.ok ⟨some (-1), some []⟩)) =
      some (["http://t"], ⟨["http://t"], some ⟨some (-1), some []⟩, -1, 0⟩, 2 ^ 64 - 1) := by
    decide +kernel
  rw [hround] at hstep
  cases hstep
  revert hslept
  decide

end Fissure.Analysis
