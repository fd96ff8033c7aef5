import Fissure.Model.Tracker

/-!
# The rounds of the tracker refresh

`torrent_refresh` in `orchestration/torrent_refresh.rs`, one round at a time: the loop of a tier of
the announce list, with the trackers that it tries and how long it sleeps, and the loop for the
announce URL of a torrent without such a list. How the call of a tracker ends is given, and so are
the peers that the tiers have recorded by then; what the tiers share is in the model of their tasks.
An overflow of a count or of a waiting time panics, as in a debug build.
-/

set_option autoImplicit false

namespace Fissure.Model

open Fissure.Library

/-- `interval as u64`, of an `i64`. -/
def intervalAsU64 (interval : ℤ) : ℕ :=
  if 0 ≤ interval then interval.toNat else (2 ^ 64 + interval).toNat

/-! ## The loop of a tier -/

/-- How the call of a tracker ends, when its URL and its waiting time do not end it before. -/
inductive TrackerCall
  /-- the call of a UDP tracker gets no socket -/
  | unbound (e : FissureErr)
  /-- an `unwrap` or `expect` in the call fails: over HTTP the client is not built or the body of
  the answer breaks off, over UDP the manager is gone or the port is no `u16` -/
  | panics
  | returned (trackerRes : Except FissureErr TrackerResponse)

/-- Why the task of a tier panics. -/
inductive TierPanic
  | indexOutOfBounds
  | callPanicked
  | noHostPort
  | retryOverflow
  | timeoutOverflow
  | backoffOverflow
  | noPeers
  | noInterval
  | receiverGone
  deriving DecidableEq, Repr

/-- What a round meets: what `Url::parse` makes of a URL, how the call of the tracker at each position
ends, the peers that are recorded by then, and whether the orchestrator still receives. -/
structure RoundEnv where
  parseUrl : String → Option ParsedUrl
  calls : ℕ → TrackerCall
  alreadySeenPeers : List Peer
  receiving : Bool

/-- What a round has done: the trackers it tried, in order, what it sent, and its local variables at
the end. -/
structure TierRound where
  tried : List String
  sent : Option TrackerResponse
  interval : ℤ
  tierRetry : ℕ
  deriving DecidableEq

/-- `url.starts_with("https") || url.starts_with("http")`. -/
def isHttp (url : String) : Bool :=
  "https".toList.isPrefixOf url.toList || "http".toList.isPrefixOf url.toList

/-- The call of a tracker. A UDP tracker that gets a socket must have a host, and is waited for with
a time that depends on the failures before. -/
def callTracker (parseUrl : String → Option ParsedUrl) (url : String) (tierRetry : ℕ) :
    TrackerCall → Except TierPanic (Except FissureErr TrackerResponse)
  | .unbound e => .ok (.error e)
  | .panics => .error .callPanicked
  | .returned trackerRes =>
    if isHttp url then .ok trackerRes
    else if (extractTrackerHostPort parseUrl url).isNone then .error .noHostPort
    else if (udpTimeout tierRetry).isSome then .ok trackerRes
    else .error .timeoutOverflow

/-- The loop of a round over the positions: `tier_clone` after it and what was done. The URLs are
those of the tier, the one that answers is moved to the front of `tier_clone`. -/
def tryTrackers (tier tierClone : List String) (env : RoundEnv) :
    List ℕ → ℕ → Except TierPanic (List String × TierRound)
  | [], tierRetry => .ok (tierClone, ⟨[], none, 0, tierRetry⟩)
  | idx :: rest, tierRetry =>
    match tier[idx]? with
    | none => .error .indexOutOfBounds
    | some url =>
      match callTracker env.parseUrl url tierRetry (env.calls idx) with
      | .error panic => .error panic
      | .ok (.error _) =>
        if tierRetry + 1 < 2 ^ 32 then
          (tryTrackers tier tierClone env rest (tierRetry + 1)).map fun (tierClone, round) =>
            (tierClone, { round with tried := url :: round.tried })
        else .error .retryOverflow
      | .ok (.ok newResp) =>
        match newResp.peers, newResp.interval with
        | none, _ => .error .noPeers
        | some _, none => .error .noInterval
        | some newRespPeer, some interval =>
          let newRespPeer := fresh Peer.ip env.alreadySeenPeers newRespPeer
          if env.receiving then
            .ok (url :: tierClone.eraseIdx idx,
              ⟨[url], some { newResp with peers := some newRespPeer }, interval, tierRetry⟩)
          else .error .receiverGone

/-- `(5u32).pow(tier_retry)`, in seconds. -/
def backoff (tierRetry : ℕ) : Except TierPanic ℕ :=
  if 5 ^ tierRetry < 2 ^ 32 then .ok (5 ^ tierRetry) else .error .backoffOverflow

/-- How long the task sleeps after a round, in seconds. -/
def sleepSecs (round : TierRound) : Except TierPanic ℕ :=
  if round.interval ≠ 0 then .ok (intervalAsU64 round.interval) else backoff round.tierRetry

/-- One round of the loop of a tier: `tier_clone` after it, what was done and how long the task
sleeps. -/
def tierRound (tier tierClone : List String) (env : RoundEnv) :
    Except TierPanic (List String × TierRound × ℕ) := do
  let (tierClone, round) ← tryTrackers tier tierClone env (List.range tierClone.length) 0
  let secs ← sleepSecs round
  .ok (tierClone, round, secs)

/-- One round, `none` when it panics. -/
def tierStep (tier tierClone : List String) (env : RoundEnv) :
    Option (List String × TierRound × ℕ) := (tierRound tier tierClone env).toOption

/-! ## The loop for the announce URL -/

/-- One round of the loop without an announce list: the response that is remembered after it, what
is sent and how long the task sleeps, in seconds. -/
def legacyRound (oldTrackerResponse : Option TrackerResponse)
    (trackerResult : Except FissureErr TrackerResponse) :
    Option TrackerResponse × Option TrackerResponse × ℕ :=
  match trackerResult with
  | .error _ => (oldTrackerResponse, none, 5)
  | .ok newResp =>
    match newResp.peers with
    | none => (oldTrackerResponse, none, 5)
    | some newPeers =>
      let sent := match oldTrackerResponse with
        | some oldResp =>
          match oldResp.peers with
          | some oldPeers =>
            let newOnly := newPeers.filter fun p => !oldPeers.contains p
            if newOnly.isEmpty then none else some { newResp with peers := some newOnly }
          | none => none
        | none => some newResp
      (some newResp, sent, intervalAsU64 (newResp.interval.getD 900))

/-- One round; it does not panic. -/
def legacyStep (oldTrackerResponse : Option TrackerResponse)
    (trackerResult : Except FissureErr TrackerResponse) :
    Option (Option TrackerResponse × Option TrackerResponse × ℕ) :=
  some (legacyRound oldTrackerResponse trackerResult)

end Fissure.Model
