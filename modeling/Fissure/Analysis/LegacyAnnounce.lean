import Fissure.Library.Transition
import Fissure.Model.TrackerRounds

/-!
# The peers of a single tracker

Without an announce list one tracker is asked again and again. A round sends the peers that the last
response did not have, and only that response is remembered: a call that fails and a response
without peers leave it as it is (`legacyRound_unanswered`).

Every peer of the response that is remembered has been sent, so a peer that is held back is known to
the receiver already, and a peer that leaves and comes back is sent again (`forwards_every_peer`).
-/

set_option autoImplicit false

namespace Fissure.Analysis

open Fissure.Library Fissure.Model

/-- The peers of a successful response, if it has any list of them. -/
def peersOf : Except FissureErr TrackerResponse → Option (List Peer)
  | .ok resp => resp.peers
  | .error _ => none

/-- The peer lists of the successful responses, in order. -/
def answeredPeers (results : List (Except FissureErr TrackerResponse)) : List (List Peer) :=
  results.filterMap peersOf

/-- The peers that a round sends. -/
def batch (oldTrackerResponse : Option TrackerResponse)
    (trackerResult : Except FissureErr TrackerResponse) : Option (List Peer) :=
  (legacyRound oldTrackerResponse trackerResult).2.1.bind TrackerResponse.peers

/-- The batches of peers that were sent, in order. -/
def batches (results : List (Except FissureErr TrackerResponse)) : List (List Peer) :=
  outputs legacyStep batch none results

variable {results : List (Except FissureErr TrackerResponse)}
  {result : Except FissureErr TrackerResponse} {old : Option TrackerResponse}

/-! ## One round -/

/-- INTERNAL: a round without peers changes nothing and sends nothing.
SOURCE: torrent_refresh.rs:100-116 -/
theorem legacyRound_unanswered (old : Option TrackerResponse) (h : peersOf result = none) :
    legacyRound old result = (old, none, 5) := by
  cases result with
  | error e => rfl
  | ok resp =>
    have hpeers : resp.peers = none := h
    simp only [legacyRound, hpeers]

/-- INTERNAL: a response with peers is remembered.
SOURCE: torrent_refresh.rs:135 -/
theorem legacyRound_answered (old : Option TrackerResponse) {newPeers : List Peer}
    (h : peersOf result = some newPeers) :
    ∃ resp, resp.peers = some newPeers ∧ (legacyRound old result).1 = some resp := by
  cases result with
  | error e => cases h
  | ok resp =>
    have hpeers : resp.peers = some newPeers := h
    exact ⟨resp, hpeers, by simp only [legacyRound, hpeers]⟩

/-- INTERNAL: the first response with peers is sent as it is.
SOURCE: torrent_refresh.rs:131-133 -/
theorem batch_first {newPeers : List Peer} (h : peersOf result = some newPeers) :
    batch none result = some newPeers := by
  cases result with
  | error e => cases h
  | ok resp =>
    have hpeers : resp.peers = some newPeers := h
    simp only [batch, legacyRound, hpeers, Option.bind_some]

/-- INTERNAL: of a later response the peers are sent that the last one did not have, if any.
SOURCE: torrent_refresh.rs:118-130 -/
theorem batch_later {newPeers oldPeers : List Peer} (h : peersOf result = some newPeers)
    {oldResp : TrackerResponse} (hold : oldResp.peers = some oldPeers) :
    batch (some oldResp) result =
      if (newPeers.filter fun p => !oldPeers.contains p).isEmpty then none
      else some (newPeers.filter fun p => !oldPeers.contains p) := by
  cases result with
  | error e => cases h
  | ok resp =>
    have hpeers : resp.peers = some newPeers := h
    simp only [batch, legacyRound, hpeers, hold]
    split_ifs <;> rfl

/-- INTERNAL: the peers that a round sends after the first response. -/
theorem mem_batch_later {newPeers oldPeers : List Peer} (h : peersOf result = some newPeers)
    {oldResp : TrackerResponse} (hold : oldResp.peers = some oldPeers) {p : Peer} :
    p ∈ (batch (some oldResp) result).toList.flatten ↔ p ∈ newPeers ∧ p ∉ oldPeers := by
  have hfilter : p ∈ newPeers.filter (fun p => !oldPeers.contains p) ↔
      p ∈ newPeers ∧ p ∉ oldPeers := by
    simp [List.mem_filter]
  rw [batch_later h hold, ← hfilter]
  split_ifs with hempty
  · rw [List.isEmpty_iff.mp hempty]
    simp
  · simp

/-! ## The rounds -/

/-- The task remembers the last response with peers, has sent a batch if there was one, and has sent
the peers of all of them and no others. -/
structure Remembers (results : List (Except FissureErr TrackerResponse))
    (old : Option TrackerResponse) : Prop where
  last : old.map TrackerResponse.peers = (answeredPeers results).getLast?.map some
  started : batches results = [] ↔ answeredPeers results = []
  same_peers : ∀ p, p ∈ (batches results).flatten ↔ p ∈ (answeredPeers results).flatten

/-- INTERNAL: one more result. -/
theorem answeredPeers_append_singleton (results : List (Except FissureErr TrackerResponse))
    (result : Except FissureErr TrackerResponse) :
    answeredPeers (results ++ [result]) = answeredPeers results ++ (peersOf result).toList := by
  unfold answeredPeers
  rw [List.filterMap_append]
  cases h : peersOf result <;> simp [h]

/-- INTERNAL: one more round. -/
theorem batches_append_singleton (hrun : run legacyStep none results = some old)
    (result : Except FissureErr TrackerResponse) :
    batches (results ++ [result]) = batches results ++ (batch old result).toList := by
  have hstep : legacyStep old result =
      some ((legacyRound old result).1, (legacyRound old result).2) := rfl
  unfold batches
  rw [outputs_append [result] hrun, outputs_cons [] hstep]
  simp [outputs]

/-- INTERNAL: the response that is remembered has peers. -/
theorem Remembers.peers {oldResp : TrackerResponse} (h : Remembers results (some oldResp)) :
    ∃ oldPeers, oldResp.peers = some oldPeers ∧
      (answeredPeers results).getLast? = some oldPeers := by
  have hlast := h.last
  rw [Option.map_some, eq_comm, Option.map_eq_some_iff] at hlast
  obtain ⟨oldPeers, hanswers, hpeers⟩ := hlast
  exact ⟨oldPeers, hpeers.symm, hanswers⟩

/-- INTERNAL: nothing is remembered only before the first response with peers. -/
theorem Remembers.answeredPeers_eq_nil (h : Remembers results none) :
    answeredPeers results = [] := by
  have hlast := h.last
  rw [Option.map_none, eq_comm, Option.map_eq_none_iff] at hlast
  exact List.getLast?_eq_none_iff.mp hlast

/-- INTERNAL: the peers of a response are sent, those that were sent before it apart. -/
theorem Remembers.mem_sent (h : Remembers results old) {newPeers : List Peer}
    (hpeers : peersOf result = some newPeers) (p : Peer) :
    p ∈ (batches results).flatten ∨ p ∈ (batch old result).toList.flatten ↔
      p ∈ (answeredPeers results).flatten ∨ p ∈ newPeers := by
  rw [h.same_peers]
  cases old with
  | none => simp [batch_first hpeers]
  | some oldResp =>
    obtain ⟨oldPeers, hold, hanswers⟩ := h.peers
    have hknown (hmem : p ∈ oldPeers) : p ∈ (answeredPeers results).flatten :=
      List.mem_flatten.mpr ⟨oldPeers, List.mem_of_getLast? hanswers, hmem⟩
    rw [mem_batch_later hpeers hold]
    tauto

/-- INTERNAL: by the end of a round with peers some batch was sent. -/
theorem Remembers.exists_batch (h : Remembers results old) {newPeers : List Peer}
    (hpeers : peersOf result = some newPeers) :
    batches results ++ (batch old result).toList ≠ [] := by
  cases old with
  | none => simp [batch_first hpeers]
  | some oldResp =>
    obtain ⟨oldPeers, -, hanswers⟩ := h.peers
    have hstarted : batches results ≠ [] := by
      rw [ne_eq, h.started, ← List.getLast?_eq_none_iff, hanswers]
      simp
    simp [hstarted]

/-- INTERNAL: one round keeps what is remembered.
SOURCE: torrent_refresh.rs:89-141 -/
theorem Remembers.append_singleton (hrun : run legacyStep none results = some old)
    (h : Remembers results old) (result : Except FissureErr TrackerResponse) :
    Remembers (results ++ [result]) (legacyRound old result).1 := by
  have hbatches := batches_append_singleton hrun result
  have hanswers := answeredPeers_append_singleton results result
  cases hpeers : peersOf result with
  | none =>
    have hround := legacyRound_unanswered old hpeers
    rw [hpeers, Option.toList_none, List.append_nil] at hanswers
    rw [batch, hround, Option.bind_none, Option.toList_none, List.append_nil] at hbatches
    rw [hround]
    exact ⟨by rw [hanswers]; exact h.last, by rw [hanswers, hbatches]; exact h.started,
      by rw [hanswers, hbatches]; exact h.same_peers⟩
  | some newPeers =>
    obtain ⟨resp, hresp, hround⟩ := legacyRound_answered old hpeers
    rw [hpeers, Option.toList_some] at hanswers
    rw [hround]
    constructor
    · simp [hanswers, hresp]
    · rw [hbatches, hanswers]
      exact iff_of_false (h.exists_batch hpeers) (by simp)
    · intro p
      rw [hbatches, hanswers, List.flatten_append, List.flatten_append, List.mem_append,
        List.mem_append, h.mem_sent hpeers, List.flatten_singleton]

/-- INTERNAL: what is remembered after the rounds. The induction is on the results, the last one
first.
SOURCE: torrent_refresh.rs:85-142 -/
theorem exists_remembers (results : List (Except FissureErr TrackerResponse)) :
    ∃ old, run legacyStep none results = some old ∧ Remembers results old := by
  induction results using List.reverseRecOn with
  | nil => exact ⟨none, rfl, rfl, Iff.rfl, fun _ => Iff.rfl⟩
  | append_singleton results result ih =>
    obtain ⟨old, hrun, hinv⟩ := ih
    exact ⟨_, run_append.mpr ⟨old, hrun, rfl⟩, hinv.append_singleton hrun result⟩

/-- INTERNAL: a batch after the first has no peer of the last response with peers.
SOURCE: torrent_refresh.rs:118-130 -/
theorem only_new_peers {b : List Peer}
    (hbatch : batches (results ++ [result]) = batches results ++ [b]) (hlater : batches results ≠ []) :
    ∃ preceding, (answeredPeers results).getLast? = some preceding ∧ ∀ p ∈ b, p ∉ preceding := by
  obtain ⟨old, hrun, hinv⟩ := exists_remembers results
  rw [batches_append_singleton hrun, List.append_cancel_left_eq] at hbatch
  cases old with
  | none => exact absurd (hinv.started.mpr hinv.answeredPeers_eq_nil) hlater
  | some oldResp =>
    obtain ⟨oldPeers, hold, hanswers⟩ := hinv.peers
    refine ⟨oldPeers, hanswers, fun p hp => ?_⟩
    cases hpeers : peersOf result with
    | none => simp [batch, legacyRound_unanswered _ hpeers] at hbatch
    | some newPeers =>
      have hsent : p ∈ (batch (some oldResp) result).toList.flatten := by
        simpa [hbatch] using hp
      exact ((mem_batch_later hpeers hold).mp hsent).2

/-- **Every peer is forwarded.** For every sequence of results of the tracker, whether calls that
fail, responses without peers or lists of peers: the peers that were sent by then are those that
have occurred in a successful response, and when the next result leads to a batch that is not the
first one, it has no peer of the preceding successful response with peers.
SOURCE: torrent_refresh.rs:85-142, tracker.rs:179-187 -/
theorem forwards_every_peer (results : List (Except FissureErr TrackerResponse)) :
    (∀ p, p ∈ (batches results).flatten ↔ p ∈ (answeredPeers results).flatten) ∧
      ∀ result b, batches (results ++ [result]) = batches results ++ [b] → batches results ≠ [] →
        ∃ preceding, (answeredPeers results).getLast? = some preceding ∧
          ∀ p ∈ b, p ∉ preceding := by
  obtain ⟨old, -, hinv⟩ := exists_remembers results
  exact ⟨hinv.same_peers, fun result b hbatch hlater => only_new_peers hbatch hlater⟩

end Fissure.Analysis
