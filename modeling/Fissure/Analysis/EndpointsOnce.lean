import Mathlib.Data.List.Nodup
import Fissure.Analysis.RefreshSteps

/-!
# Each endpoint is handed over once

The tasks of the tiers drop a peer when its address is recorded, whatever its port, and look at
the record and add to it in two steps. So each endpoint that the trackers list goes to the
orchestrator exactly once in every interleaving only if an address stands for one endpoint
(`OneAddressEach`): no two tiers list the same address, a later response of a tier brings under an
old address only what an earlier one did, the new peers of a response are distinct, and a response
without an interval has none.

That this is enough is an invariant of each tier (`TierStands`). That it is needed is shown by
runs: a tier that is alone hands over what its first response with an address has for it, and two
tiers with the same address can both look before either records (`not_both_retain`).
-/

set_option autoImplicit false

namespace Fissure.Analysis

open Fissure.Library Fissure.Model

/-- The responses that the task of a tier gets: it does not survive the first one that lacks its
peers or its interval. -/
def answersOf : List TrackerResponse → List TrackerResponse
  | [] => []
  | newResp :: responses =>
    if endsTier newResp then [newResp] else newResp :: answersOf responses

/-- The peers that the trackers of a tier list. -/
def tierPeers (responses : List TrackerResponse) : List Peer := listed (answersOf responses)

/-- When the responses are worked off, each endpoint in them has been sent exactly once. -/
def EndpointsOnce (tiers : List (List TrackerResponse)) : Prop :=
  ∀ es s, run refreshStep (TorrentRefresh.new tiers) es = some s → WorkedOff s →
    ∀ responses ∈ tiers, ∀ peer ∈ tierPeers responses,
      (s.handshakes.map endpoint).count (endpoint peer) = 1

/-- The peers of a response whose address no earlier response of the tier has. -/
def newPeers (earlier : List TrackerResponse) (newResp : TrackerResponse) : List Peer :=
  fresh Peer.ip (listed earlier) (listed [newResp])

/-- In the responses of a tier an address stands for what first came with it. -/
structure OneFirstListing (responses : List TrackerResponse) : Prop where
  distinct : ∀ earlier newResp later, answersOf responses = earlier ++ newResp :: later →
    ((newPeers earlier newResp).map endpoint).Nodup
  timed : ∀ earlier newResp later, answersOf responses = earlier ++ newResp :: later →
    newResp.interval = none → newPeers earlier newResp = []
  repeated : ∀ earlier newResp later, answersOf responses = earlier ++ newResp :: later →
    ∀ peer ∈ listed [newResp], peer.ip ∈ (listed earlier).map Peer.ip →
      endpoint peer ∈ (listed earlier).map endpoint

/-- An address stands for what first came with it in one tier. -/
structure OneAddressEach (tiers : List (List TrackerResponse)) : Prop where
  tier : ∀ responses ∈ tiers, OneFirstListing responses
  apart : tiers.Pairwise fun responses responses' =>
    ∀ peer ∈ tierPeers responses, ∀ peer' ∈ tierPeers responses', peer.ip ≠ peer'.ip

/-! ## The responses of a tier -/

theorem answersOf_append {earlier : List TrackerResponse}
    (hpast : ∀ newResp ∈ earlier, endsTier newResp = false) (responses : List TrackerResponse) :
    answersOf (earlier ++ responses) = earlier ++ answersOf responses := by
  induction earlier with
  | nil => rfl
  | cons newResp earlier ih =>
    rw [List.forall_mem_cons] at hpast
    rw [List.cons_append, answersOf, if_neg (Bool.eq_false_iff.mp hpast.1), ih hpast.2,
      List.cons_append]

/-- The response a task comes to is among those it gets. -/
theorem answersOf_split {responses earlier rest : List TrackerResponse}
    {newResp : TrackerResponse} (hsplit : responses = earlier ++ newResp :: rest)
    (hpast : ∀ past ∈ earlier, endsTier past = false) :
    ∃ later, answersOf responses = earlier ++ newResp :: later := by
  rw [hsplit, answersOf_append hpast, answersOf]
  split_ifs
  · exact ⟨[], rfl⟩
  · exact ⟨answersOf rest, rfl⟩

/-- A response that the task does not survive is the last one it gets. -/
theorem answersOf_of_ends {responses earlier rest : List TrackerResponse}
    {newResp : TrackerResponse} (hsplit : responses = earlier ++ newResp :: rest)
    (hpast : ∀ past ∈ earlier, endsTier past = false) (hends : endsTier newResp = true) :
    answersOf responses = earlier ++ [newResp] := by
  rw [hsplit, answersOf_append hpast, answersOf, if_pos hends]

/-- A task comes to each response that it gets. -/
theorem answersOf_eq_append {responses earlier later : List TrackerResponse}
    {newResp : TrackerResponse} (h : answersOf responses = earlier ++ newResp :: later) :
    (∀ past ∈ earlier, endsTier past = false) ∧
      ∃ rest, responses = earlier ++ newResp :: rest := by
  induction earlier generalizing responses with
  | nil =>
    cases responses with
    | nil => cases h
    | cons first rest =>
      rw [answersOf] at h
      split_ifs at h <;> cases h <;> exact ⟨nofun, rest, rfl⟩
  | cons past earlier ih =>
    cases responses with
    | nil => cases h
    | cons first rest =>
      rw [answersOf] at h
      split_ifs at h with hends
      · simp at h
      · rw [List.cons_append, List.cons.injEq] at h
        obtain ⟨rfl, h⟩ := h
        obtain ⟨hpast, rest, rfl⟩ := ih h
        refine ⟨?_, rest, rfl⟩
        rw [List.forall_mem_cons]
        exact ⟨Bool.eq_false_iff.mpr hends, hpast⟩

theorem mem_tierPeers {responses earlier later : List TrackerResponse}
    {newResp : TrackerResponse} {peer : Peer}
    (h : answersOf responses = earlier ++ newResp :: later) (hpeer : peer ∈ listed [newResp]) :
    peer ∈ tierPeers responses := by
  have hcons : listed (newResp :: later) = listed [newResp] ++ listed later :=
    listed_append [newResp] later
  rw [tierPeers, h, listed_append, hcons]
  exact List.mem_append_right _ (List.mem_append_left _ hpeer)

/-- An address that a tier lists comes first with some response. -/
theorem first_with_ip {responses : List TrackerResponse} {first : Peer}
    (hfirst : first ∈ tierPeers responses) :
    ∃ earlier newResp later, answersOf responses = earlier ++ newResp :: later ∧
      first.ip ∉ (listed earlier).map Peer.ip ∧
      ∃ brings ∈ listed [newResp], brings.ip = first.ip := by
  let lists (newResp : TrackerResponse) : Bool := (listed [newResp]).any fun p => p.ip == first.ip
  have hsome : ((answersOf responses).find? lists).isSome := by
    obtain ⟨newResp, hmem, hpeer⟩ := List.mem_flatMap.mp hfirst
    refine List.find?_isSome.mpr ⟨newResp, hmem, List.any_eq_true.mpr ⟨first, ?_, by simp⟩⟩
    simpa using hpeer
  obtain ⟨newResp, hfind⟩ := Option.isSome_iff_exists.mp hsome
  obtain ⟨hlists, earlier, later, hanswers, hnone⟩ := List.find?_eq_some_iff_append.mp hfind
  obtain ⟨brings, hbrings, hip⟩ := List.any_eq_true.mp hlists
  refine ⟨earlier, newResp, later, hanswers, ?_, brings, hbrings, by simpa using hip⟩
  intro hmem
  obtain ⟨old, hold, heq⟩ := List.mem_map.mp hmem
  obtain ⟨past, hpast, hold⟩ := List.mem_flatMap.mp hold
  have hlisted : old ∈ listed [past] := by simpa using hold
  have hno := hnone past hpast
  simp only [Bool.not_eq_true', lists, List.any_eq_false, beq_iff_eq] at hno
  exact hno old hlisted heq

theorem OneAddressEach.ip_ne {tiers : List (List TrackerResponse)} (h : OneAddressEach tiers)
    {i j : ℕ} (hij : i ≠ j) {responses responses' : List TrackerResponse}
    (hi : tiers[i]? = some responses) (hj : tiers[j]? = some responses') {peer peer' : Peer}
    (hpeer : peer ∈ tierPeers responses) (hpeer' : peer' ∈ tierPeers responses') :
    peer.ip ≠ peer'.ip := by
  obtain ⟨hilt, rfl⟩ := List.getElem?_eq_some_iff.mp hi
  obtain ⟨hjlt, rfl⟩ := List.getElem?_eq_some_iff.mp hj
  have hapart := List.pairwise_iff_getElem.mp h.apart
  rcases Nat.lt_or_gt_of_ne hij with hlt | hlt
  · exact hapart i j hilt hjlt hlt peer hpeer peer' hpeer'
  · exact (hapart j i hjlt hilt hlt peer' hpeer' peer hpeer).symm

/-- INTERNAL: what a response adds to the endpoints of a tier are its new peers, once each.
SOURCE: torrent_refresh.rs:63 -/
theorem count_newPeers {responses earlier later : List TrackerResponse}
    {newResp : TrackerResponse} (htier : OneFirstListing responses)
    (h : answersOf responses = earlier ++ newResp :: later) (a : String × ℤ) :
    (if a ∈ (listed earlier).map endpoint then 1 else 0) +
        ((newPeers earlier newResp).map endpoint).count a =
      if a ∈ (listed (earlier ++ [newResp])).map endpoint then 1 else 0 := by
  rw [listed_append, List.map_append]
  by_cases hold : a ∈ (listed earlier).map endpoint
  · have hnone : ((newPeers earlier newResp).map endpoint).count a = 0 :=
      count_endpoint_eq_zero fun peer hpeer heq =>
        (mem_fresh.mp hpeer).2 (heq ▸ ip_of_mem_endpoints hold)
    rw [if_pos hold, if_pos (List.mem_append_left _ hold), hnone]
  · by_cases hnew : a ∈ (listed [newResp]).map endpoint
    · have hfresh : a ∈ (newPeers earlier newResp).map endpoint := by
        obtain ⟨peer, hpeer, rfl⟩ := List.mem_map.mp hnew
        refine List.mem_map_of_mem (mem_fresh.mpr ⟨hpeer, fun hip => hold ?_⟩)
        exact htier.repeated earlier newResp later h peer hpeer hip
      rw [if_neg hold, if_pos (List.mem_append_right _ hnew), Nat.zero_add]
      exact List.count_eq_one_of_mem (htier.distinct earlier newResp later h) hfresh
    · have hnone : ((newPeers earlier newResp).map endpoint).count a = 0 := by
        rw [List.count_eq_zero]
        intro hmem
        obtain ⟨peer, hpeer, rfl⟩ := List.mem_map.mp hmem
        exact hnew (List.mem_map_of_mem (mem_fresh.mp hpeer).1)
      rw [if_neg hold, if_neg (by simp only [List.mem_append, hold, hnew, or_self,
        not_false_eq_true]), hnone]

/-! ## Enough: where a tier stands -/

/-- Of the addresses of a tier, those of the responses in `earlier` are recorded. -/
def RecordsOf (s : TorrentRefresh) (responses earlier : List TrackerResponse) : Prop :=
  ∀ peer ∈ tierPeers responses,
    (peer.ip ∈ s.alreadySeenPeers.map Peer.ip ↔ peer.ip ∈ (listed earlier).map Peer.ip)

/-- Of the endpoints of a tier, those of the responses in `earlier` are handed over, once each. -/
def HandsOver (s : TorrentRefresh) (responses earlier : List TrackerResponse) : Prop :=
  ∀ peer ∈ tierPeers responses, (endpointsOver s).count (endpoint peer) =
    if endpoint peer ∈ (listed earlier).map endpoint then 1 else 0

/-- INTERNAL: how far the task of a tier has come with the tier's responses, and what of them is
recorded and handed over.
SOURCE: torrent_refresh.rs:32-79 -/
inductive TierStands (s : TorrentRefresh) (responses : List TrackerResponse) : TierTask → Prop
  | asking {earlier rest : List TrackerResponse} (hsplit : responses = earlier ++ rest)
      (hpast : ∀ past ∈ earlier, endsTier past = false) (hrecords : RecordsOf s responses earlier)
      (hover : HandsOver s responses earlier) : TierStands s responses (.asking rest)
  | answered {earlier rest : List TrackerResponse} {newResp : TrackerResponse}
      {newRespPeer : List Peer} (hsplit : responses = earlier ++ newResp :: rest)
      (hpast : ∀ past ∈ earlier, endsTier past = false)
      (hpeers : newResp.peers = some newRespPeer) (hrecords : RecordsOf s responses earlier)
      (hover : HandsOver s responses earlier) :
      TierStands s responses (.answered newResp newRespPeer rest)
  | retained {earlier rest : List TrackerResponse} {newResp : TrackerResponse}
      {newRespPeer : List Peer} (hsplit : responses = earlier ++ newResp :: rest)
      (hpast : ∀ past ∈ earlier, endsTier past = false)
      (hpeers : newResp.peers = some newRespPeer) (hrecords : RecordsOf s responses earlier)
      (hover : HandsOver s responses earlier) :
      TierStands s responses (.retained newResp (newPeers earlier newResp) rest)
  | sending {earlier rest : List TrackerResponse} {newResp : TrackerResponse}
      (hsplit : responses = earlier ++ newResp :: rest)
      (hpast : ∀ past ∈ earlier, endsTier past = false) (hends : endsTier newResp = false)
      (hrecords : RecordsOf s responses (earlier ++ [newResp]))
      (hover : HandsOver s responses earlier) :
      TierStands s responses
        (.sending { newResp with peers := some (newPeers earlier newResp) } rest)
  | ended (hover : HandsOver s responses (answersOf responses)) : TierStands s responses .ended

/-- INTERNAL: where a tier stands only depends on what is recorded and handed over of its own. -/
theorem TierStands.congr {s t : TorrentRefresh} {responses : List TrackerResponse}
    {task : TierTask} (h : TierStands s responses task)
    (hseen : ∀ peer ∈ tierPeers responses,
      (peer.ip ∈ t.alreadySeenPeers.map Peer.ip ↔ peer.ip ∈ s.alreadySeenPeers.map Peer.ip))
    (hcount : ∀ peer ∈ tierPeers responses,
      (endpointsOver t).count (endpoint peer) = (endpointsOver s).count (endpoint peer)) :
    TierStands t responses task := by
  have hrec {earlier : List TrackerResponse} (h : RecordsOf s responses earlier) :
      RecordsOf t responses earlier :=
    fun peer hpeer => (hseen peer hpeer).trans (h peer hpeer)
  have hhand {earlier : List TrackerResponse} (h : HandsOver s responses earlier) :
      HandsOver t responses earlier :=
    fun peer hpeer => (hcount peer hpeer).trans (h peer hpeer)
  cases h with
  | asking hsplit hpast hrecords hover => exact .asking hsplit hpast (hrec hrecords) (hhand hover)
  | answered hsplit hpast hpeers hrecords hover =>
    exact .answered hsplit hpast hpeers (hrec hrecords) (hhand hover)
  | retained hsplit hpast hpeers hrecords hover =>
    exact .retained hsplit hpast hpeers (hrec hrecords) (hhand hover)
  | sending hsplit hpast hends hrecords hover =>
    exact .sending hsplit hpast hends (hrec hrecords) (hhand hover)
  | ended hover => exact .ended (hhand hover)

/-- INTERNAL: with the new peers of a response handed over, the response is. -/
theorem HandsOver.more {s t : TorrentRefresh} {responses earlier later : List TrackerResponse}
    {newResp : TrackerResponse} (h : HandsOver s responses earlier)
    (htier : OneFirstListing responses)
    (hanswers : answersOf responses = earlier ++ newResp :: later)
    (hover : endpointsOver t = endpointsOver s ++ (newPeers earlier newResp).map endpoint) :
    HandsOver t responses (earlier ++ [newResp]) := by
  intro peer hpeer
  rw [hover, List.count_append, h peer hpeer]
  exact count_newPeers htier hanswers (endpoint peer)

/-- INTERNAL: with the new peers of a response recorded, its addresses are.
SOURCE: torrent_refresh.rs:67-70 -/
theorem RecordsOf.more {s t : TorrentRefresh} {responses earlier : List TrackerResponse}
    {newResp : TrackerResponse} (h : RecordsOf s responses earlier)
    (hseen : t.alreadySeenPeers = s.alreadySeenPeers ++ newPeers earlier newResp) :
    RecordsOf t responses (earlier ++ [newResp]) := by
  intro peer hpeer
  rw [hseen, List.map_append, List.mem_append, h peer hpeer, ← List.mem_append,
    ← List.map_append, newPeers, mem_keys_append_fresh, listed_append, List.map_append,
    List.mem_append]

/-- INTERNAL: a step of the task brings its tier on, and it records and sends peers of the tier
only.
SOURCE: torrent_refresh.rs:60-75 -/
theorem tierStands_move {s : TorrentRefresh} {responses : List TrackerResponse}
    {task task' : TierTask} {recorded : List Peer} {sent : List TrackerResponse}
    (htier : OneFirstListing responses) (h : TierStands s responses task)
    (hmove : TierMove s task recorded task' sent) (i : ℕ) :
    TierStands (moved s i recorded task' sent) responses task' ∧
      ∀ peer ∈ recorded ++ listed sent, peer ∈ tierPeers responses := by
  have hsame (other : TierTask) (h : TierStands s responses other) :
      TierStands (moved s i [] task' []) responses other :=
    h.congr (fun _ _ => by simp) (fun _ _ => by simp)
  cases hmove with
  | answer hpeers =>
    cases h with
    | asking hsplit hpast hrecords hover =>
      exact ⟨hsame _ (.answered hsplit hpast hpeers hrecords hover), nofun⟩
  | @noPeers newResp rest hpeers =>
    cases h with
    | @asking earlier _ hsplit hpast hrecords hover =>
      have hends : endsTier newResp = true := by simp [endsTier, hpeers]
      have hanswers := answersOf_of_ends hsplit hpast hends
      have hnone : newPeers earlier newResp = [] := by simp [newPeers, fresh, hpeers]
      refine ⟨.ended ?_, nofun⟩
      rw [hanswers]
      exact hover.more htier hanswers (by simp [hnone])
  | @retain newResp newRespPeer rest hlock =>
    cases h with
    | @answered earlier _ _ _ hsplit hpast hpeers hrecords hover =>
      obtain ⟨later, hanswers⟩ := answersOf_split hsplit hpast
      have hlisted : listed [newResp] = newRespPeer := by simp [hpeers]
      have hnew : fresh Peer.ip s.alreadySeenPeers newRespPeer = newPeers earlier newResp := by
        rw [newPeers, hlisted]
        exact fresh_congr fun peer hpeer =>
          hrecords peer (mem_tierPeers hanswers (hlisted ▸ hpeer))
      rw [hnew] at hsame ⊢
      exact ⟨hsame _ (.retained hsplit hpast hpeers hrecords hover), nofun⟩
  | @record newResp _ rest interval hlock hinterval =>
    cases h with
    | @retained earlier _ _ newRespPeer hsplit hpast hpeers hrecords hover =>
      obtain ⟨later, hanswers⟩ := answersOf_split hsplit hpast
      have hends : endsTier newResp = false :=
        endsTier_eq_false_iff.mpr ⟨⟨newRespPeer, hpeers⟩, interval, hinterval⟩
      refine ⟨.sending hsplit hpast hends (hrecords.more rfl) ?_, ?_⟩
      · intro peer hpeer
        rw [endpointsOver_moved, listed_nil, List.map_nil, List.append_nil]
        exact hover peer hpeer
      · intro peer hpeer
        rw [listed_nil, List.append_nil] at hpeer
        exact mem_tierPeers hanswers (mem_fresh.mp hpeer).1
  | @noInterval newResp _ rest hlock hinterval =>
    cases h with
    | @retained earlier _ _ newRespPeer hsplit hpast hpeers hrecords hover =>
      have hends : endsTier newResp = true := by simp [endsTier, hinterval]
      have hanswers := answersOf_of_ends hsplit hpast hends
      have hnone := htier.timed earlier newResp [] hanswers hinterval
      refine ⟨.ended ?_, ?_⟩
      · rw [hanswers]
        exact hover.more htier hanswers (by simp [hnone])
      · rw [hnone]
        exact nofun
  | @send _ rest hroom =>
    cases h with
    | @sending earlier _ newResp hsplit hpast hends hrecords hover =>
      obtain ⟨later, hanswers⟩ := answersOf_split hsplit hpast
      have hsplit' : responses = (earlier ++ [newResp]) ++ rest := by simp [hsplit]
      have hpast' : ∀ past ∈ earlier ++ [newResp], endsTier past = false :=
        List.forall_mem_append.mpr ⟨hpast, List.forall_mem_singleton.mpr hends⟩
      refine ⟨.asking hsplit' hpast' ?_ (hover.more htier hanswers (by simp)), ?_⟩
      · intro peer hpeer
        rw [alreadySeenPeers_moved, List.append_nil]
        exact hrecords peer hpeer
      · intro peer hpeer
        have hmem : peer ∈ newPeers earlier newResp := by simpa using hpeer
        exact mem_tierPeers hanswers (mem_fresh.mp hmem).1

/-- INTERNAL: there is a task for each tier, and each tier stands with its task. -/
structure RefreshInv (tiers : List (List TrackerResponse)) (s : TorrentRefresh) : Prop where
  length : tiers.length = s.tiers.length
  stands : ∀ (i : ℕ) (responses : List TrackerResponse) (task : TierTask),
    tiers[i]? = some responses → s.tiers[i]? = some task → TierStands s responses task

theorem refreshInv_new (tiers : List (List TrackerResponse)) :
    RefreshInv tiers (TorrentRefresh.new tiers) := by
  constructor
  · simp [TorrentRefresh.new]
  · intro i responses task hresponses htask
    have heq : task = .asking responses := by
      simpa [TorrentRefresh.new, hresponses] using htask.symm
    subst heq
    refine .asking (List.nil_append responses).symm nofun ?_ ?_
    · intro peer _
      simp [TorrentRefresh.new]
    · intro peer _
      simp [endpointsOver, handedOver, TorrentRefresh.new]

/-- INTERNAL: a step keeps it: the task that moves brings its own tier on, and what it records and
sends has no address of another tier. -/
theorem refreshInv_step {tiers : List (List TrackerResponse)} (htiers : OneAddressEach tiers)
    {s t : TorrentRefresh} {e : RefreshEvent} {r : Unit} (hs : RefreshInv tiers s)
    (h : refreshStep s e = some (t, r)) : RefreshInv tiers t := by
  rcases refreshMove h with ⟨j, task, recorded, task', sent, -, htask, hmove, rfl⟩ |
    ⟨newResp, channel, -, hc, rfl⟩
  · obtain ⟨hj, -⟩ := List.getElem?_eq_some_iff.mp htask
    have hj' : j < tiers.length := hs.length ▸ hj
    have hlookup : tiers[j]? = some tiers[j] := List.getElem?_eq_getElem hj'
    obtain ⟨hstands, hown⟩ := tierStands_move (htiers.tier _ (List.getElem_mem _))
      (hs.stands j _ task hlookup htask) hmove j
    refine ⟨?_, fun i responses other hresponses hother => ?_⟩
    · rw [hs.length, moved, List.length_set]
    by_cases hij : i = j
    · subst hij
      rw [hlookup] at hresponses
      rw [getElem?_moved htask] at hother
      cases hresponses
      cases hother
      exact hstands
    · have hother' : s.tiers[i]? = some other := by
        rwa [moved, List.getElem?_set_ne (Ne.symm hij)] at hother
      have hne (peer : Peer) (hpeer : peer ∈ tierPeers responses) (new : Peer)
          (hnew : new ∈ recorded ++ listed sent) : new.ip ≠ peer.ip :=
        (htiers.ip_ne hij hresponses hlookup hpeer (hown new hnew)).symm
      refine (hs.stands i responses other hresponses hother').congr (fun peer hpeer => ?_)
        fun peer hpeer => ?_
      · have hnot : peer.ip ∉ recorded.map Peer.ip := by
          intro hmem
          obtain ⟨new, hnew, heq⟩ := List.mem_map.mp hmem
          exact hne peer hpeer new (List.mem_append_left _ hnew) heq
        rw [alreadySeenPeers_moved, List.map_append, List.mem_append, or_iff_left hnot]
      · have hnone : ((listed sent).map endpoint).count (endpoint peer) = 0 :=
          count_endpoint_eq_zero fun new hnew =>
            hne peer hpeer new (List.mem_append_right _ hnew)
        rw [endpointsOver_moved, List.count_append, hnone, Nat.add_zero]
  · refine ⟨hs.length, fun i responses task hresponses htask => ?_⟩
    refine (hs.stands i responses task hresponses htask).congr (fun _ _ => Iff.rfl) fun _ _ => ?_
    rw [endpointsOver, endpointsOver, handedOver_recv hc]

/-- INTERNAL: when an address stands for one endpoint, every endpoint is handed over once. -/
theorem endpointsOnce_of_oneAddressEach {tiers : List (List TrackerResponse)}
    (htiers : OneAddressEach tiers) : EndpointsOnce tiers := by
  intro es s hrun hoff responses hmem peer hpeer
  have hinv : RefreshInv tiers s :=
    run_invariant (fun _ _ _ _ hs he => refreshInv_step htiers hs he) (refreshInv_new tiers) hrun
  obtain ⟨i, hi, rfl⟩ := List.mem_iff_getElem.mp hmem
  have hi' : i < s.tiers.length := hinv.length ▸ hi
  have hstands := hinv.stands i _ _ (List.getElem?_eq_getElem hi) (List.getElem?_eq_getElem hi')
  have hover : HandsOver s tiers[i] (answersOf tiers[i]) := by
    rcases hoff.2 _ (List.getElem_mem hi') with htask | htask
    · rw [htask] at hstands
      cases hstands with
      | @asking earlier _ hsplit hpast hrecords hover =>
        have hall : answersOf tiers[i] = earlier := by
          rw [hsplit, answersOf_append hpast, answersOf, List.append_nil]
        rwa [hall]
    · rw [htask] at hstands
      cases hstands with
      | ended hover => exact hover
  have hlisted : endpoint peer ∈ (listed (answersOf tiers[i])).map endpoint :=
    List.mem_map_of_mem hpeer
  have hcount := hover peer hpeer
  rwa [if_pos hlisted, hoff.endpointsOver] at hcount

/-! ## Needed: a tier alone, and two tiers at once -/

/-- INTERNAL: no endpoint of a tier is handed over twice at any time: what is handed over stays so
until the responses are worked off. -/
theorem EndpointsOnce.count_le_one {tiers : List (List TrackerResponse)} (h : EndpointsOnce tiers)
    {es : List RefreshEvent} {t : TorrentRefresh}
    (hrun : run refreshStep (TorrentRefresh.new tiers) es = some t)
    {responses : List TrackerResponse} (hmem : responses ∈ tiers) {peer : Peer}
    (hpeer : peer ∈ tierPeers responses) : (endpointsOver t).count (endpoint peer) ≤ 1 := by
  obtain ⟨more, u, hmore, hoff⟩ := (alwaysReaches_workedOff t).exists_run
  have hmono := count_endpointsOver_run (endpoint peer) hmore
  have hone := h (es ++ more) u (run_append.mpr ⟨t, hrun, hmore⟩) hoff responses hmem peer hpeer
  rwa [hoff.endpointsOver, hone] at hmono

/-- INTERNAL: once its address is closed, an endpoint of a tier has been handed over. -/
theorem EndpointsOnce.count_of_closed {tiers : List (List TrackerResponse)}
    (h : EndpointsOnce tiers) {es : List RefreshEvent} {t : TorrentRefresh}
    (hrun : run refreshStep (TorrentRefresh.new tiers) es = some t)
    {responses : List TrackerResponse} (hmem : responses ∈ tiers) {peer : Peer}
    (hpeer : peer ∈ tierPeers responses) (hclosed : Closed peer.ip t) :
    endpoint peer ∈ endpointsOver t := by
  obtain ⟨more, u, hmore, hoff⟩ := (alwaysReaches_workedOff t).exists_run
  have hone := h (es ++ more) u (run_append.mpr ⟨t, hrun, hmore⟩) hoff responses hmem peer hpeer
  have hcount : (endpointsOver u).count (endpoint peer) = (endpointsOver t).count (endpoint peer) :=
    (closed_run hclosed hmore).2
  rw [hoff.endpointsOver, hone] at hcount
  exact List.count_pos_iff.mp (by omega)

theorem atRest_new (tiers : List (List TrackerResponse)) : AtRest (TorrentRefresh.new tiers) := by
  refine ⟨rfl, fun task hmem => ?_⟩
  obtain ⟨responses, -, rfl⟩ := List.mem_map.mp hmem
  exact Or.inl ⟨responses, rfl⟩

/-- INTERNAL: a task alone works off the responses up to any that its tier gets. -/
theorem exists_drained {tiers : List (List TrackerResponse)} {i : ℕ}
    {responses earlier rest : List TrackerResponse} (hi : tiers[i]? = some responses)
    (hsplit : responses = earlier ++ rest)
    (hpast : ∀ past ∈ earlier, endsTier past = false) :
    ∃ es t, run refreshStep (TorrentRefresh.new tiers) es = some t ∧
      Drained i earlier rest (TorrentRefresh.new tiers) t := by
  refine drains (atRest_new tiers) ?_ hpast
  simp [TorrentRefresh.new, hi, hsplit]

variable {tiers : List (List TrackerResponse)} {i : ℕ} {t : TorrentRefresh}
  {responses earlier rest : List TrackerResponse}

/-- INTERNAL: the task of the tier stands before what is left. -/
theorem Drained.task {s : TorrentRefresh} (ht : Drained i earlier rest s t)
    (hi : i < s.tiers.length) : t.tiers[i]? = some (.asking rest) := by
  rw [ht.tiers, List.getElem?_set_self hi]

theorem Drained.mem_seen (ht : Drained i earlier rest (TorrentRefresh.new tiers) t) (ip : String) :
    ip ∈ t.alreadySeenPeers.map Peer.ip ↔ ip ∈ (listed earlier).map Peer.ip := by
  simp [ht.seen, TorrentRefresh.new]

theorem Drained.mem_handedOver (ht : Drained i earlier rest (TorrentRefresh.new tiers) t)
    {peer : Peer} (hpeer : peer ∈ handedOver t) : peer ∈ listed earlier := by
  obtain ⟨news, hnews, hmem⟩ := ht.handshakes
  refine hmem peer ?_
  simpa [handedOver, ht.atRest.channel, hnews, TorrentRefresh.new] using hpeer

theorem lt_length_new (hi : tiers[i]? = some responses) :
    i < (TorrentRefresh.new tiers).tiers.length := by
  obtain ⟨hlt, -⟩ := List.getElem?_eq_some_iff.mp hi
  simpa [TorrentRefresh.new] using hlt

/-- INTERNAL: of a response without an interval the new peers are recorded and lost. -/
theorem newPeers_eq_nil_of_no_interval (h : EndpointsOnce tiers) (hi : tiers[i]? = some responses)
    {newResp : TrackerResponse} {later : List TrackerResponse}
    (hanswers : answersOf responses = earlier ++ newResp :: later)
    (hinterval : newResp.interval = none) : newPeers earlier newResp = [] := by
  by_contra hne
  obtain ⟨peer, hpeer⟩ := List.exists_mem_of_ne_nil _ hne
  obtain ⟨hlisted, hnew⟩ := mem_fresh.mp hpeer
  obtain ⟨hpast, rest, hsplit⟩ := answersOf_eq_append hanswers
  obtain ⟨es, t, hrun, ht⟩ := exists_drained hi hsplit hpast
  obtain ⟨newRespPeer, hpeers⟩ : ∃ newRespPeer, newResp.peers = some newRespPeer := by
    cases hpeers : newResp.peers with
    | none => simp [hpeers] at hlisted
    | some newRespPeer => exact ⟨newRespPeer, rfl⟩
  have htask := ht.task (lt_length_new hi)
  have hretain := run_retain ht.atRest.writeLocked htask hpeers
  let kept := fresh Peer.ip t.alreadySeenPeers newRespPeer
  have hfree : (moved t i [] (.retained newResp kept rest) []).writeLocked = false :=
    writeLocked_set ht.atRest.writeLocked rfl rfl
  have hlose : (moved t i [] (.retained newResp kept rest) []).next (.retained newResp kept rest) =
      some (kept, .ended, []) := by
    simp [TorrentRefresh.next, hfree, hinterval]
  have hend := refreshStep_tier (getElem?_moved htask) hlose
  rw [moved_moved, List.nil_append, List.nil_append] at hend
  have hrun' : run refreshStep (TorrentRefresh.new tiers)
      (es ++ ([.tier i, .tier i] ++ [.tier i])) = some (moved t i kept .ended []) :=
    run_append.mpr ⟨t, hrun, run_append.mpr ⟨_, hretain, run_cons_some [] hend⟩⟩
  have hkept : peer ∈ kept := by
    refine mem_fresh.mpr ⟨by simpa [hpeers] using hlisted, fun hip => hnew ?_⟩
    exact (ht.mem_seen peer.ip).mp hip
  have hclosed : Closed peer.ip (moved t i kept .ended []) := by
    refine ⟨?_, fun task hmem => ?_⟩
    · rw [alreadySeenPeers_moved, List.map_append, List.mem_append]
      exact Or.inr (List.mem_map_of_mem hkept)
    · rcases mem_tiers_moved hmem with hmem | rfl
      · rcases ht.atRest.tasks task hmem with ⟨_, rfl⟩ | rfl <;> simp [unsentPeers]
      · simp [unsentPeers]
  have hover := h.count_of_closed hrun' (List.mem_of_getElem? hi) (mem_tierPeers hanswers hlisted)
    hclosed
  rw [endpointsOver_moved, listed_nil, List.map_nil, List.append_nil] at hover
  exact hnew (ip_of_mem_endpoints (List.map_subset _ (fun _ => ht.mem_handedOver) hover))

/-- INTERNAL: a response that ends its task brings nothing new. -/
theorem endsTier_of_newPeers (h : EndpointsOnce tiers) (hi : tiers[i]? = some responses)
    {newResp : TrackerResponse} {later : List TrackerResponse}
    (hanswers : answersOf responses = earlier ++ newResp :: later)
    (hne : newPeers earlier newResp ≠ []) : endsTier newResp = false := by
  cases hpeers : newResp.peers with
  | none => exact absurd (by simp [newPeers, fresh, hpeers]) hne
  | some newRespPeer =>
    cases hinterval : newResp.interval with
    | none => exact absurd (newPeers_eq_nil_of_no_interval h hi hanswers hinterval) hne
    | some interval =>
      exact endsTier_eq_false_iff.mpr ⟨⟨newRespPeer, hpeers⟩, interval, hinterval⟩

/-- INTERNAL: in a tier that hands every endpoint over once, an address stands for what first came
with it. -/
theorem oneFirstListing_of_endpointsOnce (h : EndpointsOnce tiers)
    (hi : tiers[i]? = some responses) : OneFirstListing responses where
  distinct earlier newResp later hanswers := by
    by_cases hne : newPeers earlier newResp = []
    · rw [hne]
      exact List.nodup_nil
    obtain ⟨hpast, rest, hsplit⟩ := answersOf_eq_append hanswers
    obtain ⟨es, t, hrun, ht⟩ := exists_drained hi hsplit hpast
    obtain ⟨xs, hxs⟩ := run_one ht.atRest (ht.task (lt_length_new hi))
      (endsTier_of_newPeers h hi hanswers hne)
    have hnew : fresh Peer.ip t.alreadySeenPeers (listed [newResp]) = newPeers earlier newResp :=
      fresh_congr fun peer _ => ht.mem_seen peer.ip
    rw [hnew] at hxs
    refine List.nodup_iff_count_le_one.mpr fun a => ?_
    by_cases ha : a ∈ (newPeers earlier newResp).map endpoint
    · obtain ⟨peer, hpeer, rfl⟩ := List.mem_map.mp ha
      have hone := h.count_le_one (run_append.mpr ⟨t, hrun, hxs⟩) (List.mem_of_getElem? hi)
        (mem_tierPeers hanswers (mem_fresh.mp hpeer).1)
      rw [endpointsOver, handedOver, delivered, listed_nil, List.append_nil, List.map_append,
        List.count_append] at hone
      omega
    · rw [List.count_eq_zero.mpr ha]
      exact Nat.zero_le 1
  timed earlier newResp later hanswers hinterval :=
    newPeers_eq_nil_of_no_interval h hi hanswers hinterval
  repeated earlier newResp later hanswers peer hpeer hip := by
    obtain ⟨hpast, rest, hsplit⟩ := answersOf_eq_append hanswers
    obtain ⟨es, t, hrun, ht⟩ := exists_drained hi hsplit hpast
    have hclosed : Closed peer.ip t := ht.atRest.closed ((ht.mem_seen peer.ip).mpr hip)
    have hover := h.count_of_closed hrun (List.mem_of_getElem? hi) (mem_tierPeers hanswers hpeer)
      hclosed
    exact List.map_subset _ (fun _ => ht.mem_handedOver) hover

/-- INTERNAL: an address of a tier comes first with some response, which brings all that is listed
under the address anywhere. -/
theorem exists_first_listing (h : EndpointsOnce tiers) (hi : tiers[i]? = some responses)
    {first : Peer} (hfirst : first ∈ tierPeers responses) :
    ∃ earlier newResp rest, responses = earlier ++ newResp :: rest ∧
      (∀ past ∈ earlier, endsTier past = false) ∧ endsTier newResp = false ∧
      first.ip ∉ (listed earlier).map Peer.ip ∧
      ∀ others ∈ tiers, ∀ peer ∈ tierPeers others, peer.ip = first.ip →
        ∃ same ∈ listed [newResp], endpoint same = endpoint peer := by
  obtain ⟨earlier, newResp, later, hanswers, hnot, brings, hbrings, hip⟩ := first_with_ip hfirst
  have hne : newPeers earlier newResp ≠ [] :=
    List.ne_nil_of_mem (mem_fresh.mpr ⟨hbrings, hip ▸ hnot⟩)
  have hends := endsTier_of_newPeers h hi hanswers hne
  obtain ⟨hpast, rest, hsplit⟩ := answersOf_eq_append hanswers
  refine ⟨earlier, newResp, rest, hsplit, hpast, hends, hnot, ?_⟩
  intro others hothers peer hpeer hsame
  -- when the tier has worked off the response alone, the address is closed
  have hsplit' : responses = (earlier ++ [newResp]) ++ rest := by simp [hsplit]
  have hpast' : ∀ past ∈ earlier ++ [newResp], endsTier past = false :=
    List.forall_mem_append.mpr ⟨hpast, List.forall_mem_singleton.mpr hends⟩
  obtain ⟨es, t, hrun, ht⟩ := exists_drained hi hsplit' hpast'
  have hseen : peer.ip ∈ t.alreadySeenPeers.map Peer.ip := by
    rw [ht.mem_seen, hsame, ← hip, listed_append]
    exact List.mem_map_of_mem (List.mem_append_right _ hbrings)
  have hover := h.count_of_closed hrun hothers hpeer (ht.atRest.closed hseen)
  obtain ⟨same, hmem, heq⟩ := List.mem_map.mp hover
  have hlisted := ht.mem_handedOver hmem
  rw [listed_append] at hlisted
  rcases List.mem_append.mp hlisted with hold | hnew
  · have hold' : same.ip = first.ip := (congrArg Prod.fst heq).trans hsame
    exact absurd (hold' ▸ List.mem_map_of_mem hold) hnot
  · exact ⟨same, hnew, heq⟩

/-- A peer with an address that is not recorded is taken for new. -/
theorem mem_endpoints_fresh {seen peers : List Peer} {same peer : Peer} (hmem : same ∈ peers)
    (hsame : endpoint same = endpoint peer) (hip : peer.ip ∉ seen.map Peer.ip) :
    endpoint peer ∈ (fresh Peer.ip seen peers).map endpoint := by
  have heq : same.ip = peer.ip := congrArg Prod.fst hsame
  exact hsame ▸ List.mem_map_of_mem (mem_fresh.mpr ⟨hmem, heq ▸ hip⟩)

/-- INTERNAL: two tiers with the same address can both look at the record before either adds to
it, and then both send what they list under the address.
SOURCE: torrent_refresh.rs:61-74 -/
theorem not_both_retain (h : EndpointsOnce tiers) {j : ℕ} (hij : i ≠ j)
    {responses' : List TrackerResponse} (hi : tiers[i]? = some responses)
    (hj : tiers[j]? = some responses') {peer peer' : Peer} (hpeer : peer ∈ tierPeers responses)
    (hpeer' : peer' ∈ tierPeers responses') : peer.ip ≠ peer'.ip := by
  intro heq
  obtain ⟨past, newResp, rest, hsplit, hpast, hends, hnot, hall⟩ := exists_first_listing h hi hpeer
  obtain ⟨past', newResp', rest', hsplit', hpast', hends', hnot', hall'⟩ :=
    exists_first_listing h hj hpeer'
  obtain ⟨a, ha, hsame⟩ := hall _ (List.mem_of_getElem? hj) peer' hpeer' heq.symm
  obtain ⟨b, hb, hsame'⟩ := hall' _ (List.mem_of_getElem? hj) peer' hpeer' rfl
  obtain ⟨⟨ps, hps⟩, n, hn⟩ := endsTier_eq_false_iff.mp hends
  obtain ⟨⟨ps', hps'⟩, n', hn'⟩ := endsTier_eq_false_iff.mp hends'
  -- both tiers come to their first response with the address, one after the other
  obtain ⟨es, t, hrun, ht⟩ := exists_drained hi hsplit hpast
  have hjtask : t.tiers[j]? = some (.asking (past' ++ newResp' :: rest')) := by
    rw [ht.tiers, List.getElem?_set_ne hij]
    simp [TorrentRefresh.new, hj, hsplit']
  obtain ⟨es', u, hrun', hu⟩ := drains ht.atRest hjtask hpast'
  have hui : u.tiers[i]? = some (.asking (newResp :: rest)) := by
    rw [hu.tiers, List.getElem?_set_ne hij.symm, ht.task (lt_length_new hi)]
  have huj : u.tiers[j]? = some (.asking (newResp' :: rest')) :=
    hu.task (List.getElem?_eq_some_iff.mp hjtask).1
  have hunseen : peer'.ip ∉ u.alreadySeenPeers.map Peer.ip := by
    rw [hu.seen, ht.mem_seen]
    rintro (hold | hold)
    · exact hnot (heq ▸ hold)
    · exact hnot' hold
  -- both look at the record before either adds to it
  obtain ⟨es'', v, hrun'', hover⟩ := run_race hij hu.atRest hui huj hps hn hps' hn'
  have hone := h.count_le_one (run_append.mpr ⟨t, hrun, run_append.mpr ⟨u, hrun', hrun''⟩⟩)
    (List.mem_of_getElem? hj) hpeer'
  have hpos := List.count_pos_iff.mpr
    (mem_endpoints_fresh (by simpa [hps] using ha) hsame hunseen)
  have hpos' := List.count_pos_iff.mpr
    (mem_endpoints_fresh (by simpa [hps'] using hb) hsame' hunseen)
  rw [endpointsOver, hover, List.map_append, List.map_append, List.count_append,
    List.count_append] at hone
  omega

/-- **Every interleaving of the tier tasks hands each listed endpoint to the orchestrator exactly
once, if and only if an address stands for one endpoint**: no two tiers list the same address, and
within a tier an address stands for what first came with it. -/
theorem endpoints_once_iff (tiers : List (List TrackerResponse)) :
    EndpointsOnce tiers ↔ OneAddressEach tiers := by
  constructor
  · intro h
    constructor
    · intro responses hmem
      obtain ⟨i, hi⟩ := List.mem_iff_getElem?.mp hmem
      exact oneFirstListing_of_endpointsOnce h hi
    · rw [List.pairwise_iff_getElem]
      intro i j hi hj hlt peer hpeer peer' hpeer'
      exact not_both_retain h (Nat.ne_of_lt hlt) (List.getElem?_eq_getElem hi)
        (List.getElem?_eq_getElem hj) hpeer hpeer'
  · exact endpointsOnce_of_oneAddressEach

/-- A tracker first lists one client behind an address, and then two. -/
def twoBehindOneAddress : List (List TrackerResponse) :=
  [[⟨some 1800, some [⟨none, "203.0.113.7", 6881⟩]⟩,
    ⟨some 1800, some [⟨none, "203.0.113.7", 6881⟩, ⟨none, "203.0.113.7", 6882⟩]⟩]]

/-- The second client is dropped. -/
theorem second_port_dropped : ¬ EndpointsOnce twoBehindOneAddress := by
  intro h
  have hrun : run refreshStep (TorrentRefresh.new twoBehindOneAddress)
      [.tier 0, .tier 0, .tier 0, .tier 0, .recv, .tier 0, .tier 0, .tier 0, .tier 0, .recv] =
      some ⟨[⟨none, "203.0.113.7", 6881⟩], [.asking []], [], [⟨none, "203.0.113.7", 6881⟩]⟩ := by
    decide +kernel
  have hoff : WorkedOff ⟨[⟨none, "203.0.113.7", 6881⟩], [.asking []], [],
      [⟨none, "203.0.113.7", 6881⟩]⟩ := ⟨rfl, by simp⟩
  have hcount := h _ _ hrun hoff _ (List.mem_singleton_self _) ⟨none, "203.0.113.7", 6882⟩
    (by decide +kernel)
  revert hcount
  decide +kernel

end Fissure.Analysis
