import Fissure.Analysis.EndpointsOnce
import Fissure.Model.PeerDiscovery

/-!
# Every address that a tracker lists is contacted

The orchestrator gives up only when no task of a tier is left to send (`Listens`), so it takes every
response, and what it does with the tasks is what `TorrentRefresh` says (`discoveryMove`). The tasks
share the record of the peers and drop what is recorded, and one of them keeps the lock on it while
it waits for room in the channel. Still nobody waits for ever, and every address that some response
lists comes to a handshake (`discovery_contacts_every_address`): whichever task records it goes on
to send it, unless its response has no interval.
-/

set_option autoImplicit false

namespace Fissure.Analysis

open Fissure.Library Fissure.Model

variable {tiers : List (List TrackerResponse)}

/-! ## The orchestrator -/

/-- The orchestrator has seen the channel closed only when all tasks have ended and all responses
are taken. -/
structure Listens (s : PeerDiscovery) : Prop where
  le : s.retires ≤ maxRetires
  closed : s.retires < maxRetires →
    s.refresh.channel = [] ∧ ∀ task ∈ s.refresh.tiers, task = .ended

/-- The event as one of the tasks and the channel. -/
def refreshEvent : DiscoveryEvent → Option RefreshEvent
  | .tier i => some (.tier i)
  | .recv => some .recv
  | .closed => none

/-- What an event does while the orchestrator listens. -/
inductive DiscoveryMove (s : PeerDiscovery) : DiscoveryEvent → PeerDiscovery → Prop
  | refreshes {e : DiscoveryEvent} {x : RefreshEvent} {refresh : TorrentRefresh}
      (hx : refreshEvent e = some x) (hretires : s.retires = maxRetires)
      (h : refreshStep s.refresh x = some (refresh, ())) :
      DiscoveryMove s e { s with refresh }
  | closed {retires : ℕ} (hretires : s.retires = retires + 1) (hchannel : s.refresh.channel = [])
      (hended : ∀ task ∈ s.refresh.tiers, task = .ended) :
      DiscoveryMove s .closed { s with retires }

/-- INTERNAL: a task that goes on has not ended. -/
theorem tier_of_ended {s : TorrentRefresh} (hended : ∀ task ∈ s.tiers, task = .ended) (i : ℕ) :
    s.tier i = none := by
  unfold TorrentRefresh.tier
  cases htask : s.tiers[i]? with
  | none => rfl
  | some task =>
    rw [hended task (List.mem_of_getElem? htask)]
    rfl

/-- INTERNAL: while the orchestrator listens, no send fails.
SOURCE: torrent_refresh.rs:74, handshake_orechestration.rs:21-38 -/
theorem discoveryMove {s t : PeerDiscovery} {e : DiscoveryEvent} {r : Unit} (hs : Listens s)
    (h : discoveryStep s e = some (t, r)) : DiscoveryMove s e t := by
  obtain ⟨u, hu, heq⟩ := Option.map_eq_some_iff.mp h
  cases heq
  have hserves (hgoes : ¬ (s.refresh.channel = [] ∧ ∀ task ∈ s.refresh.tiers, task = .ended)) :
      s.retires = maxRetires :=
    Nat.le_antisymm hs.le (Nat.le_of_not_lt fun hlt => hgoes (hs.closed hlt))
  cases e with
  | tier i =>
    have hretires : s.retires = maxRetires := by
      refine hserves fun hall => ?_
      change s.tier i = some t at hu
      unfold PeerDiscovery.tier at hu
      split at hu
      · next htask => cases hall.2 _ (List.mem_of_getElem? htask)
      · rw [tier_of_ended hall.2] at hu
        cases hu
    change s.tier i = some t at hu
    unfold PeerDiscovery.tier at hu
    rw [hretires] at hu
    obtain ⟨refresh, hrefresh, rfl⟩ := Option.map_eq_some_iff.mp hu
    rw [← hretires]
    refine .refreshes (x := .tier i) rfl hretires ?_
    simp only [refreshStep, hrefresh, Option.map_some]
  | recv =>
    change s.recv = some t at hu
    unfold PeerDiscovery.recv at hu
    split at hu
    · cases hu
    · obtain ⟨refresh, hrefresh, rfl⟩ := Option.map_eq_some_iff.mp hu
      have hretires : s.retires = maxRetires := by
        refine hserves fun hall => ?_
        unfold TorrentRefresh.recv at hrefresh
        rw [hall.1] at hrefresh
        cases hrefresh
      rw [← hretires]
      refine .refreshes (x := .recv) rfl hretires ?_
      simp only [refreshStep, hrefresh, Option.map_some]
  | closed =>
    change s.closed = some t at hu
    unfold PeerDiscovery.closed at hu
    split at hu
    · cases hu
    · next retires hretires =>
      split_ifs at hu with hclosed
      cases hu
      rw [Bool.and_eq_true, List.isEmpty_iff, List.all_eq_true] at hclosed
      exact .closed hretires hclosed.1 fun task hmem => eq_of_beq (hclosed.2 task hmem)

theorem listens_step {s t : PeerDiscovery} {e : DiscoveryEvent} {r : Unit} (hs : Listens s)
    (h : discoveryStep s e = some (t, r)) : Listens t := by
  cases discoveryMove hs h with
  | refreshes _ hretires => exact ⟨hs.le, fun hlt => absurd hretires hlt.ne⟩
  | @closed retires hretires hchannel hended =>
    have hle : retires + 1 ≤ maxRetires := hretires ▸ hs.le
    exact ⟨Nat.le_of_succ_le hle, fun _ => ⟨hchannel, hended⟩⟩

/-! ## Where a tier stands -/

/-- A response without an interval brings its tier no new address. -/
def Timed (responses : List TrackerResponse) : Prop :=
  ∀ earlier newResp later, answersOf responses = earlier ++ newResp :: later →
    newResp.interval = none → newPeers earlier newResp = []

/-- The addresses of the responses are recorded. -/
def Records (seen : List Peer) (responses : List TrackerResponse) : Prop :=
  ∀ peer ∈ listed responses, peer.ip ∈ seen.map Peer.ip

/-- How far the task of a tier has come with the tier's responses, and what of them is recorded. -/
inductive TierRecords (seen : List Peer) (responses : List TrackerResponse) : TierTask → Prop
  | asking {earlier rest : List TrackerResponse} (hsplit : responses = earlier ++ rest)
      (hpast : ∀ past ∈ earlier, endsTier past = false) (hseen : Records seen earlier) :
      TierRecords seen responses (.asking rest)
  | answered {earlier rest : List TrackerResponse} {newResp : TrackerResponse}
      {newRespPeer : List Peer} (hsplit : responses = earlier ++ newResp :: rest)
      (hpast : ∀ past ∈ earlier, endsTier past = false)
      (hpeers : newResp.peers = some newRespPeer) (hseen : Records seen earlier) :
      TierRecords seen responses (.answered newResp newRespPeer rest)
  | retained {earlier rest : List TrackerResponse} {newResp : TrackerResponse}
      {newRespPeer kept : List Peer} (hsplit : responses = earlier ++ newResp :: rest)
      (hpast : ∀ past ∈ earlier, endsTier past = false)
      (hpeers : newResp.peers = some newRespPeer)
      (hseen : Records (seen ++ kept) (earlier ++ [newResp]))
      (hnew : ∀ peer ∈ kept, peer ∈ newPeers earlier newResp) :
      TierRecords seen responses (.retained newResp kept rest)
  | sending {earlier rest : List TrackerResponse} {newResp : TrackerResponse} {kept : List Peer}
      (hsplit : responses = earlier ++ newResp :: rest)
      (hpast : ∀ past ∈ earlier ++ [newResp], endsTier past = false)
      (hseen : Records seen (earlier ++ [newResp]))
      (hnew : ∀ peer ∈ kept, peer ∈ listed [newResp]) :
      TierRecords seen responses (.sending { newResp with peers := some kept } rest)
  | ended (hseen : Records seen (answersOf responses)) : TierRecords seen responses .ended

theorem Records.more {seen : List Peer} {responses : List TrackerResponse}
    (h : Records seen responses) (recorded : List Peer) : Records (seen ++ recorded) responses :=
  fun peer hpeer => List.map_subset _ (List.subset_append_left _ _) (h peer hpeer)

/-- INTERNAL: what other tasks record does no harm. -/
theorem TierRecords.more {seen : List Peer} {responses : List TrackerResponse} {task : TierTask}
    (h : TierRecords seen responses task) (recorded : List Peer) :
    TierRecords (seen ++ recorded) responses task := by
  cases h with
  | asking hsplit hpast hseen => exact .asking hsplit hpast (hseen.more recorded)
  | answered hsplit hpast hpeers hseen => exact .answered hsplit hpast hpeers (hseen.more recorded)
  | retained hsplit hpast hpeers hseen hnew =>
    refine .retained hsplit hpast hpeers (fun peer hpeer => ?_) hnew
    have hmem := hseen peer hpeer
    simp only [List.map_append, List.mem_append] at hmem ⊢
    exact hmem.imp_left Or.inl
  | sending hsplit hpast hseen hnew => exact .sending hsplit hpast (hseen.more recorded) hnew
  | ended hseen => exact .ended (hseen.more recorded)

/-- The peers that a task is sending. -/
def sendingPeers : TierTask → List Peer
  | .sending newResp _ => newResp.peers.getD []
  | _ => []

/-- INTERNAL: a step of the task brings its tier on, and it records and sends peers of the tier
only; what it records and what it was sending it sends or is sending.
SOURCE: torrent_refresh.rs:60-75 -/
theorem tierRecords_move {s : TorrentRefresh} {responses : List TrackerResponse}
    {task task' : TierTask} {recorded : List Peer} {sent : List TrackerResponse}
    (htimed : Timed responses) (h : TierRecords s.alreadySeenPeers responses task)
    (hmove : TierMove s task recorded task' sent) :
    TierRecords (s.alreadySeenPeers ++ recorded) responses task' ∧
      (∀ peer ∈ recorded ++ listed sent, peer ∈ tierPeers responses) ∧
      ∀ peer ∈ recorded ++ sendingPeers task, peer ∈ sendingPeers task' ++ listed sent := by
  cases hmove with
  | answer hpeers =>
    rw [List.append_nil]
    cases h with
    | asking hsplit hpast hseen =>
      exact ⟨.answered hsplit hpast hpeers hseen, List.forall_mem_nil _, List.forall_mem_nil _⟩
  | @noPeers newResp rest hpeers =>
    rw [List.append_nil]
    cases h with
    | @asking earlier _ hsplit hpast hseen =>
      have hanswers := answersOf_of_ends hsplit hpast (by simp [endsTier, hpeers])
      refine ⟨.ended ?_, List.forall_mem_nil _, List.forall_mem_nil _⟩
      rw [hanswers]
      intro peer hpeer
      exact hseen peer (by simpa [hpeers] using hpeer)
  | @retain newResp newRespPeer rest hlock =>
    rw [List.append_nil]
    cases h with
    | @answered earlier _ _ _ hsplit hpast hpeers hseen =>
      refine ⟨.retained hsplit hpast hpeers (fun peer hpeer => ?_) (fun peer hpeer => ?_),
        List.forall_mem_nil _, List.forall_mem_nil _⟩
      · rw [mem_keys_append_fresh]
        rw [listed_append, List.mem_append] at hpeer
        exact hpeer.imp (hseen peer) fun hmem => List.mem_map_of_mem (by simpa [hpeers] using hmem)
      · -- what the tier listed before is recorded
        obtain ⟨hmem, hip⟩ := mem_fresh.mp hpeer
        refine mem_fresh.mpr ⟨by simpa [hpeers] using hmem, fun hold => hip ?_⟩
        obtain ⟨old, hold, heq⟩ := List.mem_map.mp hold
        rw [← heq]
        exact hseen old hold
  | @record newResp _ rest interval hlock hinterval =>
    cases h with
    | @retained earlier _ _ newRespPeer _ hsplit hpast hpeers hseen hnew =>
      obtain ⟨later, hanswers⟩ := answersOf_split hsplit hpast
      have hends : endsTier newResp = false :=
        endsTier_eq_false_iff.mpr ⟨⟨newRespPeer, hpeers⟩, interval, hinterval⟩
      have hlisted {peer : Peer} (hpeer : peer ∈ recorded) : peer ∈ listed [newResp] :=
        (mem_fresh.mp (hnew peer hpeer)).1
      refine ⟨.sending hsplit ?_ hseen fun peer hpeer => hlisted hpeer, fun peer hpeer => ?_,
        fun peer hpeer => by simpa [sendingPeers] using hpeer⟩
      · exact List.forall_mem_append.mpr ⟨hpast, List.forall_mem_singleton.mpr hends⟩
      · rw [listed_nil, List.append_nil] at hpeer
        exact mem_tierPeers hanswers (hlisted hpeer)
  | @noInterval newResp _ rest hlock hinterval =>
    cases h with
    | @retained earlier _ _ newRespPeer _ hsplit hpast hpeers hseen hnew =>
      have hends : endsTier newResp = true := by simp [endsTier, hinterval]
      have hanswers := answersOf_of_ends hsplit hpast hends
      rw [htimed earlier newResp [] hanswers hinterval] at hnew
      have hnone {peer : Peer} (hpeer : peer ∈ recorded ++ []) : False := by
        rw [List.append_nil] at hpeer
        exact List.not_mem_nil (hnew peer hpeer)
      exact ⟨.ended (by rwa [hanswers]), fun peer hpeer => (hnone hpeer).elim,
        fun peer hpeer => (hnone hpeer).elim⟩
  | @send _ rest hroom =>
    rw [List.append_nil]
    cases h with
    | @sending earlier _ newResp kept hsplit hpast hseen hnew =>
      rw [List.forall_mem_append] at hpast
      obtain ⟨later, hanswers⟩ := answersOf_split hsplit hpast.1
      have hsplit' : responses = (earlier ++ [newResp]) ++ rest := by simp [hsplit]
      refine ⟨.asking hsplit' (List.forall_mem_append.mpr hpast) hseen, fun peer hpeer => ?_,
        fun peer hpeer => by simpa [sendingPeers] using hpeer⟩
      exact mem_tierPeers hanswers (hnew peer (by simpa using hpeer))

/-! ## Runs -/

/-- INTERNAL: each tier stands with its task; what is recorded is handed over or being sent, and
what is handed over was listed. -/
structure AddressInv (tiers : List (List TrackerResponse)) (s : TorrentRefresh) : Prop where
  length : tiers.length = s.tiers.length
  stands : ∀ (i : ℕ) (responses : List TrackerResponse) (task : TierTask),
    tiers[i]? = some responses → s.tiers[i]? = some task →
      TierRecords s.alreadySeenPeers responses task
  sent : ∀ peer ∈ s.alreadySeenPeers,
    peer ∈ handedOver s ∨ ∃ task ∈ s.tiers, peer ∈ sendingPeers task
  listed : ∀ peer ∈ handedOver s, ∃ responses ∈ tiers, peer ∈ tierPeers responses

theorem addressInv_new (tiers : List (List TrackerResponse)) :
    AddressInv tiers (TorrentRefresh.new tiers) := by
  refine ⟨by simp [TorrentRefresh.new], ?_, List.forall_mem_nil _, List.forall_mem_nil _⟩
  intro i responses task hresponses htask
  have heq : task = .asking responses := by
    simpa [TorrentRefresh.new, hresponses] using htask.symm
  subst heq
  exact .asking (List.nil_append responses).symm (List.forall_mem_nil _) (List.forall_mem_nil _)

theorem addressInv_step (htimed : ∀ responses ∈ tiers, Timed responses) {s t : TorrentRefresh}
    {e : RefreshEvent} {r : Unit} (hs : AddressInv tiers s)
    (h : refreshStep s e = some (t, r)) : AddressInv tiers t := by
  rcases refreshMove h with ⟨j, task, recorded, task', sent, -, htask, hmove, rfl⟩ |
    ⟨newResp, channel, -, hc, rfl⟩
  · obtain ⟨hj, -⟩ := List.getElem?_eq_some_iff.mp htask
    have hj' : j < tiers.length := hs.length ▸ hj
    have hlookup : tiers[j]? = some tiers[j] := List.getElem?_eq_getElem hj'
    have hmem : tiers[j] ∈ tiers := List.getElem_mem hj'
    obtain ⟨hstands, hown, hsends⟩ :=
      tierRecords_move (htimed _ hmem) (hs.stands j _ task hlookup htask) hmove
    have hmoved : task' ∈ (moved s j recorded task' sent).tiers := List.mem_set hj task'
    refine ⟨?_, fun i responses other hresponses hother => ?_, fun peer hpeer => ?_,
      fun peer hpeer => ?_⟩
    · rw [hs.length, moved, List.length_set]
    · by_cases hij : i = j
      · subst hij
        rw [hlookup] at hresponses
        rw [getElem?_moved htask] at hother
        cases hresponses
        cases hother
        exact hstands
      · have hother' : s.tiers[i]? = some other := by
          rwa [moved, List.getElem?_set_ne (Ne.symm hij)] at hother
        exact (hs.stands i responses other hresponses hother').more recorded
    · have hsent (hpeer : peer ∈ recorded ++ sendingPeers task) :
          peer ∈ handedOver (moved s j recorded task' sent) ∨
            ∃ task ∈ (moved s j recorded task' sent).tiers, peer ∈ sendingPeers task := by
        rw [handedOver_moved]
        rcases List.mem_append.mp (hsends peer hpeer) with hpeer | hpeer
        · exact Or.inr ⟨task', hmoved, hpeer⟩
        · exact Or.inl (List.mem_append_right _ hpeer)
      rcases List.mem_append.mp hpeer with hpeer | hpeer
      · rcases hs.sent peer hpeer with hpeer | ⟨other, hother, hpeer⟩
        · rw [handedOver_moved]
          exact Or.inl (List.mem_append_left _ hpeer)
        · obtain ⟨i, hi⟩ := List.mem_iff_getElem?.mp hother
          by_cases hij : i = j
          · subst hij
            rw [htask] at hi
            cases hi
            exact hsent (List.mem_append_right _ hpeer)
          · refine Or.inr ⟨other, List.mem_of_getElem? (i := i) ?_, hpeer⟩
            rwa [moved, List.getElem?_set_ne (Ne.symm hij)]
      · exact hsent (List.mem_append_left _ hpeer)
    · rw [handedOver_moved] at hpeer
      rcases List.mem_append.mp hpeer with hpeer | hpeer
      · exact hs.listed peer hpeer
      · exact ⟨_, hmem, hown peer (List.mem_append_right _ hpeer)⟩
  · have hover := handedOver_recv hc
    refine ⟨hs.length, hs.stands, ?_, ?_⟩
    · rw [hover]
      exact hs.sent
    · rw [hover]
      exact hs.listed

/-- INTERNAL: when all responses are worked off, the addresses that the tiers list are contacted,
and no other peers are. -/
theorem AddressInv.contacted {s : TorrentRefresh} (h : AddressInv tiers s) (hoff : WorkedOff s) :
    (∀ responses ∈ tiers, ∀ peer ∈ tierPeers responses, peer.ip ∈ s.handshakes.map Peer.ip) ∧
      ∀ peer ∈ s.handshakes, ∃ responses ∈ tiers, peer ∈ tierPeers responses := by
  have hover : handedOver s = s.handshakes := by
    rw [handedOver, hoff.1, listed_nil, List.append_nil]
  refine ⟨fun responses hmem peer hpeer => ?_, hover ▸ h.listed⟩
  obtain ⟨i, hi, rfl⟩ := List.mem_iff_getElem.mp hmem
  have hi' : i < s.tiers.length := h.length ▸ hi
  have hstands := h.stands i _ _ (List.getElem?_eq_getElem hi) (List.getElem?_eq_getElem hi')
  have hseen : Records s.alreadySeenPeers (answersOf tiers[i]) := by
    rcases hoff.2 _ (List.getElem_mem hi') with htask | htask
    · rw [htask] at hstands
      cases hstands with
      | @asking earlier _ hsplit hpast hseen =>
        rwa [hsplit, answersOf_append hpast, answersOf, List.append_nil]
    · rw [htask] at hstands
      cases hstands with
      | ended hseen => exact hseen
  -- what is recorded has been sent, since nobody is sending
  obtain ⟨same, hsame, hip⟩ := List.mem_map.mp (hseen peer hpeer)
  rw [← hip, ← hover]
  refine List.mem_map_of_mem ((h.sent same hsame).resolve_right ?_)
  rintro ⟨task, htask, hsending⟩
  rcases hoff.2 task htask with rfl | rfl
  all_goals cases hsending

/-- The discovery has come to its end: all responses are worked off, the orchestrator has returned
if and only if no task can send any more, every address that a tracker has listed is contacted and
no other peer is. -/
structure Discovered (tiers : List (List TrackerResponse)) (s : PeerDiscovery) : Prop where
  workedOff : WorkedOff s.refresh
  returned : s.retires = 0 ↔ ∀ task ∈ s.refresh.tiers, task = .ended
  contacted : ∀ responses ∈ tiers, ∀ peer ∈ tierPeers responses,
    peer.ip ∈ s.refresh.handshakes.map Peer.ip
  listed : ∀ peer ∈ s.refresh.handshakes, ∃ responses ∈ tiers, peer ∈ tierPeers responses

/-- INTERNAL: while the orchestrator has not seen the channel closed, it and the tasks go on. -/
theorem discoveryStep_of_refreshStep {s : PeerDiscovery} (hretires : s.retires = maxRetires)
    {x : RefreshEvent} {refresh : TorrentRefresh} {r : Unit}
    (h : refreshStep s.refresh x = some (refresh, r)) :
    ∃ e, discoveryStep s e = some ({ s with refresh }, ()) := by
  obtain ⟨u, hu, heq⟩ := Option.map_eq_some_iff.mp h
  cases heq
  cases x with
  | tier i =>
    refine ⟨.tier i, ?_⟩
    change s.refresh.tier i = some refresh at hu
    simp only [discoveryStep, PeerDiscovery.tier, hretires, maxRetires, hu, Option.map_some]
  | recv =>
    refine ⟨.recv, ?_⟩
    change s.refresh.recv = some refresh at hu
    simp only [discoveryStep, PeerDiscovery.recv, hretires, maxRetires, hu, Option.map_some]

/-- INTERNAL: the discovery goes on until its end. -/
theorem discovery_goes {s : PeerDiscovery} (hs : Listens s)
    (haddress : AddressInv tiers s.refresh) :
    Discovered tiers s ∨ ∃ e t r, discoveryStep s e = some (t, r) := by
  by_cases hoff : WorkedOff s.refresh
  · obtain ⟨hcontacted, hlisted⟩ := haddress.contacted hoff
    by_cases hended : ∀ task ∈ s.refresh.tiers, task = .ended
    · cases hretires : s.retires with
      | zero => exact Or.inl ⟨hoff, iff_of_true hretires hended, hcontacted, hlisted⟩
      | succ retires =>
        -- the channel is closed and empty
        refine Or.inr ⟨.closed, { s with retires }, (), ?_⟩
        have hall : (s.refresh.tiers.all (· == .ended)) = true :=
          List.all_eq_true.mpr fun task hmem => beq_iff_eq.mpr (hended task hmem)
        simp [discoveryStep, PeerDiscovery.closed, hretires, hoff.1, hall]
    · refine Or.inl ⟨hoff, iff_of_false (fun hretires => hended ?_) hended, hcontacted, hlisted⟩
      exact (hs.closed (by rw [hretires]; decide)).2
  · right
    have hretires : s.retires = maxRetires := by
      refine Nat.le_antisymm hs.le (Nat.le_of_not_lt fun hlt => hoff ?_)
      exact ⟨(hs.closed hlt).1, fun task hmem => Or.inr ((hs.closed hlt).2 task hmem)⟩
    obtain ⟨x, refresh, r, hx⟩ := goesOn_of_not_workedOff hoff
    obtain ⟨e, he⟩ := discoveryStep_of_refreshStep hretires hx
    exact ⟨e, _, (), he⟩

/-- **Every address that a tracker lists is contacted.** An address is an IP address, by which the
tasks tell peers apart; the port is not looked at. For all tiers whose responses without an interval
bring no new address: in every order in which the tasks of the tiers and the orchestrator go on, they
come to an end, without any of them waiting for ever. Then each address in a response that some task
got has been handed to a handshake, only listed peers have been, and the orchestrator has returned
exactly if no task is left that could send.
SOURCE: torrent_refresh.rs:19-83, handshake_orechestration.rs:19-67 -/
theorem discovery_contacts_every_address (htimed : ∀ responses ∈ tiers, Timed responses) :
    AlwaysReaches discoveryStep (Discovered tiers) (PeerDiscovery.new tiers) := by
  have hstart : Listens (PeerDiscovery.new tiers) :=
    ⟨le_rfl, fun hlt => absurd hlt (Nat.lt_irrefl _)⟩
  refine alwaysReaches_of_progress (fun s => refreshDistance s.refresh + s.retires)
    (fun s => Listens s ∧ AddressInv tiers s.refresh) ?_ ?_ ⟨hstart, addressInv_new tiers⟩
  · rintro s ⟨hs, haddress⟩
    exact discovery_goes hs haddress
  · rintro s e t r ⟨hs, haddress⟩ h
    have hserves := listens_step hs h
    cases discoveryMove hs h with
    | refreshes _ _ hstep =>
      have hlt := refreshDistance_step hstep
      exact ⟨⟨hserves, addressInv_step htimed haddress hstep⟩, by simpa using hlt⟩
    | closed hretires => exact ⟨⟨hserves, haddress⟩, by simp [hretires]⟩

/-- Two tiers list one address, one of them with a second client behind it, and another tracker
fails. -/
def sharedAddress : List (List TrackerResponse) :=
  [[⟨some 1800, some [⟨none, "203.0.113.7", 6881⟩]⟩],
    [⟨some 900, some [⟨none, "203.0.113.7", 6882⟩, ⟨none, "203.0.113.8", 6881⟩]⟩, ⟨none, none⟩]]

/-- The addresses of both tiers are contacted in every order. -/
theorem discovery_contacts_every_address_shared :
    AlwaysReaches discoveryStep (Discovered sharedAddress) (PeerDiscovery.new sharedAddress) := by
  refine discovery_contacts_every_address fun responses hmem earlier newResp later h hnone => ?_
  have hbare : ∀ responses ∈ sharedAddress, ∀ newResp ∈ answersOf responses,
      newResp.interval = none → newResp.peers = none := by decide
  have hpeers := hbare responses hmem newResp (by rw [h]; simp) hnone
  simp [newPeers, fresh, hpeers]

end Fissure.Analysis
