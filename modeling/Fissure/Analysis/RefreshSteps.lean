import Mathlib.Algebra.BigOperators.Group.List.Basic
import Mathlib.Algebra.GroupWithZero.Nat
import Fissure.Library.Transition
import Fissure.Model.TorrentRefresh

/-!
# Steps of the tier tasks

What one step of a tier's task records and sends (`tierMove`), what the orchestrator has been
given at any time (`handedOver`), and two kinds of runs: every run goes on until all responses are
worked off (`alwaysReaches_workedOff`), and a task can work off responses while the others rest
(`drains`).

A peer whose address is recorded and that no task is about to send is not handed over any more
(`Closed`).
-/

set_option autoImplicit false

namespace Fissure.Analysis

open Fissure.Library Fissure.Model

/-- Where a handshake connects to. -/
def endpoint (peer : Peer) : String × ℤ := (peer.ip, peer.port)

/-- The peers of some responses. -/
def listed (responses : List TrackerResponse) : List Peer :=
  responses.flatMap fun newResp => newResp.peers.getD []

/-- The peers that the orchestrator has or finds in the channel. -/
def handedOver (s : TorrentRefresh) : List Peer := s.handshakes ++ listed s.channel

/-- The endpoints that the orchestrator has or finds in the channel. -/
def endpointsOver (s : TorrentRefresh) : List (String × ℤ) := (handedOver s).map endpoint

/-- The peers that a task has taken for new and not sent yet. -/
def unsentPeers : TierTask → List Peer
  | .retained _ newRespPeer _ => newRespPeer
  | .sending newResp _ => newResp.peers.getD []
  | _ => []

/-- The responses are worked off: the tasks have no more, and the channel is empty. -/
def WorkedOff (s : TorrentRefresh) : Prop :=
  s.channel = [] ∧ ∀ task ∈ s.tiers, task = .asking [] ∨ task = .ended

/-! ## One step -/

@[simp] theorem listed_nil : listed [] = [] := rfl

@[simp] theorem listed_cons (newResp : TrackerResponse) (responses : List TrackerResponse) :
    listed (newResp :: responses) = newResp.peers.getD [] ++ listed responses := rfl

@[simp] theorem listed_append (xs ys : List TrackerResponse) :
    listed (xs ++ ys) = listed xs ++ listed ys :=
  List.flatMap_append

/-- INTERNAL: what a step of a task can be: what it records, where the task gets to, what it sends.
SOURCE: torrent_refresh.rs:51-75 -/
inductive TierMove (s : TorrentRefresh) :
    TierTask → List Peer → TierTask → List TrackerResponse → Prop
  | answer {newResp : TrackerResponse} {newRespPeer : List Peer}
      {responses : List TrackerResponse} (hpeers : newResp.peers = some newRespPeer) :
      TierMove s (.asking (newResp :: responses)) [] (.answered newResp newRespPeer responses) []
  | noPeers {newResp : TrackerResponse} {responses : List TrackerResponse}
      (hpeers : newResp.peers = none) :
      TierMove s (.asking (newResp :: responses)) [] .ended []
  | retain {newResp : TrackerResponse} {newRespPeer : List Peer}
      {responses : List TrackerResponse} (hlock : s.writeLocked = false) :
      TierMove s (.answered newResp newRespPeer responses) []
        (.retained newResp (fresh Peer.ip s.alreadySeenPeers newRespPeer) responses) []
  | record {newResp : TrackerResponse} {newRespPeer : List Peer}
      {responses : List TrackerResponse} {interval : ℤ} (hlock : s.writeLocked = false)
      (hinterval : newResp.interval = some interval) :
      TierMove s (.retained newResp newRespPeer responses) newRespPeer
        (.sending { newResp with peers := some newRespPeer } responses) []
  | noInterval {newResp : TrackerResponse} {newRespPeer : List Peer}
      {responses : List TrackerResponse} (hlock : s.writeLocked = false)
      (hinterval : newResp.interval = none) :
      TierMove s (.retained newResp newRespPeer responses) newRespPeer .ended []
  | send {newResp : TrackerResponse} {responses : List TrackerResponse}
      (hroom : s.channel.length < peerTrackerCapacity) :
      TierMove s (.sending newResp responses) [] (.asking responses) [newResp]

/-- The state after a step of the task of tier `i`. -/
def moved (s : TorrentRefresh) (i : ℕ) (recorded : List Peer) (task : TierTask)
    (sent : List TrackerResponse) : TorrentRefresh :=
  { s with
    alreadySeenPeers := s.alreadySeenPeers ++ recorded
    tiers := s.tiers.set i task
    channel := s.channel ++ sent }

@[simp] theorem alreadySeenPeers_moved (s : TorrentRefresh) (i : ℕ) (recorded : List Peer)
    (task : TierTask) (sent : List TrackerResponse) :
    (moved s i recorded task sent).alreadySeenPeers = s.alreadySeenPeers ++ recorded := rfl

@[simp] theorem channel_moved (s : TorrentRefresh) (i : ℕ) (recorded : List Peer)
    (task : TierTask) (sent : List TrackerResponse) :
    (moved s i recorded task sent).channel = s.channel ++ sent := rfl

theorem tierMove {s : TorrentRefresh} {task task' : TierTask} {recorded : List Peer}
    {sent : List TrackerResponse} (h : s.next task = some (recorded, task', sent)) :
    TierMove s task recorded task' sent := by
  cases task with
  | asking responses =>
    cases responses with
    | nil => cases h
    | cons newResp responses =>
      simp only [TorrentRefresh.next] at h
      split at h
      · rename_i hpeers
        cases h
        exact .answer hpeers
      · rename_i hpeers
        cases h
        exact .noPeers hpeers
  | answered newResp newRespPeer responses =>
    simp only [TorrentRefresh.next] at h
    split at h
    · cases h
    · rename_i hlock
      cases h
      exact .retain (Bool.eq_false_iff.mpr hlock)
  | retained newResp newRespPeer responses =>
    simp only [TorrentRefresh.next] at h
    split at h
    · cases h
    · rename_i hlock
      split at h
      · rename_i hinterval
        cases h
        exact .record (Bool.eq_false_iff.mpr hlock) hinterval
      · rename_i hinterval
        cases h
        exact .noInterval (Bool.eq_false_iff.mpr hlock) hinterval
  | sending newResp responses =>
    simp only [TorrentRefresh.next] at h
    split at h
    · rename_i hroom
      cases h
      exact .send hroom
    · cases h
  | ended => cases h

/-- INTERNAL: a step is one of a task, or the orchestrator takes the first response.
SOURCE: torrent_refresh.rs:21-81, handshake_orechestration.rs:23-66 -/
theorem refreshMove {s t : TorrentRefresh} {e : RefreshEvent} {r : Unit}
    (h : refreshStep s e = some (t, r)) :
    (∃ i task recorded task' sent, e = .tier i ∧ s.tiers[i]? = some task ∧
      TierMove s task recorded task' sent ∧ t = moved s i recorded task' sent) ∨
    (∃ newResp channel, e = .recv ∧ s.channel = newResp :: channel ∧
      t = { s with channel, handshakes := s.handshakes ++ newResp.peers.getD [] }) := by
  cases e with
  | tier i =>
    simp only [refreshStep, TorrentRefresh.tier, Option.bind_eq_bind, Option.map_eq_some_iff,
      Option.bind_eq_some_iff] at h
    obtain ⟨_, ⟨task, htask, ⟨recorded, task', sent⟩, hnext, hs⟩, ht⟩ := h
    cases hs
    cases ht
    exact Or.inl ⟨i, task, recorded, task', sent, rfl, htask, tierMove hnext, rfl⟩
  | recv =>
    simp only [refreshStep, TorrentRefresh.recv, Option.map_eq_some_iff] at h
    obtain ⟨_, hrecv, ht⟩ := h
    split at hrecv
    · cases hrecv
    · rename_i newResp channel hchannel
      cases hrecv
      cases ht
      exact Or.inr ⟨newResp, channel, rfl, hchannel, rfl⟩

/-- A step of a task that can be made. -/
theorem refreshStep_tier {s : TorrentRefresh} {i : ℕ} {task task' : TierTask}
    {recorded : List Peer} {sent : List TrackerResponse} (htask : s.tiers[i]? = some task)
    (h : s.next task = some (recorded, task', sent)) :
    refreshStep s (.tier i) = some (moved s i recorded task' sent, ()) := by
  simp [refreshStep, TorrentRefresh.tier, htask, h, moved]

/-- A response that can be taken. -/
theorem refreshStep_recv {s : TorrentRefresh} {newResp : TrackerResponse}
    {channel : List TrackerResponse} (h : s.channel = newResp :: channel) :
    refreshStep s .recv = some
      ({ s with channel, handshakes := s.handshakes ++ newResp.peers.getD [] }, ()) := by
  simp [refreshStep, TorrentRefresh.recv, h]

@[simp] theorem handedOver_moved (s : TorrentRefresh) (i : ℕ) (recorded : List Peer)
    (task : TierTask) (sent : List TrackerResponse) :
    handedOver (moved s i recorded task sent) = handedOver s ++ listed sent := by
  simp [handedOver, moved]

@[simp] theorem endpointsOver_moved (s : TorrentRefresh) (i : ℕ) (recorded : List Peer)
    (task : TierTask) (sent : List TrackerResponse) :
    endpointsOver (moved s i recorded task sent) =
      endpointsOver s ++ (listed sent).map endpoint := by
  rw [endpointsOver, handedOver_moved, List.map_append, endpointsOver]

theorem handedOver_recv {s : TorrentRefresh} {newResp : TrackerResponse}
    {channel : List TrackerResponse} (h : s.channel = newResp :: channel) :
    handedOver { s with channel, handshakes := s.handshakes ++ newResp.peers.getD [] } =
      handedOver s := by
  simp [handedOver, h]

/-- When the responses are worked off, the orchestrator has what was sent. -/
theorem WorkedOff.endpointsOver {s : TorrentRefresh} (h : WorkedOff s) :
    endpointsOver s = s.handshakes.map endpoint := by
  rw [Analysis.endpointsOver, handedOver, h.1, listed_nil, List.append_nil]

/-- Peers with other addresses are at other endpoints. -/
theorem count_endpoint_eq_zero {peers : List Peer} {a : String × ℤ}
    (h : ∀ peer ∈ peers, peer.ip ≠ a.1) : (peers.map endpoint).count a = 0 := by
  rw [List.count_eq_zero]
  intro hmem
  obtain ⟨peer, hpeer, rfl⟩ := List.mem_map.mp hmem
  exact h peer hpeer rfl

/-- A listed endpoint has a listed address. -/
theorem ip_of_mem_endpoints {peers : List Peer} {a : String × ℤ} (h : a ∈ peers.map endpoint) :
    a.1 ∈ peers.map Peer.ip := by
  obtain ⟨peer, hpeer, rfl⟩ := List.mem_map.mp h
  exact List.mem_map_of_mem hpeer

/-- INTERNAL: a task of the state after a step is the one that moved or one from before. -/
theorem mem_tiers_moved {s : TorrentRefresh} {i : ℕ} {recorded : List Peer}
    {task other : TierTask} {sent : List TrackerResponse}
    (h : other ∈ (moved s i recorded task sent).tiers) : other ∈ s.tiers ∨ other = task :=
  List.mem_or_eq_of_mem_set h

/-- INTERNAL: nothing that was handed over is taken back.
SOURCE: torrent_refresh.rs:74, handshake_orechestration.rs:26 -/
theorem count_endpointsOver_step {s t : TorrentRefresh} {e : RefreshEvent} {r : Unit}
    (a : String × ℤ) (h : refreshStep s e = some (t, r)) :
    (endpointsOver s).count a ≤ (endpointsOver t).count a := by
  rcases refreshMove h with ⟨i, task, recorded, task', sent, -, -, -, rfl⟩ | ⟨_, _, -, hc, rfl⟩
  · simp [endpointsOver]
  · rw [endpointsOver, endpointsOver, handedOver_recv hc]

/-- INTERNAL: what was handed over stays so to the end of a run. -/
theorem count_endpointsOver_run {s t : TorrentRefresh} {es : List RefreshEvent}
    (a : String × ℤ) (h : run refreshStep s es = some t) :
    (endpointsOver s).count a ≤ (endpointsOver t).count a :=
  run_invariant_of_forall (fun u => (endpointsOver s).count a ≤ (endpointsOver u).count a)
    (fun _ _ _ _ hle _ he => hle.trans (count_endpointsOver_step a he)) le_rfl
    (fun _ _ => trivial) h

/-! ## Recorded addresses -/

/-- The address is recorded, and no task is about to send a peer with it. -/
structure Closed (ip : String) (s : TorrentRefresh) : Prop where
  seen : ip ∈ s.alreadySeenPeers.map Peer.ip
  unsent : ∀ task ∈ s.tiers, ∀ peer ∈ unsentPeers task, peer.ip ≠ ip

/-- INTERNAL: a task takes no peer with a closed address for new, so it sends none.
SOURCE: torrent_refresh.rs:63 -/
theorem closed_move {s : TorrentRefresh} {task task' : TierTask} {recorded : List Peer}
    {sent : List TrackerResponse} {ip : String} (hs : Closed ip s) (hmem : task ∈ s.tiers)
    (hmove : TierMove s task recorded task' sent) :
    ∀ peer ∈ unsentPeers task' ++ listed sent, peer.ip ≠ ip := by
  have hold := hs.unsent task hmem
  cases hmove with
  | answer hpeers => exact nofun
  | noPeers hpeers => exact nofun
  | retain hlock =>
    intro peer hpeer heq
    rw [listed_nil, List.append_nil] at hpeer
    exact (mem_fresh.mp hpeer).2 (heq ▸ hs.seen)
  | record hlock hinterval => simpa [unsentPeers] using hold
  | noInterval hlock hinterval => exact nofun
  | send hroom => simpa [unsentPeers] using hold

/-- INTERNAL: a peer with a recorded address that no task is about to send is not handed over any
more.
SOURCE: torrent_refresh.rs:63 -/
theorem closed_step {s t : TorrentRefresh} {e : RefreshEvent} {r : Unit} {a : String × ℤ}
    (hs : Closed a.1 s) (h : refreshStep s e = some (t, r)) :
    Closed a.1 t ∧ (endpointsOver t).count a = (endpointsOver s).count a := by
  rcases refreshMove h with ⟨i, task, recorded, task', sent, -, htask, hmove, rfl⟩ |
    ⟨newResp, channel, -, hc, rfl⟩
  · have hne := closed_move hs (List.mem_of_getElem? htask) hmove
    refine ⟨⟨?_, fun other hother => ?_⟩, ?_⟩
    · exact List.map_subset _ (List.subset_append_left _ _) hs.seen
    · rcases mem_tiers_moved hother with hother | rfl
      · exact hs.unsent other hother
      · exact fun peer hpeer => hne peer (List.mem_append_left _ hpeer)
    · have hnone : ((listed sent).map endpoint).count a = 0 :=
        count_endpoint_eq_zero fun peer hpeer => hne peer (List.mem_append_right _ hpeer)
      rw [endpointsOver_moved, List.count_append, hnone, Nat.add_zero]
  · refine ⟨⟨hs.seen, hs.unsent⟩, ?_⟩
    rw [endpointsOver, endpointsOver, handedOver_recv hc]

/-- INTERNAL: from then on, the peers with the address that are handed over stay the same. -/
theorem closed_run {s t : TorrentRefresh} {es : List RefreshEvent} {a : String × ℤ}
    (hs : Closed a.1 s) (h : run refreshStep s es = some t) :
    Closed a.1 t ∧ (endpointsOver t).count a = (endpointsOver s).count a := by
  refine run_invariant_of_forall
    (fun u => Closed a.1 u ∧ (endpointsOver u).count a = (endpointsOver s).count a)
    (fun u e v r hu _ he => ?_) ⟨hs, rfl⟩ (fun _ _ => trivial) h
  obtain ⟨hclosed, hcount⟩ := closed_step hu.1 he
  exact ⟨hclosed, hcount.trans hu.2⟩

/-! ## Working off the responses -/

/-- How many steps a task can still make, with one for each response it sends. -/
def stepsLeft : TierTask → ℕ
  | .asking responses => 5 * responses.length
  | .answered _ _ responses => 5 * responses.length + 4
  | .retained _ _ responses => 5 * responses.length + 3
  | .sending _ responses => 5 * responses.length + 2
  | .ended => 0

/-- How far a state is from having worked off all responses. -/
def refreshDistance (s : TorrentRefresh) : ℕ := (s.tiers.map stepsLeft).sum + s.channel.length

theorem stepsLeft_of_move {s : TorrentRefresh} {task task' : TierTask} {recorded : List Peer}
    {sent : List TrackerResponse} (h : TierMove s task recorded task' sent) :
    stepsLeft task' + sent.length < stepsLeft task := by
  cases h <;> simp only [stepsLeft, List.length_cons, List.length_nil] <;> omega

/-- INTERNAL: the tasks and the orchestrator cannot go on for ever without a new response. -/
theorem refreshDistance_step {s t : TorrentRefresh} {e : RefreshEvent} {r : Unit}
    (h : refreshStep s e = some (t, r)) : refreshDistance t < refreshDistance s := by
  rcases refreshMove h with ⟨i, task, recorded, task', sent, -, htask, hmove, rfl⟩ |
    ⟨newResp, channel, -, hc, rfl⟩
  · obtain ⟨hi, rfl⟩ := List.getElem?_eq_some_iff.mp htask
    have hlt := stepsLeft_of_move hmove
    have hset : s.tiers.set i task' = s.tiers.take i ++ task' :: s.tiers.drop (i + 1) :=
      List.set_eq_take_append_cons_drop.trans (if_pos hi)
    have hsum : (s.tiers.map stepsLeft).sum = ((s.tiers.take i).map stepsLeft).sum +
        (stepsLeft s.tiers[i] + ((s.tiers.drop (i + 1)).map stepsLeft).sum) := by
      rw [← List.sum_cons, ← List.map_cons, List.getElem_cons_drop, ← List.sum_append,
        ← List.map_append, List.take_append_drop]
    simp only [refreshDistance, moved, hset, hsum, List.map_append, List.map_cons,
      List.sum_append, List.sum_cons, List.length_append]
    omega
  · simp [refreshDistance, hc]

/-- INTERNAL: as long as responses are not worked off, somebody can go on: whoever waits for the
lock waits for a task that sends, and whoever waits for the channel waits for the orchestrator. -/
theorem goesOn_of_not_workedOff {s : TorrentRefresh} (h : ¬ WorkedOff s) :
    ∃ e t r, refreshStep s e = some (t, r) := by
  cases hc : s.channel with
  | cons newResp channel => exact ⟨.recv, _, (), refreshStep_recv hc⟩
  | nil =>
    have hroom : s.channel.length < peerTrackerCapacity := by rw [hc]; decide
    cases hlock : s.writeLocked with
    | true =>
      obtain ⟨task, hmem, hwrites⟩ := List.any_eq_true.mp hlock
      obtain ⟨i, htask⟩ := List.mem_iff_getElem?.mp hmem
      cases task with
      | sending newResp responses =>
        exact ⟨.tier i, _, (), refreshStep_tier htask (if_pos hroom)⟩
      | asking responses => cases hwrites
      | answered newResp newRespPeer responses => cases hwrites
      | retained newResp newRespPeer responses => cases hwrites
      | ended => cases hwrites
    | false =>
      have hsome : ∃ task ∈ s.tiers, task ≠ .asking [] ∧ task ≠ .ended := by
        by_contra hall
        push Not at hall
        exact h ⟨hc, fun task hmem => or_iff_not_imp_left.mpr (hall task hmem)⟩
      obtain ⟨task, hmem, hasks, hruns⟩ := hsome
      obtain ⟨i, htask⟩ := List.mem_iff_getElem?.mp hmem
      have hnext : ∃ recorded task' sent, s.next task = some (recorded, task', sent) := by
        cases task with
        | asking responses =>
          cases responses with
          | nil => exact absurd rfl hasks
          | cons newResp responses =>
            cases hpeers : newResp.peers <;> simp [TorrentRefresh.next, hpeers]
        | answered newResp newRespPeer responses => simp [TorrentRefresh.next, hlock]
        | retained newResp newRespPeer responses =>
          cases hinterval : newResp.interval <;> simp [TorrentRefresh.next, hlock, hinterval]
        | sending newResp responses => simp [TorrentRefresh.next, hroom]
        | ended => exact absurd rfl hruns
      obtain ⟨recorded, task', sent, hnext⟩ := hnext
      exact ⟨.tier i, _, (), refreshStep_tier htask hnext⟩

/-- **Whatever the interleaving, the responses get worked off**: the tasks and the orchestrator
neither wait for each other for ever nor go on for ever. -/
theorem alwaysReaches_workedOff (s : TorrentRefresh) : AlwaysReaches refreshStep WorkedOff s :=
  alwaysReaches_of_progress refreshDistance (fun _ => True)
    (fun _ _ => or_iff_not_imp_left.mpr goesOn_of_not_workedOff)
    (fun _ _ _ _ _ he => ⟨trivial, refreshDistance_step he⟩) trivial

/-! ## One task at a time -/

/-- Whether the task does not survive the response. -/
def endsTier (newResp : TrackerResponse) : Bool :=
  newResp.peers.isNone || newResp.interval.isNone

/-- Nothing is on its way: the channel is empty, and each task asks or has ended. -/
structure AtRest (s : TorrentRefresh) : Prop where
  channel : s.channel = []
  tasks : ∀ task ∈ s.tiers, (∃ responses, task = .asking responses) ∨ task = .ended

/-- The state after the task of tier `i` has worked off a response that brings `newPeers`. -/
def delivered (s : TorrentRefresh) (i : ℕ) (newPeers : List Peer)
    (responses : List TrackerResponse) : TorrentRefresh where
  alreadySeenPeers := s.alreadySeenPeers ++ newPeers
  tiers := s.tiers.set i (.asking responses)
  channel := []
  handshakes := s.handshakes ++ newPeers

theorem endsTier_eq_false_iff {newResp : TrackerResponse} :
    endsTier newResp = false ↔
      (∃ newRespPeer, newResp.peers = some newRespPeer) ∧
        ∃ interval, newResp.interval = some interval := by
  rw [endsTier, Bool.or_eq_false_iff, Option.isNone_eq_false_iff, Option.isNone_eq_false_iff,
    Option.isSome_iff_exists, Option.isSome_iff_exists]

theorem moved_moved (s : TorrentRefresh) (i : ℕ) (recorded recorded' : List Peer)
    (task task' : TierTask) (sent sent' : List TrackerResponse) :
    moved (moved s i recorded task sent) i recorded' task' sent' =
      moved s i (recorded ++ recorded') task' (sent ++ sent') := by
  simp [moved]

theorem getElem?_moved {s : TorrentRefresh} {i : ℕ} {recorded : List Peer}
    {task task' : TierTask} {sent : List TrackerResponse} (htask : s.tiers[i]? = some task) :
    (moved s i recorded task' sent).tiers[i]? = some task' :=
  List.getElem?_set_self (List.getElem?_eq_some_iff.mp htask).1

theorem writeLocked_set {s t : TorrentRefresh} {i : ℕ} {task : TierTask}
    (hlock : s.writeLocked = false) (htask : task.writes = false)
    (htiers : t.tiers = s.tiers.set i task) : t.writeLocked = false := by
  rw [TorrentRefresh.writeLocked, List.any_eq_false] at hlock ⊢
  intro other hother
  rw [htiers] at hother
  rcases List.mem_or_eq_of_mem_set hother with hother | rfl
  · exact hlock other hother
  · exact Bool.eq_false_iff.mp htask

theorem AtRest.writeLocked {s : TorrentRefresh} (hs : AtRest s) : s.writeLocked = false := by
  rw [TorrentRefresh.writeLocked, List.any_eq_false]
  intro task hmem
  rcases hs.tasks task hmem with ⟨responses, rfl⟩ | rfl <;> exact Bool.false_ne_true

/-- What is recorded while nothing is on its way is not handed over any more. -/
theorem AtRest.closed {s : TorrentRefresh} {ip : String} (hs : AtRest s)
    (hip : ip ∈ s.alreadySeenPeers.map Peer.ip) : Closed ip s := by
  refine ⟨hip, fun task hmem => ?_⟩
  rcases hs.tasks task hmem with ⟨responses, rfl⟩ | rfl <;> exact nofun

theorem AtRest.delivered {s : TorrentRefresh} (hs : AtRest s) (i : ℕ) (newPeers : List Peer)
    (responses : List TrackerResponse) : AtRest (delivered s i newPeers responses) := by
  refine ⟨rfl, fun task hmem => ?_⟩
  rcases List.mem_or_eq_of_mem_set hmem with hmem | rfl
  · exact hs.tasks task hmem
  · exact Or.inl ⟨responses, rfl⟩

/-- A task that gets an answer can look for its new peers while nobody writes.
SOURCE: torrent_refresh.rs:60-65 -/
theorem run_retain {s : TorrentRefresh} {i : ℕ} {newResp : TrackerResponse}
    {newRespPeer : List Peer} {responses : List TrackerResponse} (hlock : s.writeLocked = false)
    (htask : s.tiers[i]? = some (.asking (newResp :: responses)))
    (hpeers : newResp.peers = some newRespPeer) :
    run refreshStep s [.tier i, .tier i] = some (moved s i []
      (.retained newResp (fresh Peer.ip s.alreadySeenPeers newRespPeer) responses) []) := by
  have hanswer : s.next (.asking (newResp :: responses)) =
      some ([], .answered newResp newRespPeer responses, []) := by
    simp [TorrentRefresh.next, hpeers]
  rw [run_cons_some _ (refreshStep_tier htask hanswer)]
  have hfree : (moved s i [] (.answered newResp newRespPeer responses) []).writeLocked = false :=
    writeLocked_set hlock rfl rfl
  have hretain : (moved s i [] (.answered newResp newRespPeer responses) []).next
      (.answered newResp newRespPeer responses) = some ([],
        .retained newResp (fresh Peer.ip s.alreadySeenPeers newRespPeer) responses, []) := by
    simp [TorrentRefresh.next, hfree]
  rw [run_cons_some _ (refreshStep_tier (getElem?_moved htask) hretain), run_nil, moved_moved]
  rfl

/-- A task with its new peers can record and send them while nobody writes, and the orchestrator
takes them.
SOURCE: torrent_refresh.rs:67-74, handshake_orechestration.rs:26-66 -/
theorem run_deliver {s : TorrentRefresh} {i : ℕ} {newResp : TrackerResponse}
    {newRespPeer : List Peer} {responses : List TrackerResponse} {interval : ℤ}
    (hlock : s.writeLocked = false) (hchannel : s.channel = [])
    (htask : s.tiers[i]? = some (.retained newResp newRespPeer responses))
    (hinterval : newResp.interval = some interval) :
    run refreshStep s [.tier i, .tier i, .recv] = some (delivered s i newRespPeer responses) := by
  let answer : TrackerResponse := { newResp with peers := some newRespPeer }
  have hrecord : s.next (.retained newResp newRespPeer responses) =
      some (newRespPeer, .sending answer responses, []) := by
    simp [TorrentRefresh.next, hlock, hinterval, answer]
  have hsend : (moved s i newRespPeer (.sending answer responses) []).next
      (.sending answer responses) = some ([], .asking responses, [answer]) := by
    simp [TorrentRefresh.next, hchannel, peerTrackerCapacity]
  have hrecv : (moved s i (newRespPeer ++ []) (.asking responses) ([] ++ [answer])).channel =
      answer :: [] := by
    simp [hchannel]
  rw [run_cons_some _ (refreshStep_tier htask hrecord),
    run_cons_some _ (refreshStep_tier (getElem?_moved htask) hsend), moved_moved,
    run_cons_some _ (refreshStep_recv hrecv)]
  simp [moved, delivered, answer]

/-- Two tasks that get an answer can both look for their new peers before either records them, and
then both send what they found. -/
theorem run_race {s : TorrentRefresh} {i j : ℕ} (hij : i ≠ j) (hs : AtRest s)
    {newResp newResp' : TrackerResponse} {newRespPeer newRespPeer' : List Peer}
    {responses responses' : List TrackerResponse} {interval interval' : ℤ}
    (hi : s.tiers[i]? = some (.asking (newResp :: responses)))
    (hj : s.tiers[j]? = some (.asking (newResp' :: responses')))
    (hpeers : newResp.peers = some newRespPeer) (hinterval : newResp.interval = some interval)
    (hpeers' : newResp'.peers = some newRespPeer')
    (hinterval' : newResp'.interval = some interval') :
    ∃ es t, run refreshStep s es = some t ∧ handedOver t = s.handshakes ++
      fresh Peer.ip s.alreadySeenPeers newRespPeer ++
        fresh Peer.ip s.alreadySeenPeers newRespPeer' := by
  let kept := fresh Peer.ip s.alreadySeenPeers newRespPeer
  let kept' := fresh Peer.ip s.alreadySeenPeers newRespPeer'
  -- both look at the record
  let t := moved s i [] (.retained newResp kept responses) []
  let u := moved t j [] (.retained newResp' kept' responses') []
  have htfree : t.writeLocked = false := writeLocked_set hs.writeLocked rfl rfl
  have hufree : u.writeLocked = false := writeLocked_set htfree rfl rfl
  have htj : t.tiers[j]? = some (.asking (newResp' :: responses')) :=
    (List.getElem?_set_ne hij).trans hj
  have htseen : t.alreadySeenPeers = s.alreadySeenPeers := List.append_nil _
  have hlook : run refreshStep s [.tier i, .tier i] = some t := run_retain hs.writeLocked hi hpeers
  have hlook' : run refreshStep t [.tier j, .tier j] = some u := by
    have hrun := run_retain htfree htj hpeers'
    rwa [htseen] at hrun
  -- then both record and send
  have hui : u.tiers[i]? = some (.retained newResp kept responses) :=
    (List.getElem?_set_ne hij.symm).trans (getElem?_moved hi)
  have huj : u.tiers[j]? = some (.retained newResp' kept' responses') := getElem?_moved htj
  have huchannel : u.channel = [] := by simp [u, t, hs.channel]
  let v := delivered u i kept responses
  have hvfree : v.writeLocked = false := writeLocked_set hufree rfl rfl
  have hvj : v.tiers[j]? = some (.retained newResp' kept' responses') :=
    (List.getElem?_set_ne hij).trans huj
  have hsend : run refreshStep u [.tier i, .tier i, .recv] = some v :=
    run_deliver hufree huchannel hui hinterval
  have hsend' : run refreshStep v [.tier j, .tier j, .recv] = some (delivered v j kept' responses') :=
    run_deliver hvfree rfl hvj hinterval'
  refine ⟨_, _, run_append.mpr ⟨t, hlook, run_append.mpr ⟨u, hlook', run_append.mpr ⟨v, hsend,
    hsend'⟩⟩⟩, ?_⟩
  simp [handedOver, delivered, v, u, t, moved, kept, kept']

/-- A task that is alone works off a response that it survives. -/
theorem run_one {s : TorrentRefresh} {i : ℕ} {newResp : TrackerResponse}
    {responses : List TrackerResponse} (hs : AtRest s)
    (htask : s.tiers[i]? = some (.asking (newResp :: responses)))
    (hends : endsTier newResp = false) :
    ∃ es, run refreshStep s es = some
      (delivered s i (fresh Peer.ip s.alreadySeenPeers (listed [newResp])) responses) := by
  obtain ⟨⟨newRespPeer, hpeers⟩, interval, hinterval⟩ := endsTier_eq_false_iff.mp hends
  have hlisted : listed [newResp] = newRespPeer := by simp [hpeers]
  let t := moved s i []
    (.retained newResp (fresh Peer.ip s.alreadySeenPeers newRespPeer) responses) []
  have hretain : run refreshStep s [.tier i, .tier i] = some t :=
    run_retain hs.writeLocked htask hpeers
  have hfree : t.writeLocked = false := writeLocked_set hs.writeLocked rfl rfl
  have hdeliver : run refreshStep t [.tier i, .tier i, .recv] = some (delivered t i
      (fresh Peer.ip s.alreadySeenPeers newRespPeer) responses) :=
    run_deliver hfree (by simp [t, hs.channel]) (getElem?_moved htask) hinterval
  refine ⟨_, (run_append.mpr ⟨t, hretain, hdeliver⟩).trans ?_⟩
  simp [delivered, t, moved, hlisted]

/-- INTERNAL: what a task alone leaves when it has worked off the responses of `done`. -/
structure Drained (i : ℕ) (done responses : List TrackerResponse) (s t : TorrentRefresh) :
    Prop where
  atRest : AtRest t
  tiers : t.tiers = s.tiers.set i (.asking responses)
  seen : ∀ ip, ip ∈ t.alreadySeenPeers.map Peer.ip ↔
    ip ∈ s.alreadySeenPeers.map Peer.ip ∨ ip ∈ (listed done).map Peer.ip
  handshakes : ∃ newPeers, t.handshakes = s.handshakes ++ newPeers ∧
    ∀ peer ∈ newPeers, peer ∈ listed done

/-- A task that is alone works off responses that it survives. The induction is on the responses:
the first one is worked off, and the rest from the state it leaves. -/
theorem drains {i : ℕ} {done responses : List TrackerResponse} {s : TorrentRefresh}
    (hs : AtRest s) (htask : s.tiers[i]? = some (.asking (done ++ responses)))
    (hdone : ∀ newResp ∈ done, endsTier newResp = false) :
    ∃ es t, run refreshStep s es = some t ∧ Drained i done responses s t := by
  induction done generalizing s with
  | nil =>
    obtain ⟨hi, htask⟩ := List.getElem?_eq_some_iff.mp htask
    have htiers : s.tiers.set i (.asking responses) = s.tiers := by
      rw [← List.nil_append responses, ← htask, List.set_getElem_self]
    exact ⟨[], s, rfl, hs, htiers.symm, by simp, [], by simp, nofun⟩
  | cons newResp done ih =>
    rw [List.forall_mem_cons] at hdone
    obtain ⟨xs, hxs⟩ := run_one hs htask hdone.1
    have hi := (List.getElem?_eq_some_iff.mp htask).1
    obtain ⟨ys, t, hys, ht⟩ := ih (hs.delivered i _ (done ++ responses))
      (List.getElem?_set_self hi) hdone.2
    refine ⟨xs ++ ys, t, run_append.mpr ⟨_, hxs, hys⟩, ht.atRest, ?_, fun ip => ?_, ?_⟩
    · rw [ht.tiers, delivered, List.set_set]
    · have hcons : listed (newResp :: done) = listed [newResp] ++ listed done :=
        listed_append [newResp] done
      rw [ht.seen, delivered, mem_keys_append_fresh, or_assoc, hcons, List.map_append,
        List.mem_append]
    · obtain ⟨newPeers, hnew, hmem⟩ := ht.handshakes
      refine ⟨fresh Peer.ip s.alreadySeenPeers (listed [newResp]) ++ newPeers, ?_, ?_⟩
      · rw [hnew, delivered, List.append_assoc]
      · intro peer hpeer
        rw [listed_cons, List.mem_append]
        rcases List.mem_append.mp hpeer with hpeer | hpeer
        · exact Or.inl (by simpa using (mem_fresh.mp hpeer).1)
        · exact Or.inr (hmem peer hpeer)

end Fissure.Analysis
