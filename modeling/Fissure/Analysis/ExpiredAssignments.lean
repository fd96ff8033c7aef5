import Fissure.Analysis.Isolation

/-!
# The assignments of connections that ended

The manager counts for each wanted piece the assignments that it has not taken back. It takes one
back when the piece is finished, or when the watchdog of the peer asks after the time-out; it
hears nothing of a connection that ends. A ledger kept beside a run has every assignment that
still counts, with the connection it was made to (`LedgerOf`). An assignment of a connection that
ended never expires, so these assignments stop counting along exactly those runs in which every
connection that ends leaves none (`expires_iff`).
-/

set_option autoImplicit false

namespace Fissure.Analysis

open Fissure.Library Fissure.Model
open Fissure.Model.TorrentManagerActor

/-! ## The ledger -/

/-- A piece that connection `connection` got under the id `peerId` at the instant `time`, as long
as it counts; `listed` while it is in the work list of the peer. -/
structure Assignment where
  connection : ℕ
  peerId : String
  piece : ℕ
  time : Instant
  listed : Bool

/-- The entry in the work list. -/
def Assignment.entry (x : Assignment) : ℕ × Instant := (x.piece, x.time)

/-- Whether the assignment is in the work list of peer `q`. -/
def Assignment.listedFor (q : String) (x : Assignment) : Bool := x.listed && x.peerId == q

/-- The ledger after the manager answered a message of connection `c` by `r`. -/
def ledgerAfter (timeout c : ℕ) (env : Env) (r : TorrentManagerReply) (ledger : List Assignment) :
    TorrentManagerMessage → List Assignment
  | .addPeer q _ => ledger.map fun x => if x.peerId = q then { x with listed := false } else x
  | .requestWork q =>
    match r with
    | .work (some mgr) => ledger ++ [⟨c, q, mgr.index, env.now, true⟩]
    | _ => ledger
  | .updateAndGetActiveRequestCount q =>
    ledger.filter fun x => !(x.listedFor q && timedOut timeout env.now x.entry)
  | .pieceFinish _ p => ledger.filter fun x => x.piece != p
  | _ => ledger

/-- The connections of a torrent with the ledger. -/
structure Audited where
  swarm : Swarm
  ledger : List Assignment

/-- The time-out of assignments. -/
def Audited.timeout (a : Audited) : ℕ := fromSecs a.swarm.manager.peerOptions.pieceRequestTimeout

/-- The ledger after an event. -/
def Audited.ledgerNext (a : Audited) (e : SwarmEvent) (r : TorrentManagerReply) :
    List Assignment :=
  match e with
  | .handshake received env =>
    match peerConnectionFromPeerMeta received with
    | some q => ledgerAfter a.timeout a.swarm.connections.length env r a.ledger (.addPeer q [])
    | none => a.ledger
  | .message c msg env =>
    match a.swarm.connections[c]? with
    | some conn => ledgerAfter a.timeout c env r a.ledger (msg.toManager conn.peerId)
    | none => a.ledger
  | _ => a.ledger

/-- One step of the connections, with the ledger kept beside it. -/
def auditedStep (a : Audited) (e : SwarmEvent) : Option (Audited × TorrentManagerReply) :=
  (swarmStep a.swarm e).map fun (s, r) => (⟨s, a.ledgerNext e r⟩, r)

/-! ## What the ledger is for -/

/-- Whether all tasks of connection `c` have ended. -/
def Audited.hasEnded (a : Audited) (c : ℕ) : Bool :=
  match a.swarm.connections[c]? with
  | some conn => !conn.isOpen
  | none => false

/-- The assignment was made to a connection that has ended, longer than the time-out ago. -/
def Audited.lapsed (a : Audited) (now : Instant) (x : Assignment) : Bool :=
  a.hasEnded x.connection && timedOut a.timeout now x.entry

/-- How many assignments of piece `p` are left when the lapsed ones are not counted. -/
def Audited.inForce (a : Audited) (now : Instant) (p : ℕ) : ℕ :=
  a.ledger.countP fun x => x.piece == p && !a.lapsed now x

/-- No lapsed assignment counts for the cap. -/
def LapsedUncounted (a : Audited) : Prop :=
  ∀ now p count, a.swarm.manager.pieceConcurrencyCounts.lookup p = some count →
    count ≤ a.inForce now p

/-- A request for work is answered with piece `p`, when the peer has it and does not work on it,
no other piece is eligible for the peer, and the assignments in force leave room under the cap. -/
def LapsedGiveWay (a : Audited) : Prop :=
  ∀ c conn env p t r, a.swarm.connections[c]? = some conn →
    Holds a.swarm.manager conn.peerId p → ¬ Owned a.swarm.manager p →
    (∀ work, a.swarm.manager.peerActiveWork.lookup conn.peerId = some work →
      ∀ w ∈ work, w.1 ≠ p) →
    (∀ p', p' ≠ p → ¬ Eligible a.swarm.manager conn.peerId p') →
    a.inForce env.now p ≤ a.swarm.manager.peerOptions.perPieceActivePeerCount →
    swarmStep a.swarm (.message c .requestPiece env) = some (t, r) →
      ∃ mgr, r = .work (some mgr) ∧ mgr.index = p

/-- The assignments of connections that ended expire. -/
def AssignmentsExpire (a : Audited) : Prop := LapsedUncounted a ∧ LapsedGiveWay a

/-- A connection of which the last task ends leaves no assignment that counts. -/
def EndsClean (a : Audited) (e : SwarmEvent) : Prop :=
  ∀ c ∈ endsTask e, ∀ conn ∈ a.swarm.connections[c]?, (afterEnd e conn).isOpen = false →
    ∀ x ∈ a.ledger, x.connection ≠ c

instance (a : Audited) (e : SwarmEvent) : Decidable (EndsClean a e) :=
  inferInstanceAs (Decidable (∀ c ∈ endsTask e, ∀ conn ∈ a.swarm.connections[c]?, _))

/-! ## The ledger and the books of the manager -/

/-- The ledger has the assignments that the manager counts, and says which of them are in the work
list of whom. -/
structure LedgerOf (s : TorrentManagerActor) (ledger : List Assignment) : Prop where
  unowned : ∀ x ∈ ledger, ¬ Owned s x.piece
  count_eq : ∀ p count, s.pieceConcurrencyCounts.lookup p = some count →
    count = ledger.countP fun x => x.piece == p
  work_eq : ∀ q work, s.peerActiveWork.lookup q = some work →
    work = (ledger.filter (Assignment.listedFor q)).map Assignment.entry
  tracked : ∀ x ∈ ledger, x.listed = true → x.peerId ∈ s.peerActiveWork
  counted : ∀ x ∈ ledger, x.piece ∈ s.pieceConcurrencyCounts

variable {torrent : ClientTorrentMetaInfo} {options : PeerOptions}
  {s t : TorrentManagerActor} {ledger : List Assignment}

/-- INTERNAL: a registration empties the work list, and the assignments go on to count.
SOURCE: torrent_manager.rs:116-122 -/
theorem LedgerOf.unlist (h : LedgerOf s ledger) {q : String}
    (howned : ∀ p, Owned t p ↔ Owned s p)
    (hcounts : t.pieceConcurrencyCounts = s.pieceConcurrencyCounts)
    (hwork : t.peerActiveWork = s.peerActiveWork.insert q []) :
    LedgerOf t (ledger.map fun x => if x.peerId = q then { x with listed := false } else x) := by
  refine ⟨?_, ?_, ?_, ?_, ?_⟩
  · intro y hy
    obtain ⟨x, hx, rfl⟩ := List.mem_map.mp hy
    rw [howned]
    have hnot := h.unowned x hx
    split_ifs
    · exact hnot
    · exact hnot
  · intro p count hcount
    rw [hcounts] at hcount
    rw [h.count_eq p count hcount, List.countP_map]
    congr 1
    funext x
    simp only [Function.comp_apply]
    split_ifs
    · rfl
    · rfl
  · intro q' work hwork'
    rw [hwork, HashMap.lookup_insert_eq] at hwork'
    rw [List.filter_map, List.map_map]
    split_ifs at hwork' with hq
    · subst hq
      cases hwork'
      symm
      rw [List.map_eq_nil_iff, List.filter_eq_nil_iff]
      intro x _
      simp only [Function.comp_apply, Assignment.listedFor]
      split_ifs with hpeer
      · simp
      · simp [hpeer]
    · rw [h.work_eq q' work hwork']
      have hfilter : (ledger.filter (Assignment.listedFor q' ∘ fun x =>
          if x.peerId = q then { x with listed := false } else x)) =
          ledger.filter (Assignment.listedFor q') := by
        apply List.filter_congr
        intro x _
        simp only [Function.comp_apply, Assignment.listedFor]
        split_ifs with hpeer
        · simp [hpeer, Ne.symm hq]
        · rfl
      rw [hfilter]
      apply List.map_congr_left
      intro x _
      simp only [Function.comp_apply]
      split_ifs
      · rfl
      · rfl
  · intro y hy hlisted
    obtain ⟨x, hx, rfl⟩ := List.mem_map.mp hy
    rw [hwork, Finmap.mem_insert]
    split_ifs at hlisted ⊢ with hpeer
    exact Or.inr (h.tracked x hx hlisted)
  · intro y hy
    obtain ⟨x, hx, rfl⟩ := List.mem_map.mp hy
    rw [hcounts]
    have hmem := h.counted x hx
    split_ifs
    · exact hmem
    · exact hmem

/-- INTERNAL: an assignment joins the ledger, the count and the work list.
SOURCE: torrent_manager.rs:207-223 -/
theorem LedgerOf.assign (h : LedgerOf s ledger) {q : String} {p c count : ℕ} {now : Instant}
    {work : List (ℕ × Instant)} (hnot : ¬ Owned s p) (howned : ∀ p, Owned t p ↔ Owned s p)
    (hcount : s.pieceConcurrencyCounts.lookup p = some count)
    (hwork : s.peerActiveWork.lookup q = some work)
    (hcounts : t.pieceConcurrencyCounts = s.pieceConcurrencyCounts.insert p (count + 1))
    (hlists : t.peerActiveWork = s.peerActiveWork.insert q (work ++ [(p, now)])) :
    LedgerOf t (ledger ++ [⟨c, q, p, now, true⟩]) := by
  refine ⟨?_, ?_, ?_, ?_, ?_⟩
  · intro x hx
    rw [howned]
    rcases List.mem_append.mp hx with hx | hx
    · exact h.unowned x hx
    · rw [List.mem_singleton.mp hx]
      exact hnot
  · intro p' count' hcount'
    rw [hcounts, HashMap.lookup_insert_eq] at hcount'
    rw [List.countP_append, List.countP_singleton]
    split_ifs at hcount' with hp
    · subst hp
      cases hcount'
      rw [h.count_eq p' count hcount, if_pos (by simp)]
    · rw [h.count_eq p' count' hcount', if_neg (by simpa using Ne.symm hp)]
      rfl
  · intro q' work' hwork'
    rw [hlists, HashMap.lookup_insert_eq] at hwork'
    rw [List.filter_append, List.map_append]
    split_ifs at hwork' with hq
    · subst hq
      cases hwork'
      rw [h.work_eq q' work hwork]
      simp [Assignment.listedFor, Assignment.entry]
    · rw [h.work_eq q' work' hwork']
      simp [Assignment.listedFor, Ne.symm hq]
  · intro x hx hlisted
    rw [hlists, Finmap.mem_insert]
    rcases List.mem_append.mp hx with hx | hx
    · exact Or.inr (h.tracked x hx hlisted)
    · rw [List.mem_singleton.mp hx]
      exact Or.inl rfl
  · intro x hx
    rw [hcounts, Finmap.mem_insert]
    rcases List.mem_append.mp hx with hx | hx
    · exact Or.inr (h.counted x hx)
    · rw [List.mem_singleton.mp hx]
      exact Or.inl rfl

/-- INTERNAL: entries of one work list that are given back leave the ledger and the counts. -/
theorem LedgerOf.release (h : LedgerOf s ledger) {q : String} {late : ℕ × Instant → Bool}
    {work : List (ℕ × Instant)} (hwork : s.peerActiveWork.lookup q = some work)
    (howned : ∀ p, Owned t p ↔ Owned s p)
    (hcounts : t.pieceConcurrencyCounts =
      ((work.filter late).map Prod.fst).foldl releaseCount s.pieceConcurrencyCounts)
    (hlists : t.peerActiveWork = s.peerActiveWork.insert q (work.filter fun w => !late w)) :
    LedgerOf t (ledger.filter fun x => !(x.listedFor q && late x.entry)) := by
  have hlist := h.work_eq q work hwork
  refine ⟨?_, ?_, ?_, ?_, ?_⟩
  · intro x hx
    rw [howned]
    exact h.unowned x (List.mem_filter.mp hx).1
  · intro p count' hcount'
    rw [hcounts, lookup_foldl_releaseCount, Option.map_eq_some_iff] at hcount'
    obtain ⟨count, hcount, rfl⟩ := hcount'
    -- the entries that are given back are the assignments that leave the ledger
    have hreleased : ((work.filter late).map Prod.fst).count p =
        (ledger.filter fun x => x.listedFor q && late x.entry).countP fun x => x.piece == p := by
      rw [hlist, List.filter_map, List.map_map, List.count,
        List.countP_map, List.filter_filter]
      congr 1
      apply List.filter_congr
      intro x _
      rw [Function.comp_apply, Bool.and_comm]
    have hsplit := List.countP_eq_countP_filter_add ledger (fun x => x.piece == p)
      (fun x => x.listedFor q && late x.entry)
    rw [← hreleased, ← h.count_eq p count hcount] at hsplit
    rw [hsplit, Nat.add_sub_cancel_left]
  · intro q' work' hwork'
    rw [hlists, HashMap.lookup_insert_eq] at hwork'
    rw [List.filter_filter]
    split_ifs at hwork' with hq
    · subst hq
      cases hwork'
      rw [hlist, List.filter_map, List.filter_filter]
      congr 1
      apply List.filter_congr
      intro x _
      cases hfor : x.listedFor q' <;> simp
    · rw [h.work_eq q' work' hwork']
      congr 1
      apply List.filter_congr
      intro x _
      simp only [Assignment.listedFor]
      by_cases hpeer : x.peerId = q'
      · simp [hpeer, hq]
      · simp [hpeer]
  · intro x hx hlisted
    rw [hlists, Finmap.mem_insert]
    exact Or.inr (h.tracked x (List.mem_filter.mp hx).1 hlisted)
  · intro x hx
    rw [hcounts, mem_foldl_releaseCount]
    exact h.counted x (List.mem_filter.mp hx).1

theorem keptWork_of_unowned (now : Instant) {work : List (ℕ × Instant)}
    (h : ∀ w ∈ work, ¬ Owned s w.1) : keptWork s now work = work.filter fun w =>
      !timedOut (fromSecs s.peerOptions.pieceRequestTimeout) now w := by
  apply List.filter_congr
  intro w hw
  rw [eq_false_of_ne_true (h w hw), Bool.not_false, Bool.true_and]

theorem releasedPieces_of_unowned (now : Instant) {work : List (ℕ × Instant)}
    (h : ∀ w ∈ work, ¬ Owned s w.1) : releasedPieces s now work =
      (work.filter (timedOut (fromSecs s.peerOptions.pieceRequestTimeout) now)).map Prod.fst := by
  unfold releasedPieces givenBack
  congr 1
  apply List.filter_congr
  intro w hw
  rw [eq_false_of_ne_true (h w hw), Bool.not_false, Bool.true_and]

/-- INTERNAL: a time-out query gives back what is late. All entries are for wanted pieces.
SOURCE: torrent_manager.rs:281-312 -/
theorem LedgerOf.expire (h : LedgerOf s ledger) {q : String} {now : Instant}
    {work : List (ℕ × Instant)} (hwork : s.peerActiveWork.lookup q = some work)
    (howned : ∀ p, Owned t p ↔ Owned s p)
    (hcounts : t.pieceConcurrencyCounts =
      (releasedPieces s now work).foldl releaseCount s.pieceConcurrencyCounts)
    (hlists : t.peerActiveWork = s.peerActiveWork.insert q (keptWork s now work)) :
    LedgerOf t (ledger.filter fun x => !(x.listedFor q &&
      timedOut (fromSecs s.peerOptions.pieceRequestTimeout) now x.entry)) := by
  have hwanted : ∀ w ∈ work, ¬ Owned s w.1 := by
    rw [h.work_eq q work hwork, List.forall_mem_map]
    exact fun x hx => h.unowned x (List.mem_filter.mp hx).1
  rw [releasedPieces_of_unowned now hwanted] at hcounts
  rw [keptWork_of_unowned now hwanted] at hlists
  exact h.release hwork howned hcounts hlists

/-- INTERNAL: a finished piece leaves the ledger, its count and all work lists.
SOURCE: torrent_manager.rs:238-263 -/
theorem LedgerOf.finish (h : LedgerOf s ledger) {p : ℕ} (hlt : p < s.localBitfield.length)
    (stats : TorrentStats) (log : List ℕ) (notifier : ℕ) :
    LedgerOf (claim s p stats log notifier) (ledger.filter fun x => x.piece != p) := by
  refine ⟨?_, ?_, ?_, ?_, ?_⟩
  · intro x hx
    rw [owned_claim hlt, not_or]
    obtain ⟨hx, hne⟩ := List.mem_filter.mp hx
    exact ⟨by simpa using hne, h.unowned x hx⟩
  · intro p' count hcount
    change (s.pieceConcurrencyCounts.erase p).lookup p' = some count at hcount
    rw [HashMap.lookup_erase_eq] at hcount
    split_ifs at hcount with hp
    rw [h.count_eq p' count hcount, List.countP_filter]
    congr 1
    funext x
    by_cases hx : x.piece = p'
    · simp [hx, hp]
    · simp [hx]
  · intro q work hwork
    change (retainWork (retainWork s.peerActiveWork p) p).lookup q = some work at hwork
    rw [lookup_retainWork, lookup_retainWork, Option.map_map, Option.map_eq_some_iff] at hwork
    obtain ⟨old, hold, rfl⟩ := hwork
    simp only [Function.comp_apply, List.filter_filter, Bool.and_self]
    rw [h.work_eq q old hold, List.filter_map, List.filter_filter]
    congr 1
    apply List.filter_congr
    intro x _
    exact Bool.and_comm ..
  · intro x hx hlisted
    exact mem_retainWork.mpr (mem_retainWork.mpr
      (h.tracked x (List.mem_filter.mp hx).1 hlisted))
  · intro x hx
    obtain ⟨hx, hne⟩ := List.mem_filter.mp hx
    exact Finmap.mem_erase.mpr ⟨by simpa using hne, h.counted x hx⟩

theorem LedgerOf.congr (h : LedgerOf s ledger) (howned : ∀ p, Owned t p ↔ Owned s p)
    (hcounts : t.pieceConcurrencyCounts = s.pieceConcurrencyCounts)
    (hwork : t.peerActiveWork = s.peerActiveWork) : LedgerOf t ledger where
  unowned x hx := (howned x.piece).not.mpr (h.unowned x hx)
  count_eq := by
    rw [hcounts]
    exact h.count_eq
  work_eq := by
    rw [hwork]
    exact h.work_eq
  tracked := by
    rw [hwork]
    exact h.tracked
  counted := by
    rw [hcounts]
    exact h.counted

/-- INTERNAL: a message that changes nothing leaves the ledger as it is. -/
theorem LedgerOf.ledgerAfter_unchanged (h : LedgerOf s ledger) {msg : TorrentManagerMessage}
    {r : TorrentManagerReply} (hmsg : ∀ q b, msg ≠ .addPeer q b)
    (hfinish : ∀ q p, msg = .pieceFinish q p → Owned s p)
    (hr : ∀ m, r ≠ .work (some m))
    (huntracked : ∀ q, msg = .updateAndGetActiveRequestCount q → q ∉ s.peerActiveWork)
    (timeout c : ℕ) (env : Env) : ledgerAfter timeout c env r ledger msg = ledger := by
  cases msg with
  | addPeer q b => exact absurd rfl (hmsg q b)
  | requestWork q =>
    unfold ledgerAfter
    dsimp only
    split
    · next mgr => exact absurd rfl (hr mgr)
    · rfl
  | updateAndGetActiveRequestCount q =>
    apply List.filter_eq_self.mpr
    intro x hx
    have hnot : x.listedFor q = false := by
      apply eq_false_of_ne_true
      intro hfor
      obtain ⟨hlisted, hpeer⟩ := Bool.and_eq_true_iff.mp hfor
      apply huntracked q rfl
      rw [← eq_of_beq hpeer]
      exact h.tracked x hx hlisted
    rw [hnot, Bool.false_and, Bool.not_false]
  | pieceFinish q p =>
    apply List.filter_eq_self.mpr
    intro x hx
    rw [bne_iff_ne]
    rintro rfl
    exact h.unowned x hx (hfinish q _ rfl)
  | _ => rfl

/-- INTERNAL: every message keeps the ledger and the books of the manager in step.
SOURCE: torrent_manager.rs:113-364 -/
theorem ledgerOf_step (hs : ManagerInv torrent options s) (h : LedgerOf s ledger)
    {msg : TorrentManagerMessage} {env : Env} {r : TorrentManagerReply}
    (hstep : managerStep s (msg, env) = some (t, r)) (c : ℕ) :
    LedgerOf t (ledgerAfter (fromSecs s.peerOptions.pieceRequestTimeout) c env r ledger msg) := by
  cases managerEffect hstep with
  | registered => exact h.unlist (fun _ => Iff.rfl) rfl rfl
  | announced | had => exact h.congr (fun _ => Iff.rfl) rfl rfl
  | @assigned q b p count work m hb hfind hcount hwork hm =>
    have hsel := selectable_iff.mp (List.find?_some hfind)
    change LedgerOf _ (ledger ++ [⟨c, q, m.index, env.now, true⟩])
    rw [(hs.managesPiece hm).index_eq]
    exact h.assign (ne_true_of_eq_false hsel.unowned) (fun _ => Iff.rfl) hcount hwork rfl rfl
  | expired hwork => exact h.expire hwork (fun _ => Iff.rfl) rfl rfl
  | finished hlt => exact h.finish hlt _ _ _
  | unchanged hmsg hfinish hr huntracked =>
    rw [h.ledgerAfter_unchanged (fun q b => (hmsg q b 0).1) hfinish hr huntracked]
    exact h

/-! ## The connections and the ledger -/

/-- What holds of the manager, the connections and the ledger in every state. -/
structure AuditInv (torrent : ClientTorrentMetaInfo) (options : PeerOptions) (a : Audited) :
    Prop where
  manager : ManagerInv torrent options a.swarm.manager
  books : WorkBook a.swarm.manager
  ledger : LedgerOf a.swarm.manager a.ledger
  known : ∀ x ∈ a.ledger, x.connection < a.swarm.connections.length

/-- No assignment that counts was made to a connection that has ended. -/
def AllOpen (a : Audited) : Prop := ∀ x ∈ a.ledger, a.hasEnded x.connection = false

variable {a b : Audited}

theorem auditedStep_eq_some {e : SwarmEvent} {r : TorrentManagerReply}
    (h : auditedStep a e = some (b, r)) :
    SwarmMove a.swarm b.swarm r e ∧ b.ledger = a.ledgerNext e r := by
  obtain ⟨⟨s, reply⟩, hs, heq⟩ := Option.map_eq_some_iff.mp h
  cases heq
  exact ⟨swarmMove hs, rfl⟩

/-- INTERNAL: an assignment in the ledger was there before, or it was just made to the connection
that asks. -/
theorem connection_of_mem_ledgerAfter {timeout c : ℕ} {env : Env} {r : TorrentManagerReply}
    {msg : TorrentManagerMessage} {x : Assignment}
    (h : x ∈ ledgerAfter timeout c env r ledger msg) :
    (∃ y ∈ ledger, y.connection = x.connection) ∨ x.connection = c := by
  cases msg with
  | addPeer q b =>
    obtain ⟨y, hy, rfl⟩ := List.mem_map.mp h
    refine Or.inl ⟨y, hy, ?_⟩
    split_ifs
    · rfl
    · rfl
  | requestWork q =>
    unfold ledgerAfter at h
    dsimp only at h
    split at h
    · rcases List.mem_append.mp h with h | h
      · exact Or.inl ⟨x, h, rfl⟩
      · rw [List.mem_singleton.mp h]
        exact Or.inr rfl
    · exact Or.inl ⟨x, h, rfl⟩
  | updateAndGetActiveRequestCount | pieceFinish =>
    exact Or.inl ⟨x, (List.mem_filter.mp h).1, rfl⟩
  | _ => exact Or.inl ⟨x, h, rfl⟩

/-- INTERNAL: what an event does to the ledger, by the message that the manager handles. -/
theorem ledgerNext_handshake {received : Bytes} {q : String}
    (hq : peerConnectionFromPeerMeta received = some q) (env : Env) (r : TorrentManagerReply) :
    a.ledgerNext (.handshake received env) r =
      ledgerAfter a.timeout a.swarm.connections.length env r a.ledger (.addPeer q []) := by
  unfold Audited.ledgerNext
  dsimp only
  rw [hq]

theorem ledgerNext_message {c : ℕ} {conn : StateMachine} {msg : TaskMessage}
    (hc : a.swarm.connections[c]? = some conn) (env : Env) (r : TorrentManagerReply) :
    a.ledgerNext (.message c msg env) r =
      ledgerAfter a.timeout c env r a.ledger (msg.toManager conn.peerId) := by
  unfold Audited.ledgerNext
  dsimp only
  rw [hc]

theorem ledgerNext_endsTask {e : SwarmEvent} {c : ℕ} (h : endsTask e = some c)
    (r : TorrentManagerReply) : a.ledgerNext e r = a.ledger := by
  cases e with
  | writerEnds | readerEnds => rfl
  | _ => cases h

theorem ledgerAfter_client (timeout c : ℕ) (env : Env) (r : TorrentManagerReply)
    (msg : ClientMessage) : ledgerAfter timeout c env r ledger msg.toManager = ledger := by
  cases msg <;> rfl

theorem auditInv_step {e : SwarmEvent} {r : TorrentManagerReply}
    (h : AuditInv torrent options a) (hstep : auditedStep a e = some (b, r)) :
    AuditInv torrent options b := by
  obtain ⟨hmove, hledger⟩ := auditedStep_eq_some hstep
  have hknown {c : ℕ} {msg : TorrentManagerMessage} {env : Env}
      (hc : c < b.swarm.connections.length)
      (hle : a.swarm.connections.length ≤ b.swarm.connections.length) :
      ∀ x ∈ ledgerAfter a.timeout c env r a.ledger msg,
        x.connection < b.swarm.connections.length := by
    intro x hx
    rcases connection_of_mem_ledgerAfter hx with ⟨y, hy, heq⟩ | heq
    · rw [← heq]
      exact (h.known y hy).trans_le hle
    · rw [heq]
      exact hc
  cases hmove with
  | @registers received env q hq hmanager hconns =>
    rw [ledgerNext_handshake hq] at hledger
    refine ⟨managerInv_step h.manager hmanager, workBook_step h.books hmanager, ?_, ?_⟩
    · rw [hledger]
      exact ledgerOf_step h.manager h.ledger hmanager _
    · rw [hledger]
      apply hknown
      · simp [hconns]
      · simp [hconns]
  | @sends c msg env conn hc hsends hmanager hconns =>
    rw [ledgerNext_message hc] at hledger
    refine ⟨managerInv_step h.manager hmanager, workBook_step h.books hmanager, ?_, ?_⟩
    · rw [hledger]
      exact ledgerOf_step h.manager h.ledger hmanager _
    · rw [hledger]
      apply hknown
      · rw [hconns]
        exact (List.getElem?_eq_some_iff.mp hc).1
      · rw [hconns]
  | ends he hc hmanager hconns =>
    rw [ledgerNext_endsTask he] at hledger
    refine ⟨?_, ?_, ?_, ?_⟩
    · rw [hmanager]
      exact h.manager
    · rw [hmanager]
      exact h.books
    · rw [hmanager, hledger]
      exact h.ledger
    · rw [hledger, hconns, List.length_set]
      exact h.known
  | @asks msg env hmanager hconns =>
    refine ⟨managerInv_step h.manager hmanager, workBook_step h.books hmanager, ?_, ?_⟩
    · have hstep := ledgerOf_step h.manager h.ledger hmanager 0
      rw [ledgerAfter_client] at hstep
      rw [hledger]
      exact hstep
    · rw [hledger, hconns]
      exact h.known

theorem countP_eq_add_inForce (a : Audited) (now : Instant) (p : ℕ) :
    a.ledger.countP (fun x => x.piece == p) =
      (a.ledger.filter (a.lapsed now)).countP (fun x => x.piece == p) + a.inForce now p := by
  rw [List.countP_eq_countP_filter_add a.ledger _ (a.lapsed now), Nat.add_left_cancel_iff,
    List.countP_filter, Audited.inForce]

/-- INTERNAL: nothing counts that should have expired exactly when everything that counts was made
to open connections. An assignment of a connection that ended lapses when time passes.
SOURCE: torrent_manager.rs:165-173, torrent_manager.rs:281-312 -/
theorem lapsedUncounted_iff (h : AuditInv torrent options a) : LapsedUncounted a ↔ AllOpen a := by
  constructor
  · intro hcounts x hx
    by_contra hended
    obtain ⟨count, hcount⟩ := Finmap.mem_iff.mp (h.ledger.counted x hx)
    have hle := hcounts (x.time + a.timeout + 1) x.piece count hcount
    rw [h.ledger.count_eq x.piece count hcount] at hle
    have hsplit := countP_eq_add_inForce a (x.time + a.timeout + 1) x.piece
    have hlapsed : a.lapsed (x.time + a.timeout + 1) x = true := by
      unfold Audited.lapsed timedOut Assignment.entry Instant.durationSince
      rw [Bool.not_eq_false] at hended
      rw [hended, Bool.true_and, decide_eq_true_eq]
      omega
    have hpos : 0 < (a.ledger.filter (a.lapsed (x.time + a.timeout + 1))).countP
        fun y => y.piece == x.piece :=
      List.countP_pos_iff.mpr ⟨x, List.mem_filter.mpr ⟨hx, hlapsed⟩, by simp⟩
    omega
  · intro hopen now p count hcount
    rw [h.ledger.count_eq p count hcount]
    apply le_of_eq
    apply List.countP_congr
    intro x hx
    unfold Audited.lapsed
    rw [hopen x hx]
    simp

/-- INTERNAL: when everything that counts was made to open connections, a peer gets the one piece
that is left for it, as far as the assignments in force allow.
SOURCE: torrent_manager.rs:146-190 -/
theorem lapsedGiveWay_of_allOpen (h : AuditInv torrent options a) (hopen : AllOpen a) :
    LapsedGiveWay a := by
  intro c conn env p t r hc hholds hnot hunassigned hothers hforce hstep
  -- the piece is eligible for the peer
  have hlt := h.manager.rarity.held_lt conn.peerId p hholds
  obtain ⟨count, hcount⟩ := Finmap.mem_iff.mp ((h.books.count_iff p).mpr ⟨hlt, hnot⟩)
  have hle := ((lapsedUncounted_iff h).mpr hopen) env.now p count hcount
  have heligible : Eligible a.swarm.manager conn.peerId p :=
    ⟨hholds, hnot, ⟨count, hcount, hle.trans hforce⟩, hunassigned⟩
  cases swarmMove hstep with
  | @sends _ _ _ conn' hc' hsends hmanager hconns =>
    rw [hc] at hc'
    cases hc'
    obtain ⟨⟨u, reply⟩, hu, heq⟩ := Option.map_eq_some_iff.mp hmanager
    cases heq
    rcases requestWork_eq_some hu with ⟨rfl, -, hnone⟩ | ⟨b, p', m, hb, hfind, hassign, rfl⟩
    · obtain ⟨b, hb, -⟩ := hholds
      have hmem := mem_bucketsInOrder_of_eligible h.manager.rarity env.order heligible
      have hselectable := (selectable_iff_eligible hb).mpr heligible
      rw [hnone b hb p hmem] at hselectable
      cases hselectable
    · have heligible' := (selectable_iff_eligible hb).mp (List.find?_some hfind)
      have hp : p' = p := by
        by_contra hne
        exact hothers p' hne heligible'
      obtain ⟨count, work, -, -, hm, -⟩ := assign_eq_some_iff.mp hassign
      exact ⟨m, rfl, by rw [(h.manager.managesPiece hm).index_eq, hp]⟩
  | ends he => cases he

theorem assignmentsExpire_iff (h : AuditInv torrent options a) :
    AssignmentsExpire a ↔ AllOpen a := by
  constructor
  · rintro ⟨hcounts, -⟩
    exact (lapsedUncounted_iff h).mp hcounts
  · intro hopen
    exact ⟨(lapsedUncounted_iff h).mpr hopen, lapsedGiveWay_of_allOpen h hopen⟩

theorem hasEnded_of_getElem? {c : ℕ} {conn : StateMachine}
    (h : a.swarm.connections[c]? = some conn) : a.hasEnded c = !conn.isOpen := by
  unfold Audited.hasEnded
  rw [h]

/-- INTERNAL: an event leaves open every connection with an assignment that counts, when it ends
none that has one.
SOURCE: peer_protocol_state_machine.rs:410-436 -/
theorem allOpen_step {e : SwarmEvent} {r : TorrentManagerReply} (h : AuditInv torrent options a)
    (hopen : AllOpen a) (hclean : EndsClean a e) (hstep : auditedStep a e = some (b, r)) :
    AllOpen b := by
  obtain ⟨hmove, hledger⟩ := auditedStep_eq_some hstep
  intro x hx
  rw [hledger] at hx
  cases hmove with
  | @registers received env q hq hmanager hconns =>
    rw [ledgerNext_handshake hq] at hx
    obtain ⟨y, hy, rfl⟩ := List.mem_map.mp hx
    have hsame : (if y.peerId = q then { y with listed := false } else y).connection =
        y.connection := by split_ifs <;> rfl
    rw [hsame]
    have hlt := h.known y hy
    have hold := hopen y hy
    unfold Audited.hasEnded at hold ⊢
    rwa [hconns, List.getElem?_append_left hlt]
  | @sends c msg env conn hc hsends hmanager hconns =>
    rw [ledgerNext_message hc] at hx
    have hcs : b.swarm.connections[c]? = some conn := by rw [hconns, hc]
    rcases connection_of_mem_ledgerAfter hx with ⟨y, hy, heq⟩ | heq
    · have hold := hopen y hy
      unfold Audited.hasEnded at hold ⊢
      rwa [hconns, ← heq]
    · rw [heq, hasEnded_of_getElem? hcs, isOpen_of_sends hsends]
      rfl
  | @ends _ c conn he hc hmanager hconns =>
    rw [ledgerNext_endsTask he] at hx
    have hold := hopen x hx
    by_cases hxc : x.connection = c
    · have hcs : b.swarm.connections[x.connection]? = some (afterEnd e conn) := by
        rw [hconns, hxc, List.getElem?_set_self (List.getElem?_eq_some_iff.mp hc).1]
      rw [hasEnded_of_getElem? hcs]
      -- the other half of the connection goes on, or it would have ended clean
      cases hstill : (afterEnd e conn).isOpen with
      | true => rfl
      | false => exact absurd hxc (hclean c he conn hc hstill x hx)
    · unfold Audited.hasEnded at hold ⊢
      rwa [hconns, List.getElem?_set_ne (Ne.symm hxc)]
  | asks hmanager hconns =>
    have hold := hopen x hx
    unfold Audited.hasEnded at hold ⊢
    rwa [hconns]

theorem endsClean_of_next {e : SwarmEvent}
    (hnext : ∀ b r, auditedStep a e = some (b, r) → AllOpen b) : EndsClean a e := by
  intro c he conn hc hended x hx hxc
  have hstep : auditedStep a e =
      some (⟨⟨a.swarm.manager, a.swarm.connections.set c (afterEnd e conn)⟩, a.ledger⟩, .none) := by
    unfold auditedStep
    rw [swarmStep_ends he hc, Option.map_some]
    dsimp only
    rw [ledgerNext_endsTask he]
  have hopen := hnext _ _ hstep x hx
  rw [hxc, hasEnded_of_getElem? (List.getElem?_set_self (List.getElem?_eq_some_iff.mp hc).1),
    hended] at hopen
  cases hopen

/-! ## Runs -/

theorem auditInv_new {start : Swarm} (h : Swarm.new torrent options = some start) :
    AuditInv torrent options ⟨start, []⟩ := by
  obtain ⟨manager, hmanager, rfl⟩ := Option.map_eq_some_iff.mp h
  refine ⟨managerInv_new hmanager, workBook_new hmanager, ⟨nofun, ?_, ?_, nofun, nofun⟩, nofun⟩
  · exact fun p count hcount => count_of_new hmanager hcount
  · intro q work hwork
    obtain ⟨numOfP, stats, -, rfl⟩ := manager_new_eq_some hmanager
    rw [Finmap.lookup_empty] at hwork
    cases hwork

/-- **Assignments of dead connections expire, exactly when none is left behind.** In all states of
a run of the connections of a torrent and at all times the assignments that were made to
connections which have ended do not count against the cap once the time-out has passed, and a
peer for which only one piece is left gets it whatever they were, if and only if each connection
that ends in the run leaves no assignment that counts.
SOURCE: torrent_manager.rs:165-173, torrent_manager.rs:281-312,
peer_protocol_state_machine.rs:180-210, peer_protocol_state_machine.rs:410-436 -/
theorem expires_iff {start : Swarm} (hstart : Swarm.new torrent options = some start)
    (es : List SwarmEvent) :
    AllStates auditedStep AssignmentsExpire ⟨start, []⟩ es ↔
      AllSteps auditedStep EndsClean ⟨start, []⟩ es := by
  have hnew := auditInv_new hstart
  apply allStates_iff_allSteps (AuditInv torrent options)
    (fun _ _ _ _ h hstep => auditInv_step h hstep) ?_ hnew
  · exact (assignmentsExpire_iff hnew).mpr nofun
  · intro a e h hexpire
    have hopen := (assignmentsExpire_iff h).mp hexpire
    constructor
    · intro hnext
      apply endsClean_of_next
      exact fun b r hstep => (assignmentsExpire_iff (auditInv_step h hstep)).mp (hnext b r hstep)
    · intro hclean b r hstep
      apply (assignmentsExpire_iff (auditInv_step h hstep)).mpr
      exact allOpen_step h hopen hclean hstep

/-- Connection `c` announces the only piece and gets it. -/
def worksOnIt (c : ℕ) : List SwarmEvent :=
  [.handshake (remoteHandshake (sameCharacter (UInt8.ofNat (65 + c)))) .quiet,
    .message c (.addBitfield [true]) .quiet, .message c .requestPiece .quiet]

/-- Six connections work on the piece and end, and a seventh one announces it. -/
def abandonedRun : List SwarmEvent :=
  (List.range 6).flatMap (fun c => worksOnIt c ++ [.writerEnds c, .readerEnds c]) ++
    [.handshake (remoteHandshake (sameCharacter 71)) .quiet,
      .message 6 (.addBitfield [true]) .quiet]

/-- The state after that. -/
def abandonedState : Audited :=
  (run auditedStep ⟨onePieceSwarm, []⟩ abandonedRun).get (by decide +kernel)

/-- An hour after the start. -/
def hourLater : Env := { Env.quiet with now := fromSecs 3600 }

/-- An hour later none of the six assignments is in force, and the seventh connection, which has
the piece and nothing else to do, is answered with no work. -/
theorem abandoned_piece_refused :
    run auditedStep ⟨onePieceSwarm, []⟩ abandonedRun = some abandonedState ∧
      abandonedState.inForce hourLater.now 0 = 0 ∧
      (swarmStep abandonedState.swarm (.message 6 .requestPiece hourLater)).map
        (fun step => match step.2 with | .work none => true | _ => false) = some true ∧
      ¬ AllStates auditedStep AssignmentsExpire ⟨onePieceSwarm, []⟩ abandonedRun := by
  have hrun : run auditedStep ⟨onePieceSwarm, []⟩ abandonedRun = some abandonedState :=
    (Option.some_get _).symm
  have hforce : abandonedState.inForce hourLater.now 0 = 0 := by decide +kernel
  have hrefused : (swarmStep abandonedState.swarm (.message 6 .requestPiece hourLater)).map
      (fun step => match step.2 with | .work none => true | _ => false) = some true := by
    decide +kernel
  refine ⟨hrun, hforce, hrefused, fun hall => ?_⟩
  obtain ⟨-, hgive⟩ := hall.last hrun
  obtain ⟨⟨t, r⟩, hstep, hr⟩ := Option.map_eq_some_iff.mp hrefused
  have hc : abandonedState.swarm.connections[6]? =
      some ⟨fromUtf8Lossy (sameCharacter 71), true, true, true⟩ := by decide +kernel
  have hothers (p : ℕ) (hp : p ≠ 0) :
      ¬ Eligible abandonedState.swarm.manager (fromUtf8Lossy (sameCharacter 71)) p := by
    rintro ⟨⟨b, hb, hbit⟩, -⟩
    have hbits : abandonedState.swarm.manager.peerBitfields.lookup
        (fromUtf8Lossy (sameCharacter 71)) = some [true] := by decide +kernel
    rw [hbits] at hb
    cases hb
    have hlt := Bitfield.lt_length_of_getD hbit
    rw [List.length_singleton] at hlt
    omega
  obtain ⟨mgr, rfl, -⟩ := hgive 6 _ hourLater 0 t r hc (by decide +kernel) (by decide +kernel)
    (by decide +kernel) hothers (by rw [hforce]; exact Nat.zero_le _) hstep
  cases hr

/-- A connection works on the piece, finishes it and ends. -/
def finishedRun : List SwarmEvent :=
  worksOnIt 0 ++ [.message 0 (.pieceFinish 0) .quiet, .readerEnds 0, .writerEnds 0]

/-- It leaves nothing. -/
theorem expires_iff_finished_piece :
    AllStates auditedStep AssignmentsExpire ⟨onePieceSwarm, []⟩ finishedRun :=
  (expires_iff (Option.some_get _).symm finishedRun).mpr (by decide +kernel)

end Fissure.Analysis
