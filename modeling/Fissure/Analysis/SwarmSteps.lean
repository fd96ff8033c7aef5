import Fissure.Analysis.WorkBookkeeping
import Fissure.Model.Swarm

/-!
# What one step of the connections does

`SwarmMove` says for each event what becomes of the manager and of the connections: a connection
registers and is added, a message is handled, or a task ends and the manager does not notice.
-/

set_option autoImplicit false

namespace Fissure.Analysis

open Fissure.Library Fissure.Model

/-- The connection of which a task ends. -/
def endsTask : SwarmEvent → Option ℕ
  | .writerEnds c | .readerEnds c => some c
  | _ => none

/-- The connection after one of its tasks ended, and its watchdog with it. -/
def afterEnd (e : SwarmEvent) (conn : StateMachine) : StateMachine :=
  match e with
  | .writerEnds _ => { conn with writer := false, watchdog := false }
  | .readerEnds _ => { conn with reader := false, watchdog := false }
  | _ => conn

/-- What an event does to the manager and the connections. -/
inductive SwarmMove (s t : Swarm) (r : TorrentManagerReply) : SwarmEvent → Prop
  | registers {received : Bytes} {env : Env} {q : String}
      (hq : peerConnectionFromPeerMeta received = some q)
      (h : managerStep s.manager (.addPeer q [], env) = some (t.manager, r))
      (hconns : t.connections = s.connections ++ [⟨q, true, true, true⟩]) :
      SwarmMove s t r (.handshake received env)
  | sends {c : ℕ} {msg : TaskMessage} {env : Env} {conn : StateMachine}
      (hc : s.connections[c]? = some conn) (hsends : conn.sends msg = true)
      (h : managerStep s.manager (msg.toManager conn.peerId, env) = some (t.manager, r))
      (hconns : t.connections = s.connections) : SwarmMove s t r (.message c msg env)
  | ends {e : SwarmEvent} {c : ℕ} {conn : StateMachine} (he : endsTask e = some c)
      (hc : s.connections[c]? = some conn) (hmanager : t.manager = s.manager)
      (hconns : t.connections = s.connections.set c (afterEnd e conn)) : SwarmMove s t r e
  | asks {msg : ClientMessage} {env : Env}
      (h : managerStep s.manager (msg.toManager, env) = some (t.manager, r))
      (hconns : t.connections = s.connections) : SwarmMove s t r (.client msg env)

variable {s t : Swarm} {r : TorrentManagerReply}

theorem swarm_handle_eq_some {msg : TorrentManagerMessage} {env : Env} :
    s.handle msg env = some (t, r) ↔
      managerStep s.manager (msg, env) = some (t.manager, r) ∧ t.connections = s.connections := by
  unfold Swarm.handle
  rw [Option.map_eq_some_iff]
  constructor
  · rintro ⟨⟨manager, reply⟩, h, heq⟩
    cases heq
    exact ⟨h, rfl⟩
  · rintro ⟨h, hconns⟩
    refine ⟨_, h, ?_⟩
    rw [← hconns]

/-- INTERNAL: everything an event can do.
SOURCE: peer_protocol_state_machine.rs:151-436 -/
theorem swarmMove {e : SwarmEvent} (h : swarmStep s e = some (t, r)) : SwarmMove s t r e := by
  cases e with
  | handshake received env =>
    change s.handshake received env = _ at h
    unfold Swarm.handshake at h
    simp only [Option.bind_eq_bind, Option.bind_eq_some_iff, Option.some.injEq] at h
    obtain ⟨q, hq, ⟨u, reply⟩, hu, heq⟩ := h
    cases heq
    obtain ⟨hstep, hconns⟩ := swarm_handle_eq_some.mp hu
    exact .registers hq hstep (congrArg (· ++ _) hconns)
  | message c msg env =>
    change s.message c msg env = _ at h
    unfold Swarm.message at h
    simp only [Option.bind_eq_bind, Option.bind_eq_some_iff] at h
    obtain ⟨conn, hc, h⟩ := h
    split_ifs at h with hsends
    obtain ⟨hstep, hconns⟩ := swarm_handle_eq_some.mp h
    exact .sends hc hsends hstep hconns
  | writerEnds c =>
    obtain ⟨u, hu, heq⟩ := Option.map_eq_some_iff.mp h
    cases heq
    unfold Swarm.writerEnds at hu
    simp only [Option.bind_eq_bind, Option.bind_eq_some_iff, Option.some.injEq] at hu
    obtain ⟨conn, hc, rfl⟩ := hu
    exact .ends rfl hc rfl rfl
  | readerEnds c =>
    obtain ⟨u, hu, heq⟩ := Option.map_eq_some_iff.mp h
    cases heq
    unfold Swarm.readerEnds at hu
    simp only [Option.bind_eq_bind, Option.bind_eq_some_iff, Option.some.injEq] at hu
    obtain ⟨conn, hc, rfl⟩ := hu
    exact .ends rfl hc rfl rfl
  | client msg env =>
    obtain ⟨hstep, hconns⟩ := swarm_handle_eq_some.mp h
    exact .asks hstep hconns

theorem peerId_afterEnd (e : SwarmEvent) (conn : StateMachine) :
    conn.peerId = (afterEnd e conn).peerId := by
  cases e <;> rfl

theorem isOpen_of_afterEnd {e : SwarmEvent} {conn : StateMachine}
    (h : (afterEnd e conn).isOpen = true) : conn.isOpen = true := by
  unfold StateMachine.isOpen at h ⊢
  cases e with
  | writerEnds c =>
    simp only [afterEnd, Bool.false_or, Bool.or_false] at h
    rw [h, Bool.or_true, Bool.true_or]
  | readerEnds c =>
    simp only [afterEnd, Bool.or_false] at h
    rw [h, Bool.true_or, Bool.true_or]
  | _ => exact h

theorem swarmStep_ends {e : SwarmEvent} {c : ℕ} {conn : StateMachine} (he : endsTask e = some c)
    (hc : s.connections[c]? = some conn) :
    swarmStep s e = some (⟨s.manager, s.connections.set c (afterEnd e conn)⟩, .none) := by
  cases e with
  | writerEnds c' =>
    cases he
    change (s.writerEnds c).map _ = _
    unfold Swarm.writerEnds
    rw [hc]
    rfl
  | readerEnds c' =>
    cases he
    change (s.readerEnds c).map _ = _
    unfold Swarm.readerEnds
    rw [hc]
    rfl
  | _ => cases he

theorem swarmStep_message {c : ℕ} {msg : TaskMessage} {env : Env} {conn : StateMachine}
    {manager : TorrentManagerActor} (hc : s.connections[c]? = some conn)
    (hsends : conn.sends msg = true)
    (h : managerStep s.manager (msg.toManager conn.peerId, env) = some (manager, r)) :
    swarmStep s (.message c msg env) = some (⟨manager, s.connections⟩, r) := by
  change s.message c msg env = _
  unfold Swarm.message
  rw [hc, Option.bind_eq_bind, Option.bind_some, if_pos hsends]
  exact swarm_handle_eq_some.mpr ⟨h, rfl⟩

/-- INTERNAL: a connection keeps its peer id, and it does not open again. -/
theorem connection_of_swarmStep {e : SwarmEvent} (h : swarmStep s e = some (t, r)) {c : ℕ}
    {conn : StateMachine} (hc : t.connections[c]? = some conn) :
    (∃ old, s.connections[c]? = some old ∧ old.peerId = conn.peerId ∧
      (conn.isOpen = true → old.isOpen = true)) ∨
      ∃ received env q, e = .handshake received env ∧
        peerConnectionFromPeerMeta received = some q ∧ c = s.connections.length ∧
        conn = ⟨q, true, true, true⟩ := by
  cases swarmMove h with
  | registers hq hstep hconns =>
    rw [hconns] at hc
    rw [List.getElem?_append] at hc
    split_ifs at hc with hlt
    · exact Or.inl ⟨conn, hc, rfl, id⟩
    · rw [List.getElem?_singleton] at hc
      split_ifs at hc with hlast
      cases hc
      exact Or.inr ⟨_, _, _, rfl, hq, by omega, rfl⟩
  | sends _ _ _ hconns | asks _ hconns =>
    rw [hconns] at hc
    exact Or.inl ⟨conn, hc, rfl, id⟩
  | @ends _ c' old he hc' hmanager hconns =>
    rw [hconns] at hc
    by_cases heq : c' = c
    · subst heq
      rw [List.getElem?_set_self (List.getElem?_eq_some_iff.mp hc').1, Option.some.injEq] at hc
      rw [← hc]
      exact Or.inl ⟨old, hc', peerId_afterEnd e old, isOpen_of_afterEnd⟩
    · rw [List.getElem?_set_ne heq] at hc
      exact Or.inl ⟨conn, hc, rfl, id⟩

end Fissure.Analysis
