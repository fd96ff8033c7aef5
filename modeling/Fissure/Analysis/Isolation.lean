import Fissure.Analysis.SwarmSteps

/-!
# Connections and the ids they share

The manager files everything it knows about a connection under its peer id, a `String` made from
the bytes of the handshake. What it handles for one id leaves the records of the others alone
(`others_of_managerStep`), so connections with different ids do not disturb each other. But two
connections can have one id, because the remote sides sent the same bytes, or because the bytes
are not valid UTF-8 and the conversion loses what told them apart. Connections are isolated along
exactly those runs in which none opens under the id of one that is open (`isolated_iff`).
-/

set_option autoImplicit false

namespace Fissure.Analysis

open Fissure.Library Fissure.Model
open Fissure.Model.TorrentManagerActor

/-- The connection whose message is handled. -/
def sender : SwarmEvent → Option ℕ
  | .message c _ _ => some c
  | _ => none

/-- The piece that a message reports as finished. -/
def finishedPiece : SwarmEvent → Option ℕ
  | .message _ (.pieceFinish p) _ => some p
  | _ => none

/-- Between two states of the manager the records about peer `q` are the same, except that a
finished piece may be gone from its work list. -/
def LeavesAlone (s t : TorrentManagerActor) (q : String) (finished : Option ℕ) : Prop :=
  t.peerBitfields.lookup q = s.peerBitfields.lookup q ∧
    (t.peerActiveWork.lookup q = s.peerActiveWork.lookup q ∨
      ∃ p ∈ finished, t.peerActiveWork.lookup q =
        (s.peerActiveWork.lookup q).map fun work => work.filter fun w => w.1 != p)

/-- What happens leaves alone the records of all open connections but the sender. -/
def Undisturbed (s : Swarm) (e : SwarmEvent) : Prop :=
  ∀ t r, swarmStep s e = some (t, r) → ∀ c conn, s.connections[c]? = some conn →
    conn.isOpen = true → sender e ≠ some c →
      LeavesAlone s.manager t.manager conn.peerId (finishedPiece e)

/-- Whatever message comes next from a connection, it does not disturb the others. -/
def Isolated (s : Swarm) : Prop := ∀ c msg env, Undisturbed s (.message c msg env)

/-- A connection that opens does not get the id of one that is open. -/
def OpensApart (s : Swarm) : SwarmEvent → Prop
  | .handshake received _ => ∀ q ∈ peerConnectionFromPeerMeta received, ∀ conn ∈ s.connections,
      conn.isOpen = true → conn.peerId ≠ q
  | _ => True

/-- Open connections have different ids. -/
def ApartIds (s : Swarm) : Prop :=
  ∀ (c : ℕ) (conn : StateMachine) (c' : ℕ) (conn' : StateMachine),
    s.connections[c]? = some conn → s.connections[c']? = some conn' →
      conn.isOpen = true → conn'.isOpen = true → c ≠ c' → conn.peerId ≠ conn'.peerId

instance (s : Swarm) : (e : SwarmEvent) → Decidable (OpensApart s e)
  | .handshake received _ =>
    inferInstanceAs (Decidable (∀ q ∈ peerConnectionFromPeerMeta received, _))
  | .message .. | .writerEnds _ | .readerEnds _ | .client .. => isTrue trivial

theorem isOpen_of_sends {conn : StateMachine} {msg : TaskMessage}
    (h : conn.sends msg = true) : conn.isOpen = true := by
  unfold StateMachine.isOpen
  cases msg <;> simp_all [StateMachine.sends]

/-! ## The records of other peers -/

theorem leavesAlone_self (s : TorrentManagerActor) (q : String) (finished : Option ℕ) :
    LeavesAlone s s q finished := ⟨rfl, Or.inl rfl⟩

/-- INTERNAL: a message from one peer leaves the records of the others alone.
SOURCE: torrent_manager.rs:113-364 -/
theorem others_of_managerStep {s t : TorrentManagerActor} {msg : TorrentManagerMessage}
    {env : Env} {r : TorrentManagerReply} (h : managerStep s (msg, env) = some (t, r))
    {q : String} (hq : speaker msg ≠ some q) {finished : Option ℕ}
    (hfinished : ∀ q' p, msg = .pieceFinish q' p → p ∈ finished) :
    LeavesAlone s t q finished := by
  cases managerEffect h with
  | @registered q' =>
    have hne : q ≠ q' := fun heq => hq (congrArg some heq.symm)
    exact ⟨Finmap.lookup_insert_of_ne _ hne, Or.inl (Finmap.lookup_insert_of_ne _ hne)⟩
  | @announced q' | @had q' =>
    have hne : q ≠ q' := fun heq => hq (congrArg some heq.symm)
    exact ⟨Finmap.lookup_insert_of_ne _ hne, Or.inl rfl⟩
  | @assigned q' | @expired q' =>
    have hne : q ≠ q' := fun heq => hq (congrArg some heq.symm)
    exact ⟨rfl, Or.inl (Finmap.lookup_insert_of_ne _ hne)⟩
  | @finished q' p =>
    refine ⟨rfl, Or.inr ⟨p, hfinished q' p rfl, ?_⟩⟩
    change (retainWork (retainWork s.peerActiveWork p) p).lookup q = _
    rw [lookup_retainWork, lookup_retainWork, Option.map_map]
    congr 1
    funext work
    simp
  | unchanged => exact leavesAlone_self s q finished

/-- INTERNAL: a task speaks for its own connection only. -/
theorem speaker_toManager (q : String) (msg : TaskMessage) :
    ∀ q' ∈ speaker (msg.toManager q), q' = q := by
  intro q' hq'
  cases msg with
  | getHaveMessageProgress | getPieceManager => cases hq'
  | _ =>
    cases hq'
    rfl

theorem isolated_of_apartIds {s : Swarm} (hs : ApartIds s) : Isolated s := by
  intro c msg env t r h c' conn' hc' hopen hsender
  cases swarmMove h with
  | @sends _ _ _ conn hc hsends hstep =>
    have hne : c' ≠ c := fun heq => hsender (congrArg some heq.symm)
    have hid := hs c' conn' c conn hc' hc hopen (isOpen_of_sends hsends) hne
    apply others_of_managerStep hstep
    · exact fun hq => hid (speaker_toManager _ _ _ hq)
    · intro q p heq
      cases msg <;> cases heq
      rfl
  | ends he => cases he

/-- INTERNAL: nothing that happens disturbs an open connection, when the open connections have
different ids and one that opens has yet another one.
SOURCE: torrent_manager.rs:116-122, torrent_manager.rs:229-237 -/
theorem undisturbed_of_apartIds {s : Swarm} {e : SwarmEvent} (hs : ApartIds s)
    (he : OpensApart s e) : Undisturbed s e := by
  intro t r h c conn hc hopen hsender
  cases swarmMove h with
  | registers hq hstep =>
    apply others_of_managerStep hstep
    · exact fun heq => he _ hq conn (List.mem_of_getElem? hc) hopen (Option.some.inj heq).symm
    · exact nofun
  | sends hc' hsends hstep => exact isolated_of_apartIds hs _ _ _ t r h c conn hc hopen hsender
  | ends he hc' hmanager =>
    rw [hmanager]
    exact leavesAlone_self _ _ _
  | @asks msg env hstep =>
    apply others_of_managerStep hstep
    · cases msg <;> exact nofun
    · intro q p heq
      cases msg <;> cases heq

theorem apartIds_step {s t : Swarm} {e : SwarmEvent} {r : TorrentManagerReply} (hs : ApartIds s)
    (he : OpensApart s e) (h : swarmStep s e = some (t, r)) : ApartIds t := by
  intro c conn c' conn' hc hc' hopen hopen' hne
  rcases connection_of_swarmStep h hc with ⟨old, hold, hid, hwas⟩ |
    ⟨received, env, q, rfl, hq, hlast, rfl⟩
  · rcases connection_of_swarmStep h hc' with ⟨old', hold', hid', hwas'⟩ |
      ⟨received, env, q, rfl, hq, hlast', rfl⟩
    · rw [← hid, ← hid']
      exact hs c old c' old' hold hold' (hwas hopen) (hwas' hopen') hne
    · rw [← hid]
      exact he q hq old (List.mem_of_getElem? hold) (hwas hopen)
  · rcases connection_of_swarmStep h hc' with ⟨old', hold', hid', hwas'⟩ |
      ⟨received', env', q', heq, hq', hlast', rfl⟩
    · rw [← hid']
      exact (he q hq old' (List.mem_of_getElem? hold') (hwas' hopen')).symm
    · exact absurd (hlast.trans hlast'.symm) hne

/-! ## A connection that takes an id -/

/-- The state once a connection has opened under the id `q`. -/
def opened (s : Swarm) (q : String) : Swarm where
  manager := { s.manager with
    peerBitfields := s.manager.peerBitfields.insert q []
    peerActiveWork := s.manager.peerActiveWork.insert q [] }
  connections := s.connections ++ [⟨q, true, true, true⟩]

/-- INTERNAL: every handshake with a peer id opens a connection.
SOURCE: peer_protocol_state_machine.rs:151-166, torrent_manager.rs:116-122 -/
theorem swarmStep_handshake (s : Swarm) {received : Bytes} (env : Env) {q : String}
    (hq : peerConnectionFromPeerMeta received = some q) :
    swarmStep s (.handshake received env) =
      some (opened s q, .bitfield s.manager.localBitfield) := by
  have hadd : managerStep s.manager (.addPeer q [], env) =
      some ((opened s q).manager, .bitfield s.manager.localBitfield) := rfl
  change s.handshake received env = _
  unfold Swarm.handshake Swarm.handle
  rw [hq, Option.bind_eq_bind, Option.bind_some, hadd]
  rfl

/-- INTERNAL: the new connection can send a `Bitfield`, which is recorded.
SOURCE: torrent_manager.rs:229-232 -/
theorem swarmStep_first_bitfield (s : Swarm) (q : String) (env : Env) :
    ∃ t r, swarmStep (opened s q)
        (.message s.connections.length (.addBitfield [false]) env) = some (t, r) ∧
      t.manager.peerBitfields.lookup q = some [false] := by
  have hlast : (opened s q).connections[s.connections.length]? = some ⟨q, true, true, true⟩ :=
    List.getElem?_concat_length
  let manager := { (opened s q).manager with
    peerBitfields := (opened s q).manager.peerBitfields.insert q [false] }
  have hadd : managerStep (opened s q).manager (.addBitFeild q [false], env) =
      some (manager, .none) := rfl
  exact ⟨⟨manager, _⟩, .none, swarmStep_message hlast rfl hadd, Finmap.lookup_insert _⟩

/-- INTERNAL: after a connection opened under the id of an open one, its first `Bitfield` would
replace what is recorded for the other one.
SOURCE: torrent_manager.rs:116-122, torrent_manager.rs:229-232 -/
theorem opensApart_of_isolated {s : Swarm} {e : SwarmEvent}
    (hnext : ∀ t r, swarmStep s e = some (t, r) → Isolated t) : OpensApart s e := by
  cases e with
  | handshake received env =>
    intro q hq conn hconn hopen hid
    obtain ⟨c, hc⟩ := List.mem_iff_getElem?.mp hconn
    have hlt := (List.getElem?_eq_some_iff.mp hc).1
    have hc' : (opened s q).connections[c]? = some conn := by
      unfold opened
      rw [List.getElem?_append_left hlt, hc]
    obtain ⟨t, r, hstep, hreplaced⟩ := swarmStep_first_bitfield s q env
    have hsender : some s.connections.length ≠ some c := fun heq => by cases heq; omega
    have hisolated := hnext _ _ (swarmStep_handshake s env hq)
    have hsame := (hisolated _ _ env t r hstep c conn hc' hopen hsender).1
    rw [hid, hreplaced] at hsame
    rw [show (opened s q).manager.peerBitfields.lookup q = some [] from
      Finmap.lookup_insert _] at hsame
    cases hsame
  | _ => trivial

/-! ## Runs -/

variable {torrent : ClientTorrentMetaInfo} {options : PeerOptions}

theorem apartIds_new {s : Swarm} (h : Swarm.new torrent options = some s) : ApartIds s := by
  obtain ⟨manager, -, rfl⟩ := Option.map_eq_some_iff.mp h
  intro c conn c' conn' hc
  cases hc

/-- **Isolation, exactly between different ids.** In a run of the connections of a torrent no step
of one connection changes the bitfield or the work list that is recorded for another one while it
is open, finished pieces apart, and no message that could come next would, if and only if no
connection opens under the id of one that is open.
SOURCE: peer_handshake.rs:102-113, torrent_manager.rs:116-122, torrent_manager.rs:229-237,
peer_protocol_state_machine.rs:163-165 -/
theorem isolated_iff {start : Swarm} (hstart : Swarm.new torrent options = some start)
    (es : List SwarmEvent) :
    (AllSteps swarmStep Undisturbed start es ∧ AllStates swarmStep Isolated start es) ↔
      AllSteps swarmStep OpensApart start es := by
  constructor
  · rintro ⟨-, hstates⟩
    exact allSteps_of_allStates (fun _ _ hnext => opensApart_of_isolated hnext) hstates
  · intro hes
    have hnew := apartIds_new hstart
    constructor
    · exact allSteps_of_invariant ApartIds (fun _ _ _ _ hs he h => apartIds_step hs he h)
        (fun _ _ hs he => undisturbed_of_apartIds hs he) hnew hes
    · exact allStates_of_invariant ApartIds (fun _ _ _ _ hs he h => apartIds_step hs he h)
        (fun _ hs => isolated_of_apartIds hs) hnew hes

/-- What a remote side with the peer id `peerId` sends first. -/
def remoteHandshake (peerId : Bytes) : Bytes :=
  19 :: "BitTorrent protocol".toList.map (fun c => UInt8.ofNat c.toNat) ++
    List.replicate 8 0 ++ List.replicate 20 0 ++ peerId

/-- The manager of a torrent of one piece, without connections. -/
def onePieceSwarm : Swarm :=
  (Swarm.new (byteTorrent 1 (List.replicate 20 0)) {}).get (by decide +kernel)

/-- A connection announces the piece and gets it. -/
def busyConnection (peerId : Bytes) : List SwarmEvent :=
  [.handshake (remoteHandshake peerId) .quiet, .message 0 (.addBitfield [true]) .quiet,
    .message 0 .requestPiece .quiet]

/-- The state after that, for a peer id that is not UTF-8. -/
def busySwarm : Swarm :=
  (run swarmStep onePieceSwarm (busyConnection (List.replicate 20 0xFF))).get (by decide +kernel)

/-- Another connection with another peer id that is not UTF-8 wipes out what is recorded for
it. -/
theorem lossy_ids_collide :
    run swarmStep onePieceSwarm (busyConnection (List.replicate 20 0xFF)) = some busySwarm ∧
      ¬ AllSteps swarmStep Undisturbed onePieceSwarm (busyConnection (List.replicate 20 0xFF) ++
        [.handshake (remoteHandshake (List.replicate 20 0xFE)) .quiet]) := by
  have hrun : run swarmStep onePieceSwarm (busyConnection (List.replicate 20 0xFF)) =
      some busySwarm := (Option.some_get _).symm
  refine ⟨hrun, fun hall => ?_⟩
  have hq : peerConnectionFromPeerMeta (remoteHandshake (List.replicate 20 0xFE)) =
      some (fromUtf8Lossy (List.replicate 20 0xFF)) := by decide +kernel
  have hconn : busySwarm.connections[0]? =
      some ⟨fromUtf8Lossy (List.replicate 20 0xFF), true, true, true⟩ := by decide +kernel
  have hstep := hall.at_split hrun _ _ (swarmStep_handshake busySwarm .quiet hq) 0 _ hconn rfl nofun
  have hbitfield : busySwarm.manager.peerBitfields.lookup
      (fromUtf8Lossy (List.replicate 20 0xFF)) = some [true] := by decide +kernel
  have hwiped := hstep.1.symm.trans (Finmap.lookup_insert busySwarm.manager.peerBitfields)
  rw [hbitfield] at hwiped
  cases hwiped

/-- The peer id of twenty times the same character. -/
def sameCharacter (c : UInt8) : Bytes := List.replicate 20 c

/-- Two connections with different ids. -/
theorem isolated_iff_two_ids :
    AllSteps swarmStep Undisturbed onePieceSwarm (busyConnection (sameCharacter 65) ++
        [.handshake (remoteHandshake (sameCharacter 66)) .quiet]) ∧
      AllStates swarmStep Isolated onePieceSwarm (busyConnection (sameCharacter 65) ++
        [.handshake (remoteHandshake (sameCharacter 66)) .quiet]) :=
  (isolated_iff (Option.some_get _).symm _).mpr (by decide +kernel)

end Fissure.Analysis
