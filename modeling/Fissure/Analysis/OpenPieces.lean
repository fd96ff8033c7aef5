import Fissure.Analysis.Settling

/-!
# A seed gets work

`Ready` says that the download can go on: the disk actor runs, every active piece has a live actor,
and no count of a piece that nobody is busy with exceeds the cap. When a peer with all pieces
connects to such a system, and some piece is not owned, the manager assigns it a piece, and the
writer goes on to track it (`opens`).
-/

set_option autoImplicit false

namespace Fissure.Analysis

open Fissure.Library Fissure.Model
open Fissure.Model.TorrentSystem

variable {sha1 : Bytes → Bytes} {torrent : ClientTorrentMetaInfo} {options : PeerOptions}
  {busy : Set ℕ} {s t : TorrentSystem}

/-- No piece actor of an active piece is gone. -/
def Alive (s : TorrentSystem) : Prop :=
  ∀ p mgr, s.manager.activePiecesManager.lookup p = some mgr → ∃ a, s.pieceActor mgr.send = some a

/-- No count exceeds the cap, except of the pieces in `busy`. -/
def Roomy (options : PeerOptions) (busy : Set ℕ) (s : TorrentManagerActor) : Prop :=
  ∀ p count, p ∉ busy → s.pieceConcurrencyCounts.lookup p = some count →
    count ≤ options.perPieceActivePeerCount

/-- The download can go on. -/
structure Ready (sha1 : Bytes → Bytes) (torrent : ClientTorrentMetaInfo) (options : PeerOptions)
    (busy : Set ℕ) (s : TorrentSystem) : Prop where
  sound : SoundInv sha1 torrent options s
  runs : s.diskEnded = false
  alive : Alive s
  roomy : Roomy options busy s.manager

theorem Ready.movesOn (h : Ready sha1 torrent options busy s) (hmoves : MovesOn s t)
    (ht : SoundInv sha1 torrent options t) : Ready sha1 torrent options busy t where
  sound := ht
  runs := hmoves.diskEnded.trans h.runs
  alive p mgr hmgr := by
    unfold TorrentSystem.pieceActor
    rw [hmoves.pieceActors]
    exact h.alive p mgr (hmoves.active p mgr hmgr)
  roomy p count hp hcount := h.roomy p count hp (hmoves.counts p count hcount)

/-- INTERNAL: a piece that is owned has no count. -/
theorem Ready.of_owned {q : ℕ} (h : Ready sha1 torrent options {q} s) (hq : Owned s.manager q) :
    Ready sha1 torrent options ∅ s where
  sound := h.sound
  runs := h.runs
  alive := h.alive
  roomy p count _ hcount := by
    refine h.roomy p count ?_ hcount
    rintro rfl
    have hmem := Finmap.mem_of_lookup_eq_some hcount
    exact ((h.sound.book.count_iff p).mp hmem).2 hq

/-- INTERNAL: a manager that becomes active has a live actor.
SOURCE: torrent_manager.rs:197-206, piece_manager.rs:252-262 -/
theorem alive_handle {owner : ℕ → ℕ} (hchannels : Channels owner s) (h : Alive s)
    {msg : TorrentManagerMessage} {env : Env} {reply : TorrentManagerReply}
    (hmsg : finishes msg = none) (ht : s.handle msg env = some (t, reply)) : Alive t := by
  intro p mgr hmgr
  rcases active_handle hmsg ht hmgr with hactive | ⟨timeout, hactor⟩
  · obtain ⟨a, ha⟩ := h p mgr hactive
    obtain ⟨-, m, -, rfl⟩ := handle_eq_some ht
    exact ⟨a, (pieceActor_of_spawned (hchannels p mgr (.active hactive)).2 reply).trans ha⟩
  · exact ⟨_, hactor⟩

/-! ## A peer with all pieces -/

/-- Connection `c` belongs to a peer that has just connected and has all pieces. -/
structure Seeded (s : TorrentSystem) (c : ℕ) (q : String) : Prop where
  connection : s.connections[c]? = some (.new q)
  holds : ∀ p < s.manager.piecesFrequency.length, Holds s.manager q p
  work : s.manager.peerActiveWork.lookup q = some []

/-- INTERNAL: nothing becomes of the pieces when the manager records a bitfield. -/
theorem movesOn_record (hsettled : NothingPending s) {q : String} {b : Bitfield} {freq : List ℕ}
    {bucket : Fin 256 → Finset ℕ} {work : HashMap String (List (ℕ × Instant))}
    (connections : List Connection) :
    MovesOn s { s with
      manager := record s.manager q b freq bucket work
      connections := connections } := by
  refine ⟨rfl, rfl, fun _ _ h => h, fun _ _ h => h, fun _ h => h, fun _ h => h, fun p hp => ?_⟩
  rw [hsettled.announced] at hp
  cases hp

/-- INTERNAL: a peer may connect whenever nothing is under way.
SOURCE: torrent_manager.rs:116-126 -/
theorem connects (sha1 : Bytes → Bytes) (h : NothingPending s) (q : String) :
    ∃ t, systemStep sha1 s (.connect q .quiet) = some (t, ()) ∧ MovesOn s t ∧ NothingPending t ∧
      t.connections = s.connections ++ [.new q] ∧
      t.manager.peerActiveWork.lookup q = some [] ∧
      t.manager.localBitfield = s.manager.localBitfield ∧
      t.manager.downloadedPieceIndex = s.manager.downloadedPieceIndex := by
  have hstep : systemStep sha1 s (.connect q .quiet) = some ({ s with
      manager := record s.manager q [] s.manager.piecesFrequency s.manager.rarityBucket
        (s.manager.peerActiveWork.insert q [])
      connections := s.connections ++ [.new q] }, ()) := by
    simp only [systemStep, connect, handle, h.finishing]
    rfl
  refine ⟨_, hstep, movesOn_record h _, ⟨h.finishing, ?_⟩, rfl, Finmap.lookup_insert _, rfl, rfl⟩
  have hannounced := h.announced
  unfold announced at hannounced ⊢
  simpa [Connection.new, matchedPiece] using hannounced

/-- INTERNAL: the manager takes the bitfield of a peer that has all pieces.
SOURCE: torrent_manager.rs:229-237 -/
theorem fullBitfield_recorded (sha1 : Bytes → Bytes) (h : NothingPending s) (q : String) {n : ℕ}
    (hn : n = s.manager.piecesFrequency.length) :
    ∃ freq bucket, freq.length = n ∧
      systemStep sha1 s (.recv (.addBitFeild q (List.replicate n true)) .quiet) = some ({ s with
        manager := record s.manager q (List.replicate n true) freq bucket
          s.manager.peerActiveWork }, ()) := by
  have hsome := foldlM_countPiece_isSome (s := s.manager) q
    (l := Bitfield.iterOnes (List.replicate n true)) fun p hp => by
      have hlt := Bitfield.lt_length_of_getD (Bitfield.mem_iterOnes.mp hp)
      rw [List.length_replicate] at hlt
      omega
  obtain ⟨u, hu⟩ := hsome
  have hstep : managerStep s.manager (.addBitFeild q (List.replicate n true),
      { Env.quiet with fresh := s.pieceActors.length }) = some
        ({ u with peerBitfields := u.peerBitfields.insert q (List.replicate n true) }, .none) := by
    simp only [managerStep, TorrentManagerActor.addBitFeild,
      TorrentManagerActor.updateFreqBitfield, hu]
    rfl
  have hrecv (m : TorrentManagerActor) (hm : managerStep s.manager
      (.addBitFeild q (List.replicate n true), { Env.quiet with fresh := s.pieceActors.length }) =
        some (m, .none)) :
      systemStep sha1 s (.recv (.addBitFeild q (List.replicate n true)) .quiet) =
        some ({ s with manager := m }, ()) := by
    simp only [systemStep, recv, handle, h.finishing, hm]
    rfl
  rw [hrecv _ hstep]
  generalize ({ u with peerBitfields := _ } : TorrentManagerActor) = m at hstep ⊢
  cases managerEffect hstep with
  | announced hcounted => exact ⟨_, _, by rw [hcounted.length_eq, hn], rfl⟩
  | unchanged hmsg => exact absurd rfl (hmsg q (List.replicate n true) 0).2.1

/-- INTERNAL: a peer with all pieces connects. -/
theorem joins (hmeta : torrent.rawTorrent.WellSized)
    (hcount : torrent.rawTorrent.pieceCount ≤ 2 ^ 32)
    (h : Ready sha1 torrent options busy s) (hsettled : NothingPending s) (q : String) :
    ∃ t c, Leads (systemStep sha1) (fun _ e => Calm e) s t ∧
      Ready sha1 torrent options busy t ∧ NothingPending t ∧ Seeded t c q ∧
      t.manager.localBitfield = s.manager.localBitfield ∧
      t.manager.downloadedPieceIndex = s.manager.downloadedPieceIndex := by
  obtain ⟨u, hu, hmoves, husettled, hconns, hwork, hlocal, hlog⟩ := connects sha1 hsettled q
  obtain ⟨freq, bucket, hlength, ht⟩ := fullBitfield_recorded sha1 husettled q rfl
  have hconnect : Calm (.connect q .quiet) := ⟨trivial, trivial⟩
  have hrecv : Calm (.recv (.addBitFeild q
      (List.replicate u.manager.piecesFrequency.length true)) .quiet) := ⟨trivial, trivial⟩
  have hsound := soundInv_step hmeta hcount h.sound hconnect.unharmed hu
  have hsound' := soundInv_step hmeta hcount hsound hrecv.unharmed ht
  refine ⟨_, s.connections.length, .head hconnect hu (leads_of_step hrecv ht),
    (h.movesOn hmoves hsound).movesOn (movesOn_record husettled u.connections) hsound',
    ⟨husettled.finishing, husettled.announced⟩, ⟨?_, ?_, hwork⟩, hlocal, hlog⟩
  · simp [hconns]
  · intro p hp
    refine ⟨_, Finmap.lookup_insert _, ?_⟩
    change p < freq.length at hp
    rw [hlength] at hp
    simp [List.getD_eq_getElem?_getD, hp]

/-! ## Work -/

/-- The idle reader of connection `c` tracks the active piece `p`. -/
structure TracksPiece (s : TorrentSystem) (c p : ℕ) (mgr : PieceRequestManager) : Prop where
  connection : ∃ conn, s.connections[c]? = some conn ∧ conn.reader = .idle ∧
    conn.activeRequests.lookup p = some mgr
  active : s.manager.activePiecesManager.lookup p = some mgr

/-- INTERNAL: the manager assigns a piece to a peer for which some piece is eligible.
SOURCE: torrent_manager.rs:127-228 -/
theorem assigns (hmeta : torrent.rawTorrent.Consistent) {m : TorrentManagerActor}
    (hs : ManagerInv torrent options m) {q : String} {p : ℕ} (hq : q ∈ m.peerActiveWork)
    (heligible : Eligible m q p) (env : Env) :
    ∃ m' mgr, managerStep m (.requestWork q, env) = some (m', .work (some mgr)) := by
  obtain ⟨⟨m', manager⟩, h⟩ := requestWork_isSome hmeta hs hq env
  rcases requestWork_eq_some h with ⟨-, -, hnothing⟩ | ⟨b, index, mgr, -, -, -, rfl⟩
  · -- the search meets the piece
    obtain ⟨b, hb, -⟩ := heligible.held
    have hfalse := hnothing b hb p (mem_bucketsInOrder_of_eligible hs.rarity env.order heligible)
    rw [(selectable_iff_eligible hb).mpr heligible] at hfalse
    cases hfalse
  · refine ⟨m', mgr, ?_⟩
    simp only [managerStep, h, Option.map_some]

/-- INTERNAL: a peer that has just connected is granted a piece.
SOURCE: torrent_manager.rs:127-228, peer_protocol_state_machine.rs:130-134 -/
theorem grants (hmeta : torrent.rawTorrent.Consistent) (h : Ready sha1 torrent options ∅ s)
    (hsettled : NothingPending s) {c p : ℕ} {q : String} (hseed : Seeded s c q)
    (hp : p < torrent.rawTorrent.pieceCount) (hnot : ¬ Owned s.manager p) :
    ∃ t mgr, systemStep sha1 s (.requestPiece c .quiet) = some (t, ()) ∧ NothingPending t ∧
      t.connections[c]? = some { Connection.new q with granted := some mgr } ∧
      t.manager.activePiecesManager.lookup mgr.index = some mgr ∧ t.diskEnded = s.diskEnded ∧
      Alive t ∧ Roomy options {mgr.index} t.manager ∧
      t.manager.downloadedPieceIndex = s.manager.downloadedPieceIndex := by
  have hinv := h.sound.download.system.manager
  obtain ⟨owner, hchannels⟩ := h.sound.channels
  have hlt : p < s.manager.piecesFrequency.length := by
    rw [hinv.length_frequency hmeta.toWellSized]
    exact hp
  have heligible : Eligible s.manager q p := by
    refine ⟨hseed.holds p hlt, hnot, ?_, ?_⟩
    · obtain ⟨count, hcount⟩ := Finmap.mem_iff.mp ((h.sound.book.count_iff p).mpr ⟨hlt, hnot⟩)
      exact ⟨count, hcount, by rw [hinv.options_eq]; exact h.roomy p count (by simp) hcount⟩
    · intro work hwork
      rw [hseed.work, Option.some.injEq] at hwork
      simp [← hwork]
  obtain ⟨m, mgr, hstep⟩ := assigns hmeta hinv (Finmap.mem_of_lookup_eq_some hseed.work) heligible
    { Env.quiet with fresh := s.pieceActors.length }
  have hhandle : s.handle (.requestWork q) .quiet = some ({ s with
      manager := m
      pieceActors := s.spawned (.work (some mgr)) }, .work (some mgr)) := by
    simp only [handle, hsettled.finishing, hstep]
    rfl
  have hrequest : systemStep sha1 s (.requestPiece c .quiet) = some ({ s with
      manager := m
      pieceActors := s.spawned (.work (some mgr)) }.setConnection c
        { Connection.new q with granted := some mgr }, ()) := by
    simp [systemStep, requestPiece, hseed.connection, Connection.new, hhandle]
  have halive := alive_handle hchannels h.alive rfl hhandle
  have hsame : NothingPending { s with
      manager := m
      pieceActors := s.spawned (.work (some mgr)) } :=
    ⟨hsettled.finishing, hsettled.announced⟩
  refine ⟨_, mgr, hrequest, hsame.setConnection c rfl, ?_, ?_⟩
  · have hc := (List.getElem?_eq_some_iff.mp hseed.connection).1
    exact List.getElem?_set_self hc
  · cases managerEffect hstep with
    | unchanged _ _ hr => exact absurd rfl (hr mgr)
    | @assigned _ b p' count work mgr' hb hfind hcount hwork hm =>
      have hindex := (hinv.managesPiece hm).index_eq
      refine ⟨?_, rfl, halive, ?_, rfl⟩
      · rw [hindex]
        exact Finmap.lookup_insert _
      · intro p'' count' hp'' hcount'
        rw [hindex, Set.mem_singleton_iff] at hp''
        have hold : s.manager.pieceConcurrencyCounts.lookup p'' = some count' := by
          rw [← hcount']
          exact (Finmap.lookup_insert_of_ne _ hp'').symm
        exact h.roomy p'' count' (by simp) hold

/-- INTERNAL: a seed that connects gets a piece, and its writer tracks it.
SOURCE: torrent_manager.rs:116-228, peer_protocol_state_machine.rs:130-134 -/
theorem opens (hmeta : torrent.rawTorrent.Consistent)
    (hcount : torrent.rawTorrent.pieceCount ≤ 2 ^ 32)
    (h : Ready sha1 torrent options ∅ s) (hsettled : NothingPending s) {p : ℕ}
    (hp : p < torrent.rawTorrent.pieceCount) (hnot : ¬ Owned s.manager p) :
    ∃ t c p' mgr, Leads (systemStep sha1) (fun _ e => Calm e) s t ∧
      Ready sha1 torrent options {p'} t ∧ NothingPending t ∧ TracksPiece t c p' mgr ∧
      t.manager.downloadedPieceIndex = s.manager.downloadedPieceIndex := by
  have hsized := hmeta.toWellSized
  obtain ⟨u, c, hleads, hready, husettled, hseed, hlocal, hlog⟩ :=
    joins hsized hcount h hsettled "seed"
  have hnot' : ¬ Owned u.manager p := by
    unfold Owned at hnot ⊢
    rwa [hlocal]
  obtain ⟨v, mgr, hv, hvsettled, hc, hactive, hended, halive, hroomy, hlog'⟩ :=
    grants hmeta hready husettled hseed hp hnot'
  have hrequest : Calm (.requestPiece c .quiet) := ⟨trivial, trivial⟩
  have hinsert : Calm (.insertRequest c) := ⟨trivial, trivial⟩
  have hw : systemStep sha1 v (.insertRequest c) = some (v.setConnection c
      { Connection.new "seed" with
        activeRequests := (∅ : HashMap ℕ PieceRequestManager).insert mgr.index mgr }, ()) := by
    simp [systemStep, insertRequest, hc, Connection.new]
  have hsound := soundInv_step hsized hcount hready.sound hrequest.unharmed hv
  have hsound' := soundInv_step hsized hcount hsound hinsert.unharmed hw
  have htracks : TracksPiece (v.setConnection c { Connection.new "seed" with
      activeRequests := (∅ : HashMap ℕ PieceRequestManager).insert mgr.index mgr })
      c mgr.index mgr := by
    have hlt := (List.getElem?_eq_some_iff.mp hc).1
    exact ⟨⟨_, List.getElem?_set_self hlt, rfl, Finmap.lookup_insert _⟩, hactive⟩
  exact ⟨_, c, mgr.index, mgr, hleads.trans (.head hrequest hv (leads_of_step hinsert hw)),
    ⟨hsound', hended.trans hready.runs, halive, hroomy⟩, hvsettled.setConnection c rfl, htracks,
    hlog'.trans hlog⟩

end Fissure.Analysis
