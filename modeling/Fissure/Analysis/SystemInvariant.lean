import Fissure.Analysis.ActiveManagers
import Fissure.Analysis.DiskLayout
import Fissure.Analysis.SystemSteps

/-!
# The invariant of the whole system

`SystemInv` follows a piece from the block that completed it to its bytes on disk. As long as the
news that a piece is complete is under way (`announced`), the buffer of its active piece actor
hashes to the digest; while the piece is flushed, the disk carries the first bytes of such a
buffer and the piece actor still has the rest of it (`Flushing`), as long as the disk actor runs.
Every step keeps this (`systemInv_step`) except two (`Unharmed`): that of a block that arrives in
the meantime, of which `SparesVerified` asks that it leaves alone what is `awaited` of the buffer,
and that of a write which fails after its result was given.
-/

set_option autoImplicit false

namespace Fissure.Analysis

open Fissure.Library Fissure.Model Fissure.Interface
open Fissure.Model.TorrentSystem Fissure.Model.DiskManagerActor

/-! ## What is under way -/

/-- The piece whose `PieceFinish` the reader is about to send. -/
def matchedPiece : Reader → Option ℕ
  | .hashMatched pieceIndex _ => some pieceIndex
  | _ => none

/-- The pieces whose `PieceFinish` is about to be sent or waits in the manager's channel. -/
def announced (s : TorrentSystem) : List ℕ :=
  s.connections.filterMap (fun conn => matchedPiece conn.reader) ++ s.pieceFinishes.map Prod.snd

/-- How many bytes of its piece a flush has taken. -/
def jobDone (job : FlushJob) : ℕ := job.pieceManager.pieceLength - job.bytesPending

/-- The flush that is in progress, as its channel and how far it is. -/
def flushPosition (s : TorrentSystem) : List (ℕ × ℕ) :=
  match s.finishing with
  | some ⟨_, job, none⟩ => [(job.pieceManager.send, jobDone job)]
  | _ => []

/-- The channels of the piece actors whose buffers are still to be flushed, each with the position
from which on: those of announced pieces, and the one that is being flushed. -/
def awaited (s : TorrentSystem) : List (ℕ × ℕ) :=
  ((announced s).filterMap fun p => s.manager.activePiecesManager.lookup p).map
    (fun mgr => (mgr.send, 0)) ++ flushPosition s

/-- The block that a piece actor handles in a step: its channel, the offset and the data. -/
def arriving (s : TorrentSystem) : SystemEvent → Option (ℕ × ℕ × Bytes)
  | .blockRecived c =>
    match (s.connections[c]?).map Connection.reader with
    | some (.sending mgr _ blockOffset data _) => some (mgr.send, blockOffset, data)
    | _ => none
  | _ => none

/-- The block at `blockOffset` is one of the piece, and as far as it is stored from position
`start` of the buffer on, it has the bytes that are there already. -/
def SparesFrom (a : PieceRequestManagerActor) (start blockOffset : ℕ) (data : Bytes) : Prop :=
  let first := blockOffset / 16384 * 16384
  blockOffset / 16384 < noOfBlocks a.data.length ∧
    (first + data.length ≤ a.data.length →
      ∀ k < data.length, start ≤ first + k → data[k]? = a.data[first + k]?)

/-- A block that arrives at a piece actor after it verified its piece and before the piece is
flushed is one of the piece and changes nothing that is still to be flushed. -/
def SparesVerified (s : TorrentSystem) (e : SystemEvent) : Prop :=
  ∀ block ∈ arriving s e, ∀ w ∈ awaited s, w.1 = block.1 → ∀ a ∈ s.pieceActor block.1,
    SparesFrom a w.2 block.2.1 block.2.2

/-- The step has no write that fails after `write_all` returned. -/
def WriteLands : SystemEvent → Prop
  | .flushRound (.lateError _) => False
  | _ => True

/-- The step neither overwrites what is still to be flushed nor loses a write without telling. -/
def Unharmed (s : TorrentSystem) (e : SystemEvent) : Prop := SparesVerified s e ∧ WriteLands e

instance (a : PieceRequestManagerActor) (start blockOffset : ℕ) (data : Bytes) :
    Decidable (SparesFrom a start blockOffset data) :=
  inferInstanceAs (Decidable (_ ∧ (_ → ∀ k < data.length, _)))

instance (s : TorrentSystem) (e : SystemEvent) : Decidable (SparesVerified s e) :=
  inferInstanceAs (Decidable (∀ block ∈ arriving s e, ∀ w ∈ awaited s, _))

/-- No disk operation of the step fails. -/
def DiskWorks : SystemEvent → Prop
  | .flushRound io => io = .ok
  | .getDataWithLength _ _ _ io _ => ∀ idx, io idx = .ok
  | _ => True

theorem DiskWorks.writeLands {e : SystemEvent} (h : DiskWorks e) : WriteLands e := by
  cases e with
  | flushRound io =>
    rw [show io = .ok from h]
    trivial
  | _ => trivial

instance (e : SystemEvent) : Decidable (WriteLands e) := by
  unfold WriteLands
  split <;> infer_instance

instance (s : TorrentSystem) (e : SystemEvent) : Decidable (Unharmed s e) :=
  inferInstanceAs (Decidable (_ ∧ _))

/-- INTERNAL: storing such a block changes nothing from `start` on.
SOURCE: piece_manager.rs:108-118 -/
theorem SparesFrom.drop_storedData {a : PieceRequestManagerActor} {start blockOffset : ℕ}
    {data : Bytes} (h : SparesFrom a start blockOffset data) :
    (PieceRequestManagerActor.storedData a.data (blockOffset / 16384) data).drop start =
      a.data.drop start := by
  obtain ⟨-, hbytes⟩ := h
  have hlength := PieceRequestManagerActor.length_storedData a.data (blockOffset / 16384) data
  unfold PieceRequestManagerActor.storedData at hlength ⊢
  split_ifs at hlength ⊢ with hfits
  · apply List.ext_getElem?
    intro j
    rw [List.getElem?_drop, List.getElem?_drop]
    by_cases hin : blockOffset / 16384 * 16384 ≤ start + j ∧
        start + j < blockOffset / 16384 * 16384 + data.length
    · have hbyte := hbytes hfits (start + j - blockOffset / 16384 * 16384) (by omega) (by omega)
      rw [getElem?_writeAt_inside 0 _ hin.1 hin.2, hbyte]
      congr 1
      omega
    · rcases getElem?_writeAt_fill 0 a.data (show start + j < blockOffset / 16384 * 16384 ∨
        blockOffset / 16384 * 16384 + data.length ≤ start + j by omega) with hkept | ⟨hnone, hzero⟩
      · exact hkept
      · -- the buffer does not grow
        have hlt := (List.getElem?_eq_some_iff.mp hzero).1
        rw [hlength] at hlt
        rw [List.getElem?_eq_getElem hlt] at hnone
        cases hnone
  · rfl

/-! ## The invariant -/

/-- The piece actor behind the manager's channel, as long as it lives, is the one of its piece. -/
def ServedBy (actors : List (Option PieceRequestManagerActor)) (mgr : PieceRequestManager) :
    Prop :=
  ∃ slot, actors[mgr.send]? = some slot ∧
    ∀ a, slot = some a → a.hash = mgr.sha1Hash ∧ a.data.length = mgr.pieceLength

theorem ServedBy.append {actors : List (Option PieceRequestManagerActor)}
    {mgr : PieceRequestManager} (h : ServedBy actors mgr)
    (more : List (Option PieceRequestManagerActor)) : ServedBy (actors ++ more) mgr := by
  obtain ⟨slot, hslot, hserves⟩ := h
  refine ⟨slot, ?_, hserves⟩
  rwa [List.getElem?_append_left (List.getElem?_eq_some_iff.mp hslot).1]

/-- INTERNAL: a piece actor that keeps its digest and the length of its buffer serves its manager as
before. -/
theorem ServedBy.set {actors : List (Option PieceRequestManagerActor)}
    {mgr : PieceRequestManager} (h : ServedBy actors mgr) {send : ℕ}
    {a : PieceRequestManagerActor} {slot : Option PieceRequestManagerActor}
    (ha : actors[send]? = some (some a))
    (hkeeps : ∀ a', slot = some a' → a'.hash = a.hash ∧ a'.data.length = a.data.length) :
    ServedBy (actors.set send slot) mgr := by
  obtain ⟨old, hold, hserves⟩ := h
  by_cases hsend : send = mgr.send
  · subst hsend
    rw [ha, Option.some.injEq] at hold
    obtain ⟨hhash, hlength⟩ := hserves a hold.symm
    refine ⟨slot, by rw [List.getElem?_set_self (List.getElem?_eq_some_iff.mp ha).1], ?_⟩
    intro a' ha'
    rw [(hkeeps a' ha').1, (hkeeps a' ha').2]
    exact ⟨hhash, hlength⟩
  · exact ⟨old, by rw [List.getElem?_set_ne hsend, hold], hserves⟩

/-- INTERNAL: a new piece actor serves the manager it is spawned for.
SOURCE: piece_manager.rs:252-262 -/
theorem servedBy_append_new {actors : List (Option PieceRequestManagerActor)}
    {mgr : PieceRequestManager} (hmgr : mgr.send = actors.length) (blockRequestTimeout : ℕ) :
    ServedBy (actors ++ [some (.new mgr.pieceLength mgr.sha1Hash blockRequestTimeout)]) mgr := by
  refine ⟨some (.new mgr.pieceLength mgr.sha1Hash blockRequestTimeout), ?_, ?_⟩
  · rw [List.getElem?_append_right hmgr.ge, hmgr, Nat.sub_self]
    rfl
  · rintro a ⟨⟩
    exact ⟨rfl, List.length_replicate⟩

/-- Every manager a connection holds is current, and stands under its piece. -/
structure ConnectionOf (s : TorrentManagerActor) (conn : Connection) : Prop where
  requests : ∀ p mgr, conn.activeRequests.lookup p = some mgr → mgr.index = p ∧ Current s mgr
  granted : ∀ mgr, conn.granted = some mgr → Current s mgr
  sending : ∀ mgr p blockOffset data tracked,
    conn.reader = .sending mgr p blockOffset data tracked → mgr.index = p ∧ Current s mgr

/-- The active actor of the piece lives and its buffer hashes to its digest. -/
def VerifiedPiece (sha1 : Bytes → Bytes) (s : TorrentSystem) (p : ℕ) : Prop :=
  ∃ mgr a, s.manager.activePiecesManager.lookup p = some mgr ∧
    s.pieceActor mgr.send = some a ∧ sha1 a.data = a.hash

/-- A flush in progress: there are bytes `data` with the digest of the piece of which the disk
carries those that are taken, and the piece actor has the others. -/
structure Flushing (sha1 : Bytes → Bytes) (m : MetaInfo) (disk : DiskManagerActor)
    (actor : Option PieceRequestManagerActor) (f : PieceFinishing) : Prop where
  manages : ManagesPiece m f.index f.job.pieceManager
  lt : f.index < m.pieceCount
  running : Running disk f.job
  idx_le : f.job.idx ≤ disk.handles.length
  verified : ∃ data, data.length = f.job.pieceManager.pieceLength ∧
    sha1 data = f.job.pieceManager.sha1Hash ∧
    Carries (stream disk) (jobStart disk f.job) (data.take (jobDone f.job)) ∧
    (f.flushResult = none → ∃ a, actor = some a ∧ a.data.length = data.length ∧
      a.data.drop (jobDone f.job) = data.drop (jobDone f.job)) ∧
    (f.flushResult.isSome = true → jobDone f.job = f.job.pieceManager.pieceLength)

/-- The invariant of the actors of a torrent and its connections. Of the files it speaks as long as
the disk actor runs. -/
structure SystemInv (sha1 : Bytes → Bytes) (torrent : ClientTorrentMetaInfo)
    (options : PeerOptions) (s : TorrentSystem) : Prop where
  manager : ManagerInv torrent options s.manager
  disk : s.diskEnded = false → DiskOf torrent.rawTorrent s.disk
  served : ∀ p mgr, s.manager.activePiecesManager.lookup p = some mgr →
    ServedBy s.pieceActors mgr
  connections : ∀ conn ∈ s.connections, ConnectionOf s.manager conn
  announced : ∀ p ∈ announced s, Owned s.manager p ∨ VerifiedPiece sha1 s p
  finishing : ∀ f, s.finishing = some f → s.diskEnded = false →
    Flushing sha1 torrent.rawTorrent s.disk (s.pieceActor f.job.pieceManager.send) f
  /-- a flush is answered with a failure exactly when the disk actor has returned -/
  answered : ∀ f result, s.finishing = some f → f.flushResult = some result →
    s.diskEnded = !result

theorem ConnectionOf.mono {s t : TorrentManagerActor} {conn : Connection}
    (h : ConnectionOf s conn) (hcurrent : ∀ mgr, Current s mgr → Current t mgr) :
    ConnectionOf t conn where
  requests p mgr hmgr := (h.requests p mgr hmgr).imp_right (hcurrent mgr)
  granted mgr hmgr := hcurrent mgr (h.granted mgr hmgr)
  sending mgr p off data tracked hmgr :=
    (h.sending mgr p off data tracked hmgr).imp_right (hcurrent mgr)

theorem connectionOf_new (s : TorrentManagerActor) (peerId : String) :
    ConnectionOf s (.new peerId) := by
  refine ⟨?_, ?_, ?_⟩
  · intro p mgr h
    change (∅ : HashMap ℕ PieceRequestManager).lookup p = _ at h
    rw [Finmap.lookup_empty] at h
    cases h
  · intro mgr h
    cases h
  · intro mgr p off data tracked h
    cases h

section Steps

variable {sha1 : Bytes → Bytes} {torrent : ClientTorrentMetaInfo} {options : PeerOptions}
  {s t : TorrentSystem}

/-! ## Connections -/

theorem mem_announced_setConnection {c p : ℕ} {conn : Connection}
    (h : p ∈ announced (s.setConnection c conn)) :
    p ∈ announced s ∨ matchedPiece conn.reader = some p := by
  unfold announced at h ⊢
  rcases List.mem_append.mp h with h | h
  · obtain ⟨conn', hmem, hp⟩ := List.mem_filterMap.mp h
    rcases List.mem_or_eq_of_mem_set hmem with hmem | rfl
    · exact Or.inl (List.mem_append_left _ (List.mem_filterMap.mpr ⟨conn', hmem, hp⟩))
    · exact Or.inr hp
  · exact Or.inl (List.mem_append_right _ h)

/-- INTERNAL: a connection may change when its managers are current and the piece it announces is
verified. -/
theorem SystemInv.setConnection (hs : SystemInv sha1 torrent options s) {conn : Connection}
    (c : ℕ) (hconn : ConnectionOf s.manager conn)
    (hmatched : ∀ p, matchedPiece conn.reader = some p →
      Owned s.manager p ∨ VerifiedPiece sha1 s p) :
    SystemInv sha1 torrent options (s.setConnection c conn) where
  manager := hs.manager
  disk := hs.disk
  served := hs.served
  connections := by
    intro conn' hmem
    rcases List.mem_or_eq_of_mem_set hmem with hmem | rfl
    · exact hs.connections conn' hmem
    · exact hconn
  announced := by
    intro p hp
    rcases mem_announced_setConnection hp with hp | hp
    · exact hs.announced p hp
    · exact hmatched p hp
  finishing := hs.finishing
  answered := hs.answered

theorem matchedPiece_mem_announced {c p : ℕ} {conn : Connection}
    (hc : s.connections[c]? = some conn) (h : matchedPiece conn.reader = some p) :
    p ∈ announced s :=
  List.mem_append_left _ (List.mem_filterMap.mpr ⟨conn, List.mem_of_getElem? hc, h⟩)

/-- INTERNAL: a connection may change when it announces nothing new. -/
theorem SystemInv.setConnection_of_matched (hs : SystemInv sha1 torrent options s) {c : ℕ}
    {conn conn' : Connection} (hc : s.connections[c]? = some conn)
    (hconn : ConnectionOf s.manager conn')
    (hmatched : ∀ p, matchedPiece conn'.reader = some p → matchedPiece conn.reader = some p) :
    SystemInv sha1 torrent options (s.setConnection c conn') :=
  hs.setConnection c hconn fun p hp =>
    hs.announced p (matchedPiece_mem_announced hc (hmatched p hp))

/-- INTERNAL: a reader may go on to anything but an announcement, as long as it sends its block to
a current manager of the piece. -/
theorem SystemInv.setReader (hs : SystemInv sha1 torrent options s) {c : ℕ} {conn : Connection}
    (hc : s.connections[c]? = some conn) {reader : Reader}
    (hsends : ∀ mgr p blockOffset data tracked,
      reader = .sending mgr p blockOffset data tracked → mgr.index = p ∧ Current s.manager mgr)
    (hnone : matchedPiece reader = none) :
    SystemInv sha1 torrent options (s.setConnection c { conn with reader := reader }) := by
  have hold := hs.connections conn (List.mem_of_getElem? hc)
  refine hs.setConnection c ⟨hold.requests, hold.granted, hsends⟩ fun p hp => ?_
  rw [hnone] at hp
  cases hp

/-! ## Piece actors -/

/-- The piece actors `actors` serve all managers, and leave alone what is awaited. -/
structure Spares (s : TorrentSystem) (actors : List (Option PieceRequestManagerActor)) : Prop where
  served : ∀ mgr, ServedBy s.pieceActors mgr → ServedBy actors mgr
  awaited : ∀ w ∈ awaited s, ∀ a, s.pieceActor w.1 = some a →
    ∃ a', (actors[w.1]?).join = some a' ∧ a'.hash = a.hash ∧ a'.data.length = a.data.length ∧
      a'.data.drop w.2 = a.data.drop w.2

/-- INTERNAL: the piece actors may change as long as they spare what is awaited. -/
theorem SystemInv.setPieceActors (hs : SystemInv sha1 torrent options s)
    {actors : List (Option PieceRequestManagerActor)} (h : Spares s actors) :
    SystemInv sha1 torrent options { s with pieceActors := actors } where
  manager := hs.manager
  disk := hs.disk
  served p mgr hmgr := h.served mgr (hs.served p mgr hmgr)
  connections := hs.connections
  announced := by
    intro p hp
    rcases hs.announced p hp with hown | ⟨mgr, a, hmgr, ha, hhash⟩
    · exact Or.inl hown
    · have hmem : (mgr.send, 0) ∈ awaited s :=
        List.mem_append_left _ (List.mem_map.mpr
          ⟨mgr, List.mem_filterMap.mpr ⟨p, hp, hmgr⟩, rfl⟩)
      obtain ⟨a', ha', hhash', -, hdata⟩ := h.awaited _ hmem a ha
      rw [List.drop_zero, List.drop_zero] at hdata
      exact Or.inr ⟨mgr, a', hmgr, ha', by rw [hdata, hhash, hhash']⟩
  finishing := by
    rintro ⟨index, job, result⟩ hf hruns
    obtain ⟨hmanages, hlt, hrunning, hidx, data, hlen, hsha, hcarries, hactor, hdone⟩ :=
      hs.finishing _ hf hruns
    refine ⟨hmanages, hlt, hrunning, hidx, data, hlen, hsha, hcarries, ?_, hdone⟩
    rintro rfl
    obtain ⟨a, ha, hlen', hdata⟩ := hactor rfl
    have hmem : (job.pieceManager.send, jobDone job) ∈ awaited s := by
      apply List.mem_append_right
      unfold flushPosition
      rw [hf]
      exact List.mem_singleton_self _
    obtain ⟨a', ha', -, hlen'', hdata'⟩ := h.awaited _ hmem a ha
    exact ⟨a', ha', hlen''.trans hlen', hdata'.trans hdata⟩
  answered := hs.answered

theorem getElem?_pieceActors {send : ℕ} {a : PieceRequestManagerActor}
    (h : s.pieceActor send = some a) : s.pieceActors[send]? = some (some a) := by
  unfold pieceActor at h
  rwa [Option.join_eq_some_iff] at h

theorem pieceActor_set {send : ℕ} {a : PieceRequestManagerActor} (h : s.pieceActor send = some a)
    (slot : Option PieceRequestManagerActor) :
    { s with pieceActors := s.pieceActors.set send slot }.pieceActor send = slot := by
  have hlt := (List.getElem?_eq_some_iff.mp (getElem?_pieceActors h)).1
  unfold pieceActor
  rw [List.getElem?_set_self hlt]
  rfl

/-- INTERNAL: another piece actor is spared. -/
theorem spares_append (s : TorrentSystem) (actors : List (Option PieceRequestManagerActor)) :
    Spares s (s.pieceActors ++ actors) := by
  have hkept {send : ℕ} {slot : Option PieceRequestManagerActor}
      (h : s.pieceActors[send]? = some slot) : (s.pieceActors ++ actors)[send]? = some slot := by
    rwa [List.getElem?_append_left (List.getElem?_eq_some_iff.mp h).1]
  refine ⟨fun mgr hserved => hserved.append actors, ?_⟩
  · intro w _ a ha
    refine ⟨a, ?_, rfl, rfl, rfl⟩
    rw [hkept (getElem?_pieceActors ha)]
    rfl

/-- INTERNAL: what becomes of one piece actor is spared when it keeps its digest and the length of
its buffer, and lives on with the same bytes wherever it is awaited. -/
theorem spares_set {send : ℕ} {a : PieceRequestManagerActor} (ha : s.pieceActor send = some a)
    (slot : Option PieceRequestManagerActor)
    (hkeeps : ∀ a', slot = some a' → a'.hash = a.hash ∧ a'.data.length = a.data.length)
    (hawaited : ∀ w ∈ awaited s, w.1 = send →
      ∃ a', slot = some a' ∧ a'.data.drop w.2 = a.data.drop w.2) :
    Spares s (s.pieceActors.set send slot) := by
  have hlt : send < s.pieceActors.length :=
    (List.getElem?_eq_some_iff.mp (getElem?_pieceActors ha)).1
  refine ⟨fun mgr hserved => hserved.set (getElem?_pieceActors ha) hkeeps, ?_⟩
  · intro w hw b hb
    by_cases hsend : w.1 = send
    · obtain ⟨a', ha', hdata⟩ := hawaited w hw hsend
      rw [hsend, ha, Option.some.injEq] at hb
      subst hb
      refine ⟨a', ?_, (hkeeps a' ha').1, (hkeeps a' ha').2, hdata⟩
      rw [hsend, List.getElem?_set_self hlt, ha']
      rfl
    · refine ⟨b, ?_, rfl, rfl, rfl⟩
      rw [List.getElem?_set_ne (Ne.symm hsend), getElem?_pieceActors hb]
      rfl

/-! ## The manager -/

/-- INTERNAL: a new manager is served by the actor it spawns.
SOURCE: piece_manager.rs:252-262 -/
theorem servedBy_spawned {mgr : PieceRequestManager}
    (hmgr : mgr.send = s.pieceActors.length) :
    ServedBy (s.spawned (.work (some mgr))) mgr := by
  unfold spawned
  dsimp only
  rw [if_pos hmgr]
  exact servedBy_append_new hmgr _

theorem spares_spawned (s : TorrentSystem) (reply : TorrentManagerReply) :
    Spares s (s.spawned reply) := by
  have hsame := spares_append s []
  rw [List.append_nil] at hsame
  unfold spawned
  split
  · split_ifs
    · exact spares_append s _
    · exact hsame
  · exact hsame

/-- INTERNAL: the manager handles a message other than `PieceFinish`. It keeps what is current,
and a manager that it hands out is current.
SOURCE: torrent_manager.rs:113-364 -/
theorem SystemInv.handle {msg : TorrentManagerMessage} {env : Env} {reply : TorrentManagerReply}
    (hs : SystemInv sha1 torrent options s) (hmsg : finishes msg = none)
    (h : s.handle msg env = some (t, reply)) :
    SystemInv sha1 torrent options t ∧ t.connections = s.connections ∧
      (∀ mgr, Current s.manager mgr → Current t.manager mgr) ∧
      ∀ mgr, reply = .work (some mgr) → Current t.manager mgr := by
  obtain ⟨hidle, manager, hstep, rfl⟩ := handle_eq_some h
  have hactive := active_of_not_pieceFinish hstep hmsg
  obtain ⟨hlocal, -⟩ := owned_log_of_not_pieceFinish hstep hmsg
  have hinv := managerInv_step hs.manager hstep
  have hactors := hs.setPieceActors (spares_spawned s reply)
  have hcurrent (mgr : PieceRequestManager) (h : Current s.manager mgr) : Current manager mgr :=
    h.of_activeStep hactive hlocal
  have hnone {f : PieceFinishing} (hf : s.finishing = some f) : False := by
    rw [hidle] at hf
    cases hf
  refine ⟨⟨hinv, hs.disk, ?_, ?_, ?_, fun f hf _ => (hnone hf).elim,
    fun f _ hf _ => (hnone hf).elim⟩, rfl, hcurrent, ?_⟩
  · -- an active manager was active before, or its actor was spawned
    intro p mgr hmgr
    rcases hactive with ⟨hsame, -⟩ | ⟨q, new, rfl, -, hnew, hinsert⟩
    · rw [hsame] at hmgr
      exact hactors.served p mgr hmgr
    · rw [hinsert, HashMap.lookup_insert_eq] at hmgr
      split_ifs at hmgr with hpq
      · cases hmgr
        unfold ManagerOf at hnew
        split at hnew
        · next active hold =>
          have hserved := hactors.served q active hold
          rwa [← hnew] at hserved
        · obtain ⟨sha1Hash, pieceLength, -, -, rfl⟩ := hnew
          exact servedBy_spawned rfl
      · exact hactors.served p mgr hmgr
  · intro conn hconn
    exact (hs.connections conn hconn).mono hcurrent
  · intro p hp
    rcases hactors.announced p hp with hown | ⟨mgr, a, hmgr, ha, hhash⟩
    · left
      unfold Owned at hown ⊢
      rw [hlocal]
      exact hown
    · exact Or.inr ⟨mgr, a, hactive.lookup hmgr, ha, hhash⟩
  · rintro mgr rfl
    rcases hactive with ⟨-, hne⟩ | ⟨p, new, hreply, -, hnew, hinsert⟩
    · exact absurd rfl (hne mgr)
    · cases hreply
      right
      rw [(hs.manager.managesPiece hnew).index_eq, hinsert, Finmap.lookup_insert]

theorem systemInv_recv {msg : TorrentManagerMessage} {env : Env}
    (hs : SystemInv sha1 torrent options s) (h : s.recv msg env = some t) :
    SystemInv sha1 torrent options t := by
  obtain ⟨hmsg, reply, hhandle⟩ := recv_eq_some h
  exact (hs.handle hmsg hhandle).1

/-- INTERNAL: nothing is asked of the disk actor once it has returned, and no flush is in progress
while the manager has something read.
SOURCE: torrent_manager.rs:336-344 -/
theorem SystemInv.endDisk (hs : SystemInv sha1 torrent options s) (hidle : s.finishing = none)
    {ended : Bool} (h : s.diskEnded = true → ended = true) :
    SystemInv sha1 torrent options { s with diskEnded := ended } where
  manager := hs.manager
  disk hruns := hs.disk (Bool.eq_false_iff.mpr fun hended => by
    rw [show ended = false from hruns] at h
    cases h hended)
  served := hs.served
  connections := hs.connections
  announced := hs.announced
  finishing := by
    intro f hf
    change s.finishing = some f at hf
    rw [hidle] at hf
    cases hf
  answered := by
    intro f result hf
    change s.finishing = some f at hf
    rw [hidle] at hf
    cases hf

theorem systemInv_getDataWithLength {pieceIndex offset length : ℕ} {io : ℕ → IoOutcome}
    {env : Env} (hs : SystemInv sha1 torrent options s)
    (h : (s.getDataWithLength pieceIndex offset length io env).map Prod.fst = some t) :
    SystemInv sha1 torrent options t := by
  obtain ⟨env', u, reply, ended, hu, hended, rfl⟩ := getDataWithLength_event_eq_some h
  have hinv := (hs.handle rfl hu).1
  obtain ⟨hidle, manager, -, rfl⟩ := handle_eq_some hu
  exact hinv.endDisk hidle hended

theorem systemInv_connect {peerId : String} {env : Env} (hs : SystemInv sha1 torrent options s)
    (h : s.connect peerId env = some t) : SystemInv sha1 torrent options t := by
  obtain ⟨u, reply, hu, rfl⟩ := connect_eq_some h
  obtain ⟨hinv, -⟩ := hs.handle rfl hu
  refine ⟨hinv.manager, hinv.disk, hinv.served, ?_, ?_, hinv.finishing, hinv.answered⟩
  · intro conn hconn
    rcases List.mem_append.mp hconn with hconn | hconn
    · exact hinv.connections conn hconn
    · rw [List.mem_singleton.mp hconn]
      exact connectionOf_new _ peerId
  · intro p hp
    unfold Analysis.announced at hp
    rw [List.filterMap_append] at hp
    exact hinv.announced p (by simpa [Analysis.announced, Connection.new, matchedPiece] using hp)

/-! ## The writer and the watchdog -/

theorem systemInv_requestPiece {c : ℕ} {env : Env} (hs : SystemInv sha1 torrent options s)
    (h : s.requestPiece c env = some t) : SystemInv sha1 torrent options t := by
  obtain ⟨conn, u, reply, hconn, -, hu, hnext⟩ := requestPiece_eq_some h
  obtain ⟨hinv, hconns, hkeeps, hwork⟩ := hs.handle rfl hu
  have hold := (hs.connections conn (List.mem_of_getElem? hconn)).mono hkeeps
  rcases hnext with ⟨req, hreply, rfl⟩ | rfl
  · rw [← hconns] at hconn
    refine hinv.setConnection_of_matched hconn ⟨hold.requests, ?_, hold.sending⟩ fun _ hp => hp
    rintro mgr ⟨⟩
    exact hwork req hreply
  · exact hinv

theorem systemInv_insertRequest {c : ℕ} (hs : SystemInv sha1 torrent options s)
    (h : s.insertRequest c = some t) : SystemInv sha1 torrent options t := by
  obtain ⟨conn, req, hconn, hreq, rfl⟩ := insertRequest_eq_some h
  have hold := hs.connections conn (List.mem_of_getElem? hconn)
  refine hs.setConnection_of_matched hconn ⟨?_, ?_, hold.sending⟩ fun _ hp => hp
  · intro p mgr hmgr
    rw [HashMap.lookup_insert_eq] at hmgr
    split_ifs at hmgr with hp
    · cases hmgr
      exact ⟨hp.symm, hold.granted req hreq⟩
    · exact hold.requests p mgr hmgr
  · intro mgr hmgr
    cases hmgr

theorem systemInv_countActive {c : ℕ} {env : Env} (hs : SystemInv sha1 torrent options s)
    (h : s.countActive c env = some t) : SystemInv sha1 torrent options t := by
  obtain ⟨conn, u, reply, hconn, -, hu, hnext⟩ := countActive_eq_some h
  obtain ⟨hinv, hconns, hkeeps, -⟩ := hs.handle rfl hu
  have hold := (hs.connections conn (List.mem_of_getElem? hconn)).mono hkeeps
  rcases hnext with ⟨work, -, rfl⟩ | rfl
  · rw [← hconns] at hconn
    exact hinv.setConnection_of_matched hconn ⟨hold.requests, hold.granted, hold.sending⟩
      fun _ hp => hp
  · exact hinv

theorem systemInv_prune {c : ℕ} (hs : SystemInv sha1 torrent options s)
    (h : s.prune c = some t) : SystemInv sha1 torrent options t := by
  obtain ⟨conn, stillActive, hconn, -, rfl⟩ := prune_eq_some h
  have hold := hs.connections conn (List.mem_of_getElem? hconn)
  refine hs.setConnection_of_matched hconn ⟨?_, hold.granted, hold.sending⟩ fun _ hp => hp
  intro p mgr hmgr
  rw [HashMap.lookup_filterMapVals, Option.bind_eq_some_iff] at hmgr
  obtain ⟨req, hreq, hkept⟩ := hmgr
  split_ifs at hkept
  rw [← Option.some.inj hkept]
  exact hold.requests p req hreq

/-! ## The reader -/

theorem systemInv_piece {c p blockOffset : ℕ} {data : Bytes}
    (hs : SystemInv sha1 torrent options s) (h : s.piece c p blockOffset data = some t) :
    SystemInv sha1 torrent options t := by
  obtain ⟨conn, hconn, -, ⟨mgr, hmgr, rfl⟩ | ⟨-, rfl⟩⟩ := piece_eq_some h
  · refine hs.setReader hconn ?_ rfl
    rintro _ _ _ _ _ ⟨⟩
    exact (hs.connections conn (List.mem_of_getElem? hconn)).requests p mgr hmgr
  · exact hs.setReader hconn nofun rfl

theorem systemInv_getPieceManager {c : ℕ} {env : Env} (hs : SystemInv sha1 torrent options s)
    (h : s.getPieceManager c env = some t) : SystemInv sha1 torrent options t := by
  obtain ⟨conn, p, blockOffset, data, u, reply, hconn, -, hu, hnext⟩ := getPieceManager_eq_some h
  obtain ⟨hinv, hconns, hkeeps, -⟩ := hs.handle rfl hu
  rw [← hconns] at hconn
  rcases hnext with ⟨mgr, hmgr, rfl⟩ | ⟨-, rfl⟩
  · refine hinv.setReader hconn ?_ rfl
    rintro _ _ _ _ _ ⟨⟩
    have hindex := (hs.manager.active p mgr hmgr).1.index_eq
    exact ⟨hindex, hkeeps mgr (Or.inr (by rw [hindex, hmgr]))⟩
  · exact hinv.setReader hconn nofun rfl

theorem systemInv_pieceFinish {c : ℕ} (hs : SystemInv sha1 torrent options s)
    (h : s.pieceFinish c = some t) : SystemInv sha1 torrent options t := by
  obtain ⟨conn, p, tracked, hconn, hreader, rfl⟩ := pieceFinish_event_eq_some h
  -- the piece was announced by the reader, and now is by the message
  have hp : p ∈ announced s := matchedPiece_mem_announced hconn (by rw [hreader]; rfl)
  have hsent : SystemInv sha1 torrent options
      { s with pieceFinishes := s.pieceFinishes ++ [(conn.peerId, p)] } := by
    refine ⟨hs.manager, hs.disk, hs.served, hs.connections, ?_, hs.finishing, hs.answered⟩
    intro p' hp'
    unfold Analysis.announced at hp'
    rw [List.map_append, ← List.append_assoc] at hp'
    rcases List.mem_append.mp hp' with hp' | hp'
    · exact hs.announced p' hp'
    · rw [List.mem_singleton.mp hp']
      exact hs.announced p hp
  cases tracked with
  | true => exact hsent.setReader hconn nofun rfl
  | false => exact hsent.setReader hconn nofun rfl

theorem systemInv_removeRequest {c : ℕ} (hs : SystemInv sha1 torrent options s)
    (h : s.removeRequest c = some t) : SystemInv sha1 torrent options t := by
  obtain ⟨conn, p, hconn, -, rfl⟩ := removeRequest_eq_some h
  have hold := hs.connections conn (List.mem_of_getElem? hconn)
  refine hs.setConnection c ⟨?_, hold.granted, nofun⟩ nofun
  intro p' mgr hmgr
  rw [HashMap.lookup_erase_eq] at hmgr
  split_ifs at hmgr
  exact hold.requests p' mgr hmgr

/-! ## The piece actors -/

theorem systemInv_pieceEvent {send : ℕ} {e : PieceEvent} (hs : SystemInv sha1 torrent options s)
    (h : s.pieceEvent sha1 send e = some t) : SystemInv sha1 torrent options t := by
  obtain ⟨hother, a, b, r, ha, hb, rfl⟩ := pieceEvent_eq_some h
  obtain ⟨hhash, hdata⟩ := data_of_pieceStep hother hb
  refine hs.setPieceActors (spares_set ha _ ?_ ?_)
  · rintro _ ⟨⟩
    exact ⟨hhash, by rw [hdata]⟩
  · intro w _ _
    exact ⟨b, rfl, by rw [hdata]⟩

/-- INTERNAL: the arrival of a block that spares what is awaited of its piece actor. A block that
completes its piece announces a verified piece.
SOURCE: peer_protocol_state_machine.rs:337-393 -/
theorem systemInv_blockRecived {c : ℕ} (hs : SystemInv sha1 torrent options s)
    (hspares : SparesVerified s (.blockRecived c)) (h : s.blockRecived sha1 c = some t) :
    SystemInv sha1 torrent options t := by
  obtain ⟨conn, mgr, p, blockOffset, data, tracked, hconn, hreader, hnext⟩ :=
    blockRecived_event_eq_some h
  have hold := hs.connections conn (List.mem_of_getElem? hconn)
  obtain ⟨rfl, hcurrent⟩ := hold.sending mgr p blockOffset data tracked hreader
  have harriving : arriving s (.blockRecived c) = some (mgr.send, blockOffset, data) := by
    unfold arriving
    dsimp only
    rw [hconn, Option.map_some, hreader]
  rcases hnext with ⟨a, slot, reader, ha, hafter, rfl⟩ | ⟨-, rfl⟩
  · have hspared (w : ℕ × ℕ) (hw : w ∈ Analysis.awaited s) (hsend : w.1 = mgr.send) :
        SparesFrom a w.2 blockOffset data :=
      hspares _ harriving w hw hsend a ha
    rcases afterBlock_cases sha1 a mgr.index blockOffset data tracked with
      ⟨b, reader', hafter', hhash, hdata, hreader'⟩ | ⟨houtside, hafter'⟩
    · rw [hafter, Prod.mk.injEq] at hafter'
      obtain ⟨rfl, rfl⟩ := hafter'
      have hactors := hs.setPieceActors (spares_set ha (some b)
        (by
          rintro _ ⟨⟩
          exact ⟨hhash, by rw [hdata, PieceRequestManagerActor.length_storedData]⟩)
        (fun w hw hsend => ⟨b, rfl, by rw [hdata]; exact (hspared w hw hsend).drop_storedData⟩))
      rcases hreader' with rfl | ⟨rfl, hsha⟩
      · exact hactors.setReader hconn nofun rfl
      · refine hactors.setConnection c ⟨hold.requests, hold.granted, nofun⟩ ?_
        rintro _ ⟨⟩
        exact hcurrent.imp_right fun hactive => ⟨mgr, b, hactive, pieceActor_set ha (some b), hsha⟩
    · rw [hafter, Prod.mk.injEq] at hafter'
      obtain ⟨rfl, rfl⟩ := hafter'
      have hactors := hs.setPieceActors (spares_set ha none nofun
        (fun w hw hsend => absurd (hspared w hw hsend).1 houtside))
      exact hactors.setReader hconn nofun rfl
  · exact hs.setReader hconn nofun rfl

/-! ## Finishing a piece -/

theorem jobDone_begin (mgr : PieceRequestManager) : jobDone (.begin mgr) = 0 := Nat.sub_self _

/-- INTERNAL: the manager takes the news that a piece is complete. When it starts a flush, the
buffer of the piece actor hashes to the digest.
SOURCE: torrent_manager.rs:238-265 -/
theorem systemInv_pieceFinishBegin (hmeta : torrent.rawTorrent.WellSized) {k : ℕ}
    (hs : SystemInv sha1 torrent options s) (h : s.pieceFinishBegin k = some t) :
    SystemInv sha1 torrent options t := by
  obtain ⟨-, q, i, manager, last, hk, hbegin, rfl⟩ := pieceFinishBegin_event_eq_some h
  have hi : i ∈ announced s :=
    List.mem_append_right _ (List.mem_map.mpr ⟨_, List.mem_of_getElem? hk, rfl⟩)
  obtain ⟨hown, howned, hactive⟩ := pieceFinishBegin_owned hbegin
  have hlookup {p : ℕ} {mgr : PieceRequestManager}
      (hmgr : manager.activePiecesManager.lookup p = some mgr) :
      s.manager.activePiecesManager.lookup p = some mgr := by
    by_cases hp : p = i
    · subst hp
      obtain ⟨-, ⟨-, rfl, -⟩ | ⟨-, -, rfl⟩⟩ := pieceFinishBegin_eq_some hbegin
      · exact hmgr
      · rw [HashMap.lookup_erase_eq, if_pos rfl] at hmgr
        cases hmgr
    · rwa [hactive p hp] at hmgr
  refine ⟨managerInv_pieceFinishBegin hs.manager hbegin, hs.disk, ?_, ?_, ?_, ?_, ?_⟩
  · exact fun p mgr hmgr => hs.served p mgr (hlookup hmgr)
  · exact fun conn hconn =>
      (hs.connections conn hconn).mono fun mgr hmgr => hmgr.pieceFinishBegin hbegin
  · intro p hp
    have hp : p ∈ announced s := by
      rcases List.mem_append.mp hp with hp | hp
      · exact List.mem_append_left _ hp
      · exact List.mem_append_right _ (List.map_subset _ List.eraseIdx_subset hp)
    by_cases hpi : p = i
    · exact Or.inl (hpi ▸ hown)
    · rcases hs.announced p hp with hold | ⟨mgr, a, hmgr, ha, hsha⟩
      · exact Or.inl (howned p hold)
      · exact Or.inr ⟨mgr, a, by rw [← hmgr]; exact hactive p hpi, ha, hsha⟩
  · intro f hf _
    obtain ⟨mgr, rfl, rfl⟩ := Option.map_eq_some_iff.mp hf
    obtain ⟨-, ⟨-, -, hnone⟩ | ⟨hnot, hmgr, -⟩⟩ := pieceFinishBegin_eq_some hbegin
    · cases hnone
    rcases hs.announced i hi with hold | ⟨mgr', a, hmgr', ha, hsha⟩
    · exact absurd hold hnot
    rw [hmgr', Option.some.injEq] at hmgr
    subst hmgr
    obtain ⟨hmanages, hlt, -⟩ := hs.manager.active i mgr hmgr'
    rw [hs.manager.length_frequency hmeta] at hlt
    obtain ⟨slot, hslot, hserves⟩ := hs.served i mgr hmgr'
    rw [getElem?_pieceActors ha, Option.some.injEq] at hslot
    obtain ⟨hhash, hlength⟩ := hserves a hslot.symm
    refine ⟨hmanages, hlt, running_begin _ mgr, Nat.zero_le _, a.data, hlength,
      hsha.trans hhash, ?_, ?_, ?_⟩
    · rw [jobDone_begin, List.take_zero]
      intro k hk
      cases hk
    · exact fun _ => ⟨a, ha, rfl, rfl⟩
    · intro h
      cases h
  · intro f result hf hresult
    obtain ⟨mgr, -, rfl⟩ := Option.map_eq_some_iff.mp hf
    cases hresult

/-- INTERNAL: how far a flush is, from its cursor. -/
theorem jobDone_eq {disk : DiskManagerActor} {job : FlushJob} (h : Running disk job) :
    jobDone job = jobCursor disk job - jobStart disk job := by
  have hbounds := jobCursor_bounds disk job
  unfold jobDone
  rw [h]
  unfold jobStop at *
  omega

/-- INTERNAL: at the end of the loop all bytes are taken. -/
theorem Flushing.finish {m : MetaInfo} {disk : DiskManagerActor}
    {actor : Option PieceRequestManagerActor} {index : ℕ} {job : FlushJob}
    (h : Flushing sha1 m disk actor ⟨index, job, none⟩)
    (hdone : jobCursor disk job = jobStop disk job) :
    Flushing sha1 m disk actor ⟨index, job, some true⟩ := by
  obtain ⟨hmanages, hlt, hrunning, hidx, data, hlen, hsha, hcarries, -⟩ := h
  refine ⟨hmanages, hlt, hrunning, hidx, data, hlen, hsha, hcarries, nofun, fun _ => ?_⟩
  rw [jobDone_eq hrunning, hdone]
  exact Nat.add_sub_cancel_left _ _

/-- INTERNAL: a file that ends at or before the piece is passed over. -/
theorem Flushing.skip {m : MetaInfo} {disk : DiskManagerActor}
    {actor : Option PieceRequestManagerActor} {index : ℕ} {job : FlushJob}
    (h : Flushing sha1 m disk actor ⟨index, job, none⟩) (hidx : job.idx < disk.handles.length)
    (hrunning' : Running disk (job.advance 0))
    (hcursor : jobCursor disk (job.advance 0) = jobCursor disk job) :
    Flushing sha1 m disk actor ⟨index, job.advance 0, none⟩ := by
  obtain ⟨hmanages, hlt, hrunning, -, data, hlen, hsha, hcarries, hactor, -⟩ := h
  obtain ⟨a, ha, hlength, hrest⟩ := hactor rfl
  have hsame : jobDone (job.advance 0) = jobDone job := by
    rw [jobDone_eq hrunning', hcursor, jobDone_eq hrunning]
    rfl
  refine ⟨hmanages, hlt, hrunning', hidx, data, hlen, hsha, ?_, fun _ => ⟨a, ha, hlength, ?_⟩,
    by simp⟩
  · dsimp only
    rw [hsame]
    exact hcarries
  · dsimp only
    rw [hsame]
    exact hrest

/-- INTERNAL: a slice of the buffer is written. It is that of the bytes with the digest, so these are
on disk up to its end.
SOURCE: disk_manager.rs:96-110, piece_manager.rs:137-152 -/
theorem Flushing.write {m : MetaInfo} {disk : DiskManagerActor} {a : PieceRequestManagerActor}
    {index offset count : ℕ} {job : FlushJob} (hseparate : Separate (segments disk))
    (h : Flushing sha1 m disk (some a) ⟨index, job, none⟩) (hidx : job.idx < disk.handles.length)
    (hspan : flushSpanOf disk job = .part offset count) :
    Flushing sha1 m
      (disk.writeFile job.idx offset (a.getData (sliceOf job count).1 (sliceOf job count).2)) (some a)
      ⟨index, job.advance count, none⟩ := by
  obtain ⟨hmanages, hlt, hrunning, -, data, hlen, hsha, hcarries, hactor, -⟩ := h
  dsimp only at hmanages hlt hrunning hlen hsha hcarries hactor
  obtain ⟨a, ha, hlength, hrest⟩ := hactor rfl
  cases ha
  rcases flushSpanOf_cases hidx hrunning with ⟨hspan', -⟩ | ⟨hspan', -⟩ |
    ⟨offset', count', hspan', hslice, ⟨hrunning', hcursor⟩, hwrites⟩
  · rw [hspan] at hspan'
    cases hspan'
  · rw [hspan] at hspan'
    cases hspan'
  · rw [hspan] at hspan'
    cases hspan'
    have hpos := jobDone_eq hrunning
    have hbounds := jobCursor_bounds disk job
    have hbounds' := jobCursor_bounds disk (job.advance count)
    have hstop' : jobStop disk (job.advance count) =
        jobStart disk job + job.pieceManager.pieceLength := rfl
    have hpos' := jobDone_eq hrunning'
    rw [hcursor] at hbounds' hpos'
    change _ = jobCursor disk job + count - jobStart disk job at hpos'
    have hanswer : a.getData (sliceOf job count).1 (sliceOf job count).2 =
        (data.drop (jobDone job)).take count := by
      rw [hslice, ← hrest, ← hpos, answers_getData a _ _ (by omega) (by omega),
        Nat.add_sub_cancel_left]
    have hcount : ((data.drop (jobDone job)).take count).length = count := by
      rw [List.length_take, List.length_drop]
      omega
    have hfirst : (data.take (jobDone job)).length = jobDone job := by
      rw [List.length_take]
      omega
    have hnow : data.take (jobDone (job.advance count)) =
        data.take (jobDone job) ++ (data.drop (jobDone job)).take count := by
      rw [← List.take_add, show jobDone (job.advance count) = jobDone job + count by omega]
    have hover := (hwrites _ hcount.le).1 hseparate
    rw [hanswer]
    refine ⟨hmanages, hlt, hrunning', hidx, data, hlen, hsha, ?_, fun _ => ⟨a, rfl, hlength, ?_⟩,
      by simp⟩
    · dsimp only
      rw [hnow]
      refine (hcarries.keepsOutside hover.outside ?_).append ?_
      · rw [hfirst]
        omega
      · rw [hfirst]
        have hcarried := carries_of_overlays hover
        rwa [show jobCursor disk job = jobStart disk job + jobDone job by omega] at hcarried
    · dsimp only
      rw [show jobDone (job.advance count) = jobDone job + count by omega, ← List.drop_drop,
        ← List.drop_drop, hrest]

/-- INTERNAL: one round of the flush ends the loop, or passes over a file, or writes the next bytes
of the buffer, which hash to the digest together with those before and after them, or the disk actor
returns with an error.
SOURCE: disk_manager.rs:66-110 -/
theorem Flushing.round {m : MetaInfo} {disk : DiskManagerActor}
    {actor : Option PieceRequestManagerActor} {index : ℕ} {job : FlushJob}
    (hmeta : m.WellSized) (hdisk : DiskOf m disk)
    (h : Flushing sha1 m disk actor ⟨index, job, none⟩) {getData : ℕ → ℕ → Bytes}
    (hget : ∀ a, actor = some a → getData = a.getData) {io : IoOutcome}
    (hlands : WriteLands (.flushRound io)) :
    (disk.flushRound job getData io = .reply true ∧
      Flushing sha1 m disk actor ⟨index, job, some true⟩) ∨
    (∃ disk' job', disk.flushRound job getData io = .failed (disk', job')) ∨
    ∃ disk' job', disk.flushRound job getData io = .next (disk', job') ∧
      job'.pieceManager = job.pieceManager ∧ DiskOf m disk' ∧
      Flushing sha1 m disk' actor ⟨index, job', none⟩ := by
  obtain ⟨hmanages, hlt, hrunning, hidx, data, -, -, -, hactor, -⟩ := id h
  dsimp only at hmanages hlt hrunning hidx hactor
  rcases Nat.lt_or_eq_of_le hidx with hidx | hidx
  · rcases flushSpanOf_cases hidx hrunning with ⟨hspan, hdone⟩ | ⟨hspan, hrunning', hcursor⟩ |
      ⟨offset, count, hspan, -, -, -⟩
    · exact Or.inl ⟨flushRound_done hspan getData io, h.finish hdone⟩
    · exact Or.inr (Or.inr ⟨_, _, flushRound_skip hspan getData io, rfl, hdisk,
        h.skip hidx hrunning' hcursor⟩)
    · have hround := flushRound_part hspan getData io
      dsimp only at hround
      by_cases hreported : Reported io
      · rw [if_pos hreported] at hround
        exact Or.inr (Or.inl ⟨_, _, hround⟩)
      have hok : io = .ok := by
        cases io with
        | ok => rfl
        | seekError | transferError written => exact absurd trivial hreported
        | lateError written => exact hlands.elim
      obtain ⟨a, rfl, -, -⟩ := hactor rfl
      rw [if_neg hreported, hok, writtenOf, hget a rfl] at hround
      rw [hok, hget a rfl]
      exact Or.inr (Or.inr ⟨_, _, hround, rfl, hdisk.of_sameTable ⟨rfl, rfl, rfl⟩,
        h.write hdisk.separate hidx hspan⟩)
  · have hstop : jobStop disk job ≤ totalSize disk := by
      have hle := piece_le_totalLength hmeta.pieceLength_pos hlt
      have hpiece := hmanages.pieceLength_eq
      rw [MetaInfo.getPieceLength_eq hmeta hlt, Option.some.injEq] at hpiece
      unfold jobStop jobStart
      rw [hmanages.index_eq, hdisk.stdPieceLen_eq, hdisk.totalSize_eq, ← hpiece]
      exact hle
    refine Or.inl ⟨flushRound_done ?_ getData io, h.finish (jobCursor_end hidx hstop)⟩
    by_contra hspan
    exact absurd (flushSpanOf_ne_done hspan) hidx.ge.not_gt

theorem systemInv_flushRound (hmeta : torrent.rawTorrent.WellSized) {io : IoOutcome}
    (hs : SystemInv sha1 torrent options s) (hlands : WriteLands (.flushRound io))
    (h : s.flushRound io = some t) : SystemInv sha1 torrent options t := by
  obtain ⟨p, job, hf, ⟨hended, rfl⟩ | ⟨hruns, hmoves⟩⟩ := flushRound_event_eq_some h
  · refine ⟨hs.manager, hs.disk, hs.served, hs.connections, hs.announced, ?_, ?_⟩
    · intro f _ hruns
      rw [show s.diskEnded = false from hruns] at hended
      cases hended
    · rintro _ _ ⟨⟩ ⟨⟩
      exact hended
  have hdisk := hs.disk hruns
  have hget : ∀ a, s.pieceActor job.pieceManager.send = some a →
      s.getDataWithOffset job.pieceManager = a.getData := by
    intro a ha
    funext start stop
    unfold getDataWithOffset
    rw [ha]
  have hround := (hs.finishing _ hf hruns).round hmeta hdisk hget hlands
  rcases hmoves with ⟨disk, next, hnext, rfl⟩ | ⟨r, hreply, rfl⟩ | ⟨disk, next, hfailed, rfl⟩
  · rw [hnext] at hround
    obtain ⟨hcontra, -⟩ | ⟨_, _, hcontra⟩ | ⟨u, job', heq, hmgr, hdisk', hflush⟩ := hround
    · cases hcontra
    · cases hcontra
    · cases heq
      refine ⟨hs.manager, fun _ => hdisk', hs.served, hs.connections, hs.announced, ?_, ?_⟩
      · rintro _ ⟨⟩ -
        rw [hmgr]
        exact hflush
      · rintro _ _ ⟨⟩ ⟨⟩
  · rw [hreply] at hround
    obtain ⟨heq, hflush⟩ | ⟨_, _, hcontra⟩ | ⟨_, _, hcontra, -⟩ := hround
    · cases heq
      refine ⟨hs.manager, hs.disk, hs.served, hs.connections, hs.announced, ?_, ?_⟩
      · rintro _ ⟨⟩ -
        exact hflush
      · rintro _ _ ⟨⟩ ⟨⟩
        exact hruns
    · cases hcontra
    · cases hcontra
  · refine ⟨hs.manager, nofun, hs.served, hs.connections, hs.announced, fun _ _ => nofun, ?_⟩
    rintro _ _ ⟨⟩ ⟨⟩
    rfl

theorem systemInv_pieceFinishEnd (hs : SystemInv sha1 torrent options s)
    (h : s.pieceFinishEnd = some t) : SystemInv sha1 torrent options t := by
  obtain ⟨p, job, flushed, -, rfl⟩ := pieceFinishEnd_event_eq_some h
  have hmanager := managerInv_pieceFinishEnd p job.pieceManager.pieceLength flushed hs.manager
  cases flushed with
  | false => exact ⟨hmanager, hs.disk, hs.served, hs.connections, hs.announced, nofun, nofun⟩
  | true =>
    refine ⟨hmanager, hs.disk, hs.served, ?_, hs.announced, nofun, nofun⟩
    exact fun conn hconn => (hs.connections conn hconn).mono fun _ hmgr => hmgr

/-! ## Steps -/

/-- INTERNAL: every step keeps the invariant when a block spares what is awaited and no write is
lost without telling. -/
theorem systemInv_step (hmeta : torrent.rawTorrent.WellSized) {e : SystemEvent} {r : Unit}
    (hs : SystemInv sha1 torrent options s) (hcalm : Unharmed s e)
    (h : systemStep sha1 s e = some (t, r)) : SystemInv sha1 torrent options t := by
  obtain ⟨u, hu, heq⟩ := Option.map_eq_some_iff.mp h
  cases heq
  cases e with
  | connect peerId env => exact systemInv_connect hs hu
  | recv msg env => exact systemInv_recv hs hu
  | getDataWithLength pieceIndex offset length io env => exact systemInv_getDataWithLength hs hu
  | requestPiece c env => exact systemInv_requestPiece hs hu
  | insertRequest c => exact systemInv_insertRequest hs hu
  | countActive c env => exact systemInv_countActive hs hu
  | prune c => exact systemInv_prune hs hu
  | piece c pieceIndex blockOffset data => exact systemInv_piece hs hu
  | getPieceManager c env => exact systemInv_getPieceManager hs hu
  | blockRecived c => exact systemInv_blockRecived hs hcalm.1 hu
  | pieceFinish c => exact systemInv_pieceFinish hs hu
  | removeRequest c => exact systemInv_removeRequest hs hu
  | pieceActor send e => exact systemInv_pieceEvent hs hu
  | pieceFinishBegin k => exact systemInv_pieceFinishBegin hmeta hs hu
  | flushRound io => exact systemInv_flushRound hmeta hs hcalm.2 hu
  | pieceFinishEnd => exact systemInv_pieceFinishEnd hs hu

/-- INTERNAL: the first state of the system.
SOURCE: torrent_manager.rs:436-450 -/
theorem systemInv_new {fileSystem : FileSystem} {downloadPath : PathBuf}
    (hfiles : torrent.rawTorrent.localFiles = some torrent.files)
    (hseparate : Separate (entries fileSystem downloadPath torrent.files))
    (h : TorrentSystem.new torrent options fileSystem downloadPath = some s) :
    SystemInv sha1 torrent options s := by
  obtain ⟨manager, disk, diskEnded, hmanager, hdisk, rfl⟩ := system_new_eq_some h
  refine ⟨managerInv_new hmanager, fun hruns => diskOf_new hfiles (hdisk hruns) hseparate, ?_,
    nofun, nofun, nofun, nofun⟩
  intro p mgr hmgr
  rw [lookup_active_new hmanager p] at hmgr
  cases hmgr

end Steps

end Fissure.Analysis
