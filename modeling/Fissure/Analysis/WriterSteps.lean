import Fissure.Analysis.ManagerEffect
import Fissure.Model.HaveWriter

/-!
# What one step of a writer does

`WriterMove` says for each event of a writer which state it leads to. Later modules go through its
cases and do not look at `writerStep` again. Of the manager they need what a message does to the
log of persisted pieces (`logMove`).
-/

set_option autoImplicit false

namespace Fissure.Analysis

open Fissure.Library Fissure.Model
open Fissure.Model.TorrentManagerActor

/-! ## The log -/

/-- The piece that is persisted when the manager handles the message. -/
def persisted (s : TorrentManagerActor) (env : Env) : TorrentManagerMessage → Option ℕ
  | .pieceFinish _ p =>
    if ¬ Owned s p ∧ p ∈ s.activePiecesManager ∧ env.flushed = true then some p else none
  | _ => none

/-- What a message does to the log: nothing, or it appends the piece it persists, which is owned
then. -/
def LogMove (s t : TorrentManagerActor) (persists : Option ℕ) : Prop :=
  match persists with
  | none => t.downloadedPieceIndex = s.downloadedPieceIndex ∧ t.peerNotifier = s.peerNotifier
  | some p => t.downloadedPieceIndex = s.downloadedPieceIndex ++ [p % 2 ^ 32] ∧
      t.peerNotifier = t.downloadedPieceIndex.length ∧ Owned t p

theorem persisted_eq_some {s : TorrentManagerActor} {env : Env} {p : ℕ} (q : String)
    (h : ¬ Owned s p ∧ p ∈ s.activePiecesManager ∧ env.flushed = true) :
    persisted s env (.pieceFinish q p) = some p := if_pos h

theorem persisted_eq_none {s : TorrentManagerActor} {env : Env} {p : ℕ} (q : String)
    (h : ¬ (¬ Owned s p ∧ p ∈ s.activePiecesManager ∧ env.flushed = true)) :
    persisted s env (.pieceFinish q p) = none := if_neg h

/-- INTERNAL: only the persisting of a piece touches the log and the watch channel.
SOURCE: torrent_manager.rs:238-272 -/
theorem logMove {s t : TorrentManagerActor} {msg : TorrentManagerMessage} {env : Env}
    {r : TorrentManagerReply} (h : managerStep s (msg, env) = some (t, r)) :
    LogMove s t (persisted s env msg) := by
  cases managerEffect h with
  | registered | announced | had | assigned | expired => exact ⟨rfl, rfl⟩
  | @finished q p notifier stats log hlt hnot hlog =>
    unfold Logged at hlog
    split_ifs at hlog with hflush
    · obtain ⟨rfl, rfl⟩ := hlog
      rw [persisted_eq_some q ⟨hnot, hflush⟩]
      exact ⟨rfl, rfl, (owned_claim hlt p).mpr (Or.inl rfl)⟩
    · obtain ⟨rfl, rfl⟩ := hlog
      rw [persisted_eq_none q fun hall => hflush hall.2]
      exact ⟨rfl, rfl⟩
  | unchanged hmsg hfinish =>
    cases msg with
    | pieceFinish q p =>
      rw [persisted_eq_none q fun hall => hall.1 (hfinish q p rfl)]
      exact ⟨rfl, rfl⟩
    | _ => exact ⟨rfl, rfl⟩

/-- The log of persisted pieces, which grows from `s` to `t` by `new`. -/
structure LogGrows (s t : TorrentManagerActor) (new : List ℕ) : Prop where
  log : t.downloadedPieceIndex = s.downloadedPieceIndex ++ new
  notifier : s.peerNotifier = s.downloadedPieceIndex.length →
    t.peerNotifier = t.downloadedPieceIndex.length

/-- INTERNAL: a message lets the log grow by the piece it persists. -/
theorem logGrows {s t : TorrentManagerActor} {msg : TorrentManagerMessage} {env : Env}
    {r : TorrentManagerReply} (h : managerStep s (msg, env) = some (t, r)) :
    LogGrows s t ((persisted s env msg).toList.map (· % 2 ^ 32)) := by
  have hmove := logMove h
  cases hpersisted : persisted s env msg with
  | none =>
    rw [hpersisted] at hmove
    obtain ⟨hlog, hnotifier⟩ := hmove
    refine ⟨by simp [hlog], fun hlength => ?_⟩
    rw [hlog, hnotifier, hlength]
  | some p =>
    rw [hpersisted] at hmove
    obtain ⟨hlog, hnotifier, -⟩ := hmove
    exact ⟨hlog, fun _ => hnotifier⟩

/-! ## The writer -/

/-- What an event that happens does. -/
inductive WriterMove (s : HaveWriter) : WriterEvent → HaveWriter → Prop
  | recv {msg : TorrentManagerMessage} {env : Env} {manager : TorrentManagerActor}
      {r : TorrentManagerReply} (h : managerStep s.manager (msg, env) = some (manager, r)) :
      WriterMove s (.recv msg env) { s with manager }
  | register {peerId : String} {env : Env} {manager : TorrentManagerActor} {b : Bitfield}
      (hphase : s.phase = .unregistered)
      (h : managerStep s.manager (.addPeer peerId [], env) = some (manager, .bitfield b)) :
      WriterMove s (.register peerId env) { s with manager, phase := .starting b }
  | sendBitfield {b : Bitfield} (hphase : s.phase = .starting b) :
      WriterMove s (.sendBitfield true)
        { s with phase := .looking, sent := s.sent ++ [.bitfield b] }
  | look (hphase : s.phase = .looking) :
      WriterMove s .look
        { s with phase := .waiting s.manager.peerNotifier, seen := s.manager.peerNotifier }
  | wake {lastSeen : ℕ} (hphase : s.phase = .waiting lastSeen)
      (hseen : s.seen ≠ s.manager.peerNotifier) :
      WriterMove s .wake { s with phase := .woken lastSeen, seen := s.manager.peerNotifier }
  | readLen {lastSeen : ℕ} (hphase : s.phase = .woken lastSeen) :
      WriterMove s .readLen
        { s with phase := .asking lastSeen s.manager.peerNotifier, seen := s.manager.peerNotifier }
  | askProgress {lastSeen currentLen : ℕ} {env : Env}
      (hphase : s.phase = .asking lastSeen currentLen)
      (hle : lastSeen ≤ s.manager.downloadedPieceIndex.length) :
      WriterMove s (.askProgress env)
        { s with phase := .announcing currentLen (s.manager.downloadedPieceIndex.drop lastSeen) }
  | sendHave {currentLen pieceIndex : ℕ} {newPieces : List ℕ}
      (hphase : s.phase = .announcing currentLen (pieceIndex :: newPieces)) :
      WriterMove s (.sendHave true)
        { s with phase := .announcing currentLen newPieces, sent := s.sent ++ [.have pieceIndex] }
  | storeLastSeen {currentLen : ℕ} (hphase : s.phase = .announcing currentLen []) :
      WriterMove s .storeLastSeen { s with phase := .waiting currentLen }
  | ended {e : WriterEvent} (he : e = .sendBitfield false ∨ e = .sendHave false ∨ e = .ends) :
      WriterMove s e { s with phase := .ended }

/-- INTERNAL: everything a step of the writer does.
SOURCE: peer_protocol_state_machine.rs:165-284 -/
theorem writerMove {s t : HaveWriter} {e : WriterEvent} {r : Unit}
    (h : writerStep s e = some (t, r)) : WriterMove s e t := by
  obtain ⟨u, hu, heq⟩ := Option.map_eq_some_iff.mp h
  cases heq
  cases e with
  | recv msg env =>
    change s.recv msg env = some t at hu
    unfold HaveWriter.recv at hu
    simp only [Option.bind_eq_bind, Option.bind_eq_some_iff, Option.some.injEq] at hu
    obtain ⟨⟨manager, reply⟩, hmanager, rfl⟩ := hu
    exact .recv hmanager
  | register peerId env =>
    change s.register peerId env = some t at hu
    unfold HaveWriter.register at hu
    split at hu
    · next hphase =>
      simp only [Option.bind_eq_bind, Option.bind_eq_some_iff] at hu
      obtain ⟨⟨manager, reply⟩, hmanager, hu⟩ := hu
      cases reply with
      | bitfield b =>
        cases hu
        exact .register hphase hmanager
      | _ => cases hu
    · cases hu
  | sendBitfield ok =>
    change s.sendBitfield ok = some t at hu
    unfold HaveWriter.sendBitfield at hu
    split at hu
    · next b hphase =>
      cases ok with
      | true =>
        cases hu
        exact .sendBitfield hphase
      | false =>
        cases hu
        exact .ended (Or.inl rfl)
    · cases hu
  | look =>
    change s.look = some t at hu
    unfold HaveWriter.look at hu
    split at hu
    · next hphase =>
      cases hu
      exact .look hphase
    · cases hu
  | wake =>
    change s.wake = some t at hu
    unfold HaveWriter.wake at hu
    split at hu
    · next lastSeen hphase =>
      split_ifs at hu with hseen
      cases hu
      exact .wake hphase hseen
    · cases hu
  | readLen =>
    change s.readLen = some t at hu
    unfold HaveWriter.readLen at hu
    split at hu
    · next lastSeen hphase =>
      cases hu
      exact .readLen hphase
    · cases hu
  | askProgress env =>
    change s.askProgress env = some t at hu
    unfold HaveWriter.askProgress at hu
    split at hu
    · next lastSeen currentLen hphase =>
      simp only [Option.bind_eq_bind, Option.bind_eq_some_iff] at hu
      obtain ⟨⟨manager, reply⟩, hmanager, hu⟩ := hu
      obtain ⟨newPieces, hprogress, heq⟩ := Option.map_eq_some_iff.mp hmanager
      cases heq
      cases hu
      unfold getHaveMessageProgress at hprogress
      split_ifs at hprogress with hle
      cases hprogress
      exact .askProgress hphase hle
    · cases hu
  | sendHave ok =>
    change s.sendHave ok = some t at hu
    unfold HaveWriter.sendHave at hu
    split at hu
    · next currentLen pieceIndex newPieces hphase =>
      cases ok with
      | true =>
        cases hu
        exact .sendHave hphase
      | false =>
        cases hu
        exact .ended (Or.inr (Or.inl rfl))
    · cases hu
  | storeLastSeen =>
    change s.storeLastSeen = some t at hu
    unfold HaveWriter.storeLastSeen at hu
    split at hu
    · next currentLen hphase =>
      cases hu
      exact .storeLastSeen hphase
    · cases hu
  | ends =>
    cases hu
    exact .ended (Or.inr (Or.inr rfl))

/-! ## All connections -/

/-- What an event of the manager and the writers of all connections does. -/
inductive WritersMove (s : HaveWriters) : WritersEvent → HaveWriters → Prop
  | connect : WritersMove s .connect s.connect
  | recv {msg : TorrentManagerMessage} {env : Env} {manager : TorrentManagerActor}
      {r : TorrentManagerReply} (h : managerStep s.manager (msg, env) = some (manager, r)) :
      WritersMove s (.recv msg env) { s with manager }
  | writer {c : ℕ} {e : WriterEvent} {w : WriterState} {t : HaveWriter}
      (hw : s.writers[c]? = some w) (hown : ∀ msg env, e ≠ .recv msg env)
      (hmove : WriterMove (s.view w) e t) :
      WritersMove s (.writer c e) ⟨t.manager, s.writers.set c ⟨t.phase, t.seen, t.sent⟩⟩

/-- INTERNAL: everything a step of the manager and the writers does. -/
theorem writersMove {s t : HaveWriters} {e : WritersEvent} {r : Unit}
    (h : writersStep s e = some (t, r)) : WritersMove s e t := by
  obtain ⟨u, hu, heq⟩ := Option.map_eq_some_iff.mp h
  cases heq
  cases e with
  | connect =>
    cases hu
    exact .connect
  | recv msg env =>
    change s.recv msg env = some t at hu
    unfold HaveWriters.recv at hu
    simp only [Option.bind_eq_bind, Option.bind_eq_some_iff, Option.some.injEq] at hu
    obtain ⟨⟨manager, reply⟩, hmanager, rfl⟩ := hu
    exact .recv hmanager
  | writer c e =>
    change s.writer c e = some t at hu
    unfold HaveWriters.writer at hu
    split at hu
    · cases hu
    · next hown =>
      simp only [Option.bind_eq_bind, Option.bind_eq_some_iff, Option.some.injEq] at hu
      obtain ⟨w, hw, ⟨v, reply⟩, hstep, rfl⟩ := hu
      exact .writer hw (fun msg env heq => hown msg env heq) (writerMove hstep)

end Fissure.Analysis
