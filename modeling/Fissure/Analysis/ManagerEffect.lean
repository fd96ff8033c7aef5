import Fissure.Analysis.ManagerSteps
import Fissure.Analysis.RarityIndex

/-!
# What a handled message does to the manager

`ManagerEffect` says for each message that the manager handles which state it leads to, with one
constructor for each way in which a message can act: a bitfield is recorded on registration, on
a `Bitfield` or on a `Have`, a piece is assigned, assignments are timed out, a piece is finished,
or nothing changes. The invariants of the later modules go through these cases and do not look
at the handlers again.
-/

set_option autoImplicit false

namespace Fissure.Analysis

open Fissure.Library Fissure.Model
open Fissure.Model.TorrentManagerActor

instance (s : TorrentManagerActor) (p : ℕ) : Decidable (Owned s p) :=
  inferInstanceAs (Decidable (_ = true))

/-- Whether the bitfield recorded for peer `q` has piece `p`. -/
def hasPiece (s : TorrentManagerActor) (q : String) (p : ℕ) : Bool :=
  ((s.peerBitfields.lookup q).getD []).getD p false

theorem hasPiece_iff {s : TorrentManagerActor} {q : String} {p : ℕ} :
    hasPiece s q p = true ↔ Holds s q p := by
  unfold hasPiece Holds
  cases s.peerBitfields.lookup q with
  | none => simp
  | some b => simp

instance (s : TorrentManagerActor) (q : String) (p : ℕ) : Decidable (Holds s q p) :=
  decidable_of_iff _ hasPiece_iff

/-- The bitfield `b` of peer `q` announces a piece that is wanted and that the peer was not
known to have. -/
def Brings (s : TorrentManagerActor) (q : String) (b : Bitfield) (p : ℕ) : Prop :=
  ¬ Owned s p ∧ b.getD p false = true ∧ ¬ Holds s q p

instance (s : TorrentManagerActor) (q : String) (b : Bitfield) (p : ℕ) :
    Decidable (Brings s q b p) :=
  inferInstanceAs (Decidable (_ ∧ _))

/-- The frequencies after the bitfield `b` of peer `q` is counted: each piece it brings counts
once more, up to 255. -/
structure Counted (s : TorrentManagerActor) (q : String) (b : Bitfield) (freq : List ℕ) :
    Prop where
  length_eq : freq.length = s.piecesFrequency.length
  brought_lt : ∀ p, Brings s q b p → p < s.piecesFrequency.length
  getD_eq : ∀ p, freq.getD p 0 =
    if Brings s q b p then min (frequency s p + 1) 255 else frequency s p

/-! ## Counting a bitfield -/

/-- INTERNAL: one round of the loop over a bitfield skips the piece or raises its frequency.
SOURCE: torrent_manager.rs:71-91 -/
theorem countPiece_eq (q : String) (s : TorrentManagerActor) (idx : ℕ) :
    countPiece (s.peerBitfields.lookup q) s idx =
      if Owned s idx ∨ Holds s q idx then some s else s.raiseFrequency idx := by
  unfold countPiece
  by_cases hown : s.localBitfield.getD idx false = true
  · have howned : Owned s idx := hown
    rw [if_pos hown, if_pos (Or.inl howned)]
  have hnot : ¬ Owned s idx := hown
  rw [if_neg hown]
  cases hb : s.peerBitfields.lookup q with
  | none =>
    have hnone : ¬ Holds s q idx := by
      rintro ⟨b, hb', -⟩
      rw [hb] at hb'
      cases hb'
    rw [if_neg (not_or.mpr ⟨hnot, hnone⟩)]
    rfl
  | some b =>
    have hholds : Holds s q idx ↔ b.getD idx false = true := by
      rw [← hasPiece_iff, hasPiece, hb, Option.getD_some]
    by_cases hold : b.getD idx false = true
    · rw [if_pos (Or.inr (hholds.mpr hold))]
      simp only [hold, Bool.not_true, Bool.false_eq_true, if_false]
    · rw [if_neg (not_or.mpr ⟨hnot, mt hholds.mp hold⟩)]
      simp only [hold, Bool.not_false, if_true]

/-- INTERNAL: the loop over the ones of a bitfield. Each piece is visited once, so what was known
of it before the loop is what is known of it in its round. The induction is on the ones still to
visit.
SOURCE: torrent_manager.rs:67-93 -/
theorem foldlM_countPiece_eq_some {s t : TorrentManagerActor} {q : String} {l : List ℕ}
    (hl : l.Nodup) (h : l.foldlM (countPiece (s.peerBitfields.lookup q)) s = some t) :
    SameButRarity s t ∧ t.piecesFrequency.length = s.piecesFrequency.length ∧
      ∀ p, (p ∈ l ∧ ¬ Owned s p ∧ ¬ Holds s q p →
        p < s.piecesFrequency.length ∧ frequency t p = min (frequency s p + 1) 255) ∧
        (¬ (p ∈ l ∧ ¬ Owned s p ∧ ¬ Holds s q p) → frequency t p = frequency s p) := by
  induction l generalizing s with
  | nil =>
    cases h
    exact ⟨rfl, rfl, by simp⟩
  | cons idx l ih =>
    rw [List.nodup_cons] at hl
    rw [List.foldlM_cons, Option.bind_eq_bind, Option.bind_eq_some_iff] at h
    obtain ⟨u, hu, h⟩ := h
    rw [countPiece_eq] at hu
    by_cases hskip : Owned s idx ∨ Holds s q idx
    · rw [if_pos hskip] at hu
      cases hu
      obtain ⟨hrest, hlen, hall⟩ := ih hl.2 h
      refine ⟨hrest, hlen, fun p => ?_⟩
      have hp : p ∈ idx :: l ∧ ¬ Owned s p ∧ ¬ Holds s q p ↔
          p ∈ l ∧ ¬ Owned s p ∧ ¬ Holds s q p := by
        rw [List.mem_cons, ← not_or]
        constructor
        · rintro ⟨rfl | hp, hnot⟩
          · exact absurd hskip hnot
          · exact ⟨hp, hnot⟩
        · rintro ⟨hp, hnot⟩
          exact ⟨Or.inr hp, hnot⟩
      rw [hp]
      exact hall p
    · rw [if_neg hskip] at hu
      obtain ⟨hlt, hrest, hlen, hfreq, -⟩ := raiseFrequency_eq_some hu
      rw [← hrest.peerBitfields] at h
      obtain ⟨hrest', hlen', hall⟩ := ih hl.2 h
      refine ⟨hrest.trans hrest', hlen'.trans hlen, fun p => ?_⟩
      have howned : Owned u p ↔ Owned s p := by unfold Owned; rw [hrest.localBitfield]
      have hholds : Holds u q p ↔ Holds s q p := by unfold Holds; rw [hrest.peerBitfields]
      have hp := hall p
      rw [howned, hholds, hlen, hfreq] at hp
      by_cases hpi : p = idx
      · -- the rest of the list does not visit the piece again
        subst hpi
        rw [if_pos rfl] at hp
        rw [not_or] at hskip
        have hrestEq := hp.2 fun hmem => hl.1 hmem.1
        exact ⟨fun _ => ⟨hlt, hrestEq⟩, fun hnot => absurd ⟨List.mem_cons_self, hskip⟩ hnot⟩
      · rw [if_neg hpi] at hp
        rw [List.mem_cons, or_iff_right hpi]
        exact hp

/-- INTERNAL: visiting the pieces that `b` announces and that the peer was not known to have
counts the bitfield `b`. -/
theorem counted_of_foldlM {s t : TorrentManagerActor} {q : String} {b : Bitfield} {l : List ℕ}
    (hl : l.Nodup) (hmem : ∀ p, ¬ Holds s q p → (p ∈ l ↔ b.getD p false = true))
    (h : l.foldlM (countPiece (s.peerBitfields.lookup q)) s = some t) :
    SameButRarity s t ∧ Counted s q b t.piecesFrequency := by
  obtain ⟨hrest, hlen, hall⟩ := foldlM_countPiece_eq_some hl h
  have hiff (p : ℕ) : p ∈ l ∧ ¬ Owned s p ∧ ¬ Holds s q p ↔ Brings s q b p := by
    unfold Brings
    constructor
    · rintro ⟨hp, hnot, hnew⟩
      exact ⟨hnot, (hmem p hnew).mp hp, hnew⟩
    · rintro ⟨hnot, hp, hnew⟩
      exact ⟨(hmem p hnew).mpr hp, hnot, hnew⟩
  simp only [hiff] at hall
  refine ⟨hrest, hlen, fun p hp => ((hall p).1 hp).1, fun p => ?_⟩
  split_ifs with hp
  · exact ((hall p).1 hp).2
  · exact (hall p).2 hp

/-- INTERNAL: counting a bitfield changes the frequencies of the pieces it brings.
SOURCE: torrent_manager.rs:67-93 -/
theorem updateFreqBitfield_eq_some {s t : TorrentManagerActor} {q : String} {b : Bitfield}
    (h : s.updateFreqBitfield b q = some t) :
    SameButRarity s t ∧ Counted s q b t.piecesFrequency :=
  counted_of_foldlM (Bitfield.nodup_iterOnes b) (fun _ _ => Bitfield.mem_iterOnes) h

theorem foldlM_countPiece_isSome {s : TorrentManagerActor} (q : String) {l : List ℕ}
    (hl : ∀ p ∈ l, p < s.piecesFrequency.length) :
    ∃ t, l.foldlM (countPiece (s.peerBitfields.lookup q)) s = some t := by
  induction l generalizing s with
  | nil => exact ⟨s, rfl⟩
  | cons idx l ih =>
    rw [List.forall_mem_cons] at hl
    rw [List.foldlM_cons, countPiece_eq]
    split_ifs with hskip
    · exact ih hl.2
    · obtain ⟨u, hu⟩ : ∃ u, s.raiseFrequency idx = some u := by
        unfold raiseFrequency
        rw [List.getElem?_eq_getElem hl.1]
        exact ⟨_, rfl⟩
      obtain ⟨-, hrest, hlen, -⟩ := raiseFrequency_eq_some hu
      rw [hu, Option.bind_eq_bind, Option.bind_some, ← hrest.peerBitfields]
      apply ih
      rw [hlen]
      exact hl.2

/-- INTERNAL: a `Have` counts like the bitfield with one bit more.
SOURCE: torrent_manager.rs:95-112 -/
theorem counted_updateBitField {s u : TorrentManagerActor} {q : String} {i : ℕ} {b : Bitfield}
    (hb : s.peerBitfields.lookup q = some b) (hi : i < b.length)
    (h : (Owned s i ∨ b.getD i false = true) ∧ u = s ∨
      ¬ Owned s i ∧ b.getD i false ≠ true ∧ s.raiseFrequency i = some u) :
    SameButRarity s u ∧ Counted s q (b.set i true) u.piecesFrequency := by
  have hholds (p : ℕ) : Holds s q p ↔ b.getD p false = true := by
    rw [← hasPiece_iff, hasPiece, hb, Option.getD_some]
  have hone : [i].foldlM (countPiece (s.peerBitfields.lookup q)) s = some u := by
    rw [List.foldlM_cons, countPiece_eq]
    rcases h with ⟨hskip, rfl⟩ | ⟨hnot, hnew, hu⟩
    · rw [← hholds] at hskip
      rw [if_pos hskip]
      rfl
    · rw [ne_eq, ← hholds] at hnew
      rw [if_neg (not_or.mpr ⟨hnot, hnew⟩), hu]
      rfl
  refine counted_of_foldlM (List.nodup_singleton i) (fun p hnew => ?_) hone
  rw [hholds] at hnew
  rw [List.mem_singleton, Bitfield.getD_set hi]
  split_ifs with hip
  · exact iff_of_true hip.symm rfl
  · exact iff_of_false (Ne.symm hip) hnew

/-! ## All messages -/

/-- The state `s` once peer `q` has recorded the bitfield `b`. -/
def record (s : TorrentManagerActor) (q : String) (b : Bitfield) (freq : List ℕ)
    (bucket : Fin 256 → Finset ℕ) (work : HashMap String (List (ℕ × Instant))) :
    TorrentManagerActor :=
  { s with
    piecesFrequency := freq
    rarityBucket := bucket
    peerBitfields := s.peerBitfields.insert q b
    peerActiveWork := work }

/-- The state `s` once piece `p` is claimed. -/
def claim (s : TorrentManagerActor) (p : ℕ) (stats : TorrentStats) (log : List ℕ)
    (notifier : ℕ) : TorrentManagerActor :=
  { s with
    localBitfield := s.localBitfield.set p true
    rarityBucket := Function.update s.rarityBucket (bucketOf (frequency s p))
      ((s.rarityBucket (bucketOf (frequency s p))).erase p)
    piecesFrequency := s.piecesFrequency.set p 0
    pieceConcurrencyCounts := s.pieceConcurrencyCounts.erase p
    peerActiveWork := retainWork (retainWork s.peerActiveWork p) p
    activePiecesManager := s.activePiecesManager.erase p
    stats := stats
    downloadedPieceIndex := log
    peerNotifier := notifier }

theorem owned_claim {s : TorrentManagerActor} {p : ℕ} (hlt : p < s.localBitfield.length)
    {stats : TorrentStats} {log : List ℕ} {notifier : ℕ} (p' : ℕ) :
    Owned (claim s p stats log notifier) p' ↔ p' = p ∨ Owned s p' := by
  unfold Owned claim
  rw [Bitfield.getD_set hlt]
  split_ifs with hp
  · simp [hp]
  · simp [Ne.symm hp]

theorem frequency_claim {s : TorrentManagerActor} {p p' : ℕ} (hne : p' ≠ p)
    (stats : TorrentStats) (log : List ℕ) (notifier : ℕ) :
    frequency (claim s p stats log notifier) p' = frequency s p' := by
  unfold frequency claim
  rw [List.getD_eq_getElem?_getD, List.getElem?_set_ne (Ne.symm hne),
    ← List.getD_eq_getElem?_getD]

/-- The log and the watch channel after piece `p` is claimed: the piece is logged exactly when
its manager is found and its flush succeeds. -/
def Logged (s : TorrentManagerActor) (p : ℕ) (flushed : Bool) (log : List ℕ) (notifier : ℕ) :
    Prop :=
  if p ∈ s.activePiecesManager ∧ flushed = true then
    log = s.downloadedPieceIndex ++ [p % 2 ^ 32] ∧ notifier = log.length
  else log = s.downloadedPieceIndex ∧ notifier = s.peerNotifier

/-- What a time-out query at the instant `now` keeps of a work list. -/
def keptWork (s : TorrentManagerActor) (now : Instant) (work : List (ℕ × Instant)) :
    List (ℕ × Instant) :=
  inTime s.localBitfield (fromSecs s.peerOptions.pieceRequestTimeout) now work

/-- The pieces of a work list that a time-out query at the instant `now` gives back. -/
def releasedPieces (s : TorrentManagerActor) (now : Instant) (work : List (ℕ × Instant)) :
    List ℕ :=
  givenBack s.localBitfield (fromSecs s.peerOptions.pieceRequestTimeout) now work

/-- What a message that is handled does. -/
inductive ManagerEffect (s : TorrentManagerActor) (env : Env) :
    TorrentManagerMessage → TorrentManagerActor → TorrentManagerReply → Prop
  | registered {q : String} {b : Bitfield} {freq : List ℕ} {bucket : Fin 256 → Finset ℕ}
      (hcounted : Counted s q b freq) :
      ManagerEffect s env (.addPeer q b)
        (record s q b freq bucket (s.peerActiveWork.insert q [])) (.bitfield s.localBitfield)
  | announced {q : String} {b : Bitfield} {freq : List ℕ} {bucket : Fin 256 → Finset ℕ}
      (hcounted : Counted s q b freq) :
      ManagerEffect s env (.addBitFeild q b) (record s q b freq bucket s.peerActiveWork) .none
  | had {q : String} {i : ℕ} {b : Bitfield} {freq : List ℕ} {bucket : Fin 256 → Finset ℕ}
      (hb : s.peerBitfields.lookup q = some b) (hi : i < b.length)
      (hcounted : Counted s q (b.set i true) freq) :
      ManagerEffect s env (.updateBitField q i)
        (record s q (b.set i true) freq bucket s.peerActiveWork) .none
  | assigned {q : String} {b : Bitfield} {p count : ℕ} {work : List (ℕ × Instant)}
      {m : PieceRequestManager} (hb : s.peerBitfields.lookup q = some b)
      (hfind : (s.bucketsInOrder env.order).find? (s.selectable q b) = some p)
      (hcount : s.pieceConcurrencyCounts.lookup p = some count)
      (hwork : s.peerActiveWork.lookup q = some work) (hm : ManagerOf s p env.fresh m) :
      ManagerEffect s env (.requestWork q)
        { s with
          activePiecesManager := s.activePiecesManager.insert p m
          pieceConcurrencyCounts := s.pieceConcurrencyCounts.insert p (count + 1)
          peerActiveWork := s.peerActiveWork.insert q (work ++ [(p, env.now)]) }
        (.work (some m))
  | expired {q : String} {work : List (ℕ × Instant)}
      (hwork : s.peerActiveWork.lookup q = some work) :
      ManagerEffect s env (.updateAndGetActiveRequestCount q)
        { s with
          peerActiveWork := s.peerActiveWork.insert q (keptWork s env.now work)
          pieceConcurrencyCounts :=
            (releasedPieces s env.now work).foldl releaseCount s.pieceConcurrencyCounts }
        (.activeWork (some (keptWork s env.now work)))
  | finished {q : String} {p notifier : ℕ} {stats : TorrentStats} {log : List ℕ}
      (hlt : p < s.localBitfield.length) (hnot : ¬ Owned s p)
      (hlog : Logged s p env.flushed log notifier) :
      ManagerEffect s env (.pieceFinish q p) (claim s p stats log notifier) .none
  | unchanged {msg : TorrentManagerMessage} {r : TorrentManagerReply}
      (hmsg : ∀ q b i, msg ≠ .addPeer q b ∧ msg ≠ .addBitFeild q b ∧ msg ≠ .updateBitField q i)
      (hfinish : ∀ q p, msg = .pieceFinish q p → Owned s p)
      (hr : ∀ m, r ≠ .work (some m))
      (huntracked : ∀ q, msg = .updateAndGetActiveRequestCount q → q ∉ s.peerActiveWork) :
      ManagerEffect s env msg s r

theorem managerEffect_addPeer {s t : TorrentManagerActor} {q : String} {b b' : Bitfield}
    (env : Env) (h : s.addPeer q b = some (t, b')) :
    ManagerEffect s env (.addPeer q b) t (.bitfield b') := by
  unfold addPeer at h
  simp only [Option.bind_eq_bind, Option.bind_eq_some_iff, Option.some.injEq, Prod.mk.injEq] at h
  obtain ⟨u, hu, rfl, rfl⟩ := h
  obtain ⟨hrest, hcounted⟩ := updateFreqBitfield_eq_some hu
  rw [hrest]
  exact .registered hcounted

theorem managerEffect_addBitFeild {s t : TorrentManagerActor} {q : String} {b : Bitfield}
    (env : Env) (h : s.addBitFeild q b = some t) :
    ManagerEffect s env (.addBitFeild q b) t .none := by
  unfold addBitFeild at h
  simp only [Option.bind_eq_bind, Option.bind_eq_some_iff, Option.some.injEq] at h
  obtain ⟨u, hu, rfl⟩ := h
  obtain ⟨hrest, hcounted⟩ := updateFreqBitfield_eq_some hu
  rw [hrest]
  exact .announced hcounted

theorem managerEffect_updateBitField {s t : TorrentManagerActor} {q : String} {i : ℕ}
    (env : Env) (h : s.updateBitField q i = some t) :
    ManagerEffect s env (.updateBitField q i) t .none := by
  obtain ⟨b, u, hb, hi, hcount, rfl⟩ := updateBitField_eq_some h
  obtain ⟨hrest, hcounted⟩ := counted_updateBitField hb hi hcount
  rw [hrest]
  exact .had hb hi hcounted

theorem managerEffect_requestWork {s t : TorrentManagerActor} {q : String} {env : Env}
    {manager : Option PieceRequestManager} (h : s.requestWork q env = some (t, manager)) :
    ManagerEffect s env (.requestWork q) t (.work manager) := by
  rcases requestWork_eq_some h with ⟨rfl, rfl, -⟩ | ⟨b, p, m, hb, hfind, hassign, rfl⟩
  · exact .unchanged (by simp) nofun (by simp) nofun
  · obtain ⟨count, work, hcount, hwork, hm, rfl⟩ := assign_eq_some_iff.mp hassign
    exact .assigned hb hfind hcount hwork hm

theorem managerEffect_updateAndGetActiveRequestCount {s t : TorrentManagerActor} {q : String}
    {env : Env} {reply : Option (List (ℕ × Instant))}
    (h : s.updateAndGetActiveRequestCount q env.now = some (t, reply)) :
    ManagerEffect s env (.updateAndGetActiveRequestCount q) t (.activeWork reply) := by
  rcases updateAndGetActiveRequestCount_eq_some h with ⟨hwork, rfl⟩ |
    ⟨work, kept, hwork, rfl, rfl, rfl⟩
  · refine .unchanged (by simp) nofun (by simp) ?_
    rintro _ ⟨⟩
    exact Finmap.lookup_eq_none.mp hwork
  · exact .expired hwork

theorem managerEffect_pieceFinish {s t : TorrentManagerActor} {q : String} {p : ℕ} {env : Env}
    (h : s.pieceFinish p env.flushed = some t) :
    ManagerEffect s env (.pieceFinish q p) t .none := by
  unfold pieceFinish at h
  simp only [Option.bind_eq_bind, Option.bind_eq_some_iff, Prod.exists] at h
  obtain ⟨u, manager, hu, h⟩ := h
  obtain ⟨hlt, ⟨hown, rfl, rfl⟩ | ⟨hnot, rfl, rfl⟩⟩ := pieceFinishBegin_eq_some hu
  · cases h
    refine .unchanged (by simp) ?_ (by simp) nofun
    rintro _ _ ⟨⟩
    exact hown
  cases hm : s.activePiecesManager.lookup p with
  | none =>
    rw [hm] at h
    cases h
    refine .finished hlt hnot ?_
    unfold Logged
    rw [if_neg fun hflush => Finmap.lookup_eq_none.mp hm hflush.1]
    exact ⟨rfl, rfl⟩
  | some m =>
    rw [hm] at h
    cases h
    have hmem := Finmap.mem_of_lookup_eq_some hm
    unfold pieceFinishEnd
    split_ifs with hflushed
    · refine .finished hlt hnot ?_
      unfold Logged
      rw [if_pos ⟨hmem, hflushed⟩]
      exact ⟨rfl, rfl⟩
    · refine .finished hlt hnot ?_
      unfold Logged
      rw [if_neg fun hflush => hflushed hflush.2]
      exact ⟨rfl, rfl⟩

/-- INTERNAL: what every message that is handled does.
SOURCE: torrent_manager.rs:113-364 -/
theorem managerEffect {s t : TorrentManagerActor} {msg : TorrentManagerMessage} {env : Env}
    {r : TorrentManagerReply} (h : managerStep s (msg, env) = some (t, r)) :
    ManagerEffect s env msg t r := by
  cases msg with
  | addPeer q b =>
    obtain ⟨⟨u, b'⟩, hu, heq⟩ := Option.map_eq_some_iff.mp h
    cases heq
    exact managerEffect_addPeer env hu
  | updateBitField q i =>
    obtain ⟨u, hu, heq⟩ := Option.map_eq_some_iff.mp h
    cases heq
    exact managerEffect_updateBitField env hu
  | addBitFeild q b =>
    obtain ⟨u, hu, heq⟩ := Option.map_eq_some_iff.mp h
    cases heq
    exact managerEffect_addBitFeild env hu
  | pieceFinish q p =>
    obtain ⟨u, hu, heq⟩ := Option.map_eq_some_iff.mp h
    cases heq
    exact managerEffect_pieceFinish hu
  | requestWork q =>
    obtain ⟨⟨u, m⟩, hu, heq⟩ := Option.map_eq_some_iff.mp h
    cases heq
    exact managerEffect_requestWork hu
  | updateAndGetActiveRequestCount q =>
    obtain ⟨⟨u, work⟩, hu, heq⟩ := Option.map_eq_some_iff.mp h
    cases heq
    exact managerEffect_updateAndGetActiveRequestCount hu
  | hasUsefulPieces q =>
    obtain ⟨b, -, heq⟩ := Option.map_eq_some_iff.mp h
    cases heq
    exact .unchanged (by simp) nofun (by simp) nofun
  | getHaveMessageProgress since =>
    obtain ⟨l, -, heq⟩ := Option.map_eq_some_iff.mp h
    cases heq
    exact .unchanged (by simp) nofun (by simp) nofun
  | removePeer q | getTorrentStats | getActivePeers | getDataWithLength | getPieceManager =>
    cases h
    exact .unchanged (by simp) nofun (by simp) nofun

/-- INTERNAL: a piece that the search finds is assigned when it has a count and a manager and the
peer has a work list.
SOURCE: torrent_manager.rs:187-224 -/
theorem managerStep_assigned {s : TorrentManagerActor} {q : String} {env : Env} {b : Bitfield}
    {p count : ℕ} {work : List (ℕ × Instant)} {m : PieceRequestManager}
    (hb : s.peerBitfields.lookup q = some b)
    (hfind : (s.bucketsInOrder env.order).find? (s.selectable q b) = some p)
    (hcount : s.pieceConcurrencyCounts.lookup p = some count)
    (hwork : s.peerActiveWork.lookup q = some work) (hm : ManagerOf s p env.fresh m) :
    managerStep s (.requestWork q, env) = some ({ s with
      activePiecesManager := s.activePiecesManager.insert p m
      pieceConcurrencyCounts := s.pieceConcurrencyCounts.insert p (count + 1)
      peerActiveWork := s.peerActiveWork.insert q (work ++ [(p, env.now)]) },
      .work (some m)) := by
  have hassign : s.assign q p env.now env.fresh = some (_, m) :=
    assign_eq_some_iff.mpr ⟨count, work, hcount, hwork, hm, rfl⟩
  change (s.requestWork q env).map _ = _
  unfold requestWork
  simp only [hb, hfind]
  rw [hassign]
  rfl

/-- INTERNAL: a piece that is owned stays owned. -/
theorem owned_of_step {s t : TorrentManagerActor} {e : TorrentManagerMessage × Env}
    {r : TorrentManagerReply} (h : managerStep s e = some (t, r)) {p : ℕ} (hp : Owned s p) :
    Owned t p := by
  obtain ⟨msg, env⟩ := e
  cases managerEffect h with
  | finished hlt => exact (owned_claim hlt p).mpr (Or.inr hp)
  | _ => exact hp

end Fissure.Analysis
