import Fissure.Analysis.ManagerInvariant

/-!
# How many peers have a piece

The rarity index is exact in every state a run reaches (`rarity_index_of_run`). What it indexes is
the number of peers that have a piece, counted up to 255 when a bitfield is recorded. Nothing is
ever counted down: a bitfield that replaces one with more pieces leaves the frequencies where
they were. So the frequencies are the numbers of peers along exactly those runs in which no
recorded bitfield is replaced by one without some wanted piece of it (`accurate_iff`), and a peer
that connects twice is enough to count twice (`reconnected_counted_twice`).
-/

set_option autoImplicit false

namespace Fissure.Analysis

open Fissure.Library Fissure.Model
open Fissure.Model.TorrentManagerActor

variable {torrent : ClientTorrentMetaInfo} {options : PeerOptions}

/-! ## The rarity index -/

/-- **Rarity index.** In every state a run of the manager reaches: a piece is in the bucket of a
frequency exactly when it is not owned and that is its frequency, which is positive; frequencies
are at most 255, zero for an owned piece, and positive for a wanted piece that some recorded
bitfield has; so each piece is in one bucket at most, and a wanted piece that some peer has is in
one.
SOURCE: torrent_manager.rs:67-112, torrent_manager.rs:238-256 -/
theorem rarity_index_of_run {s₀ s : TorrentManagerActor}
    {es : List (TorrentManagerMessage × Env)}
    (hnew : TorrentManagerActor.new torrent options = some s₀)
    (hrun : run managerStep s₀ es = some s) (p : ℕ) :
    (∀ f, p ∈ s.rarityBucket f ↔ f.val = frequency s p ∧ 1 ≤ f.val ∧ ¬ Owned s p) ∧
      frequency s p ≤ 255 ∧ (Owned s p → frequency s p = 0) ∧
      (∀ q, Holds s q p → ¬ Owned s p → 1 ≤ frequency s p) ∧
      (∀ f f', p ∈ s.rarityBucket f → p ∈ s.rarityBucket f' → f = f') ∧
      ∀ q, Holds s q p → ¬ Owned s p → ∃ f, p ∈ s.rarityBucket f := by
  have hs := (managerInv_run hnew hrun).rarity
  have hle := hs.frequency_le p
  refine ⟨fun f => ?_, hle, hs.frequency_owned p, fun q => hs.held_pos q p, ?_, ?_⟩
  · rw [hs.mem_bucket]
    constructor
    · rintro ⟨hf, hpos⟩
      have hnot : ¬ Owned s p := by
        intro hown
        rw [hs.frequency_owned p hown] at hpos
        omega
      exact ⟨hf, hf ▸ hpos, hnot⟩
    · rintro ⟨hf, hpos, -⟩
      exact ⟨hf, hf ▸ hpos⟩
  · intro f f' hf hf'
    rw [hs.mem_bucket] at hf hf'
    exact Fin.ext (hf.1.trans hf'.1.symm)
  · intro q hq hnot
    refine ⟨⟨frequency s p, by omega⟩, ?_⟩
    rw [hs.mem_bucket]
    exact ⟨rfl, hs.held_pos q p hq hnot⟩

/-- A peer registers and announces the only piece. -/
def announcedRun : List (TorrentManagerMessage × Env) :=
  [(.addPeer "seed" [], .quiet), (.addBitFeild "seed" [true], .quiet)]

/-- The state it leads to. -/
def announcedState : TorrentManagerActor :=
  (run managerStep onePieceStart announcedRun).get (by decide +kernel)

theorem rarity_index_of_run_one_piece : 0 ∈ announcedState.rarityBucket 1 := by
  have hindex := rarity_index_of_run (s := announcedState) new_onePieceStart
    (Option.some_get _).symm 0
  have hnot : ¬ Owned announcedState 0 := by decide +kernel
  have hfreq : frequency announcedState 0 = 1 := by decide +kernel
  apply (hindex.1 1).mpr
  rw [hfreq]
  exact ⟨rfl, le_refl _, hnot⟩

/-! ## The peers that have a piece -/

/-- The peers whose recorded bitfield has piece `p`. -/
def holders (s : TorrentManagerActor) (p : ℕ) : Finset String :=
  s.peerBitfields.keys.filter fun q => hasPiece s q p

theorem mem_holders {s : TorrentManagerActor} {p : ℕ} {q : String} :
    q ∈ holders s p ↔ Holds s q p := by
  unfold holders
  rw [Finset.mem_filter, hasPiece_iff, Finmap.mem_keys, and_iff_right_iff_imp]
  rintro ⟨b, hb, -⟩
  exact Finmap.mem_of_lookup_eq_some hb

/-- The frequency of every wanted piece is the number of peers that have it, up to 255. -/
def Accurate (s : TorrentManagerActor) : Prop :=
  ∀ p, ¬ Owned s p → frequency s p = min 255 (holders s p).card

/-- The bitfield a message brings to replace what is recorded, with its sender. -/
def replaces : TorrentManagerMessage → Option (String × Bitfield)
  | .addPeer q b | .addBitFeild q b => some (q, b)
  | _ => none

/-- A bitfield whose bits all stand for pieces has each wanted piece of the recorded one that it
replaces, or 255 other peers have the piece. -/
def KeepsPieces (s : TorrentManagerActor) (e : TorrentManagerMessage × Env) : Prop :=
  ∀ m ∈ replaces e.1, (∀ p ∈ m.2.iterOnes, p < s.piecesFrequency.length) →
    ∀ old ∈ s.peerBitfields.lookup m.1, ∀ p ∈ old.iterOnes, ¬ Owned s p → p ∉ m.2.iterOnes →
      255 ≤ ((holders s p).erase m.1).card

instance (s : TorrentManagerActor) (e : TorrentManagerMessage × Env) :
    Decidable (KeepsPieces s e) :=
  inferInstanceAs (Decidable (∀ m ∈ replaces e.1, _))

theorem holders_record (s : TorrentManagerActor) (q : String) (b : Bitfield) (freq : List ℕ)
    (bucket : Fin 256 → Finset ℕ) (work : HashMap String (List (ℕ × Instant))) (p : ℕ) :
    holders (record s q b freq bucket work) p =
      if b.getD p false = true then insert q (holders s p) else (holders s p).erase q := by
  ext q'
  have hholds : Holds (record s q b freq bucket work) q' p ↔
      if q' = q then b.getD p false = true else Holds s q' p := by
    unfold Holds record
    simp only [HashMap.lookup_insert_eq]
    split_ifs
    · simp
    · rfl
  rw [mem_holders, hholds]
  by_cases hq : q' = q
  · subst hq
    rw [if_pos rfl]
    split_ifs with hb
    · exact iff_of_true hb (Finset.mem_insert_self q' _)
    · exact iff_of_false hb (Finset.notMem_erase q' _)
  · rw [if_neg hq, ← mem_holders]
    split_ifs
    · rw [Finset.mem_insert, or_iff_right hq]
    · rw [Finset.mem_erase, and_iff_right hq]

/-- INTERNAL: recording a bitfield keeps the frequencies accurate exactly when every wanted piece
that it lacks and the recorded one has is held by 255 other peers.
SOURCE: torrent_manager.rs:67-93 -/
theorem accurate_record_iff {s : TorrentManagerActor} {q : String} {b : Bitfield}
    {freq : List ℕ} {bucket : Fin 256 → Finset ℕ} {work : HashMap String (List (ℕ × Instant))}
    (hs : Accurate s) (hcounted : Counted s q b freq) :
    Accurate (record s q b freq bucket work) ↔
      ∀ p, ¬ Owned s p → Holds s q p → b.getD p false ≠ true →
        255 ≤ ((holders s p).erase q).card := by
  refine forall_congr' fun p => ?_
  change (¬ Owned s p →
    freq.getD p 0 = min 255 (holders (record s q b freq bucket work) p).card) ↔ _
  rw [hcounted.getD_eq, holders_record]
  refine forall_congr' fun hnot => ?_
  have hcount := hs p hnot
  have hmem : q ∈ holders s p ↔ Holds s q p := mem_holders
  by_cases hb : b.getD p false = true
  · rw [if_pos hb]
    by_cases hq : Holds s q p
    · -- the peer was counted before
      rw [if_neg fun h : Brings s q b p => h.2.2 hq, Finset.insert_eq_of_mem (hmem.mpr hq)]
      exact iff_of_true hcount fun _ hnb => absurd hb hnb
    · have hbrings : Brings s q b p := ⟨hnot, hb, hq⟩
      rw [if_pos hbrings, Finset.card_insert_of_notMem (mt hmem.mp hq)]
      exact iff_of_true (by omega) fun h => absurd h hq
  · rw [if_neg hb, if_neg fun h : Brings s q b p => hb h.2.1]
    by_cases hq : Holds s q p
    · -- the count stays while a peer leaves: this shows only below 255
      have hcard := Finset.card_erase_add_one (hmem.mpr hq)
      rw [hcount]
      constructor
      · intro heq _ _
        omega
      · intro h
        have h := h hq hb
        omega
    · rw [Finset.erase_eq_of_notMem (mt hmem.mp hq)]
      exact iff_of_true hcount fun h => absurd h hq

/-- INTERNAL: a bitfield is recorded when all its bits stand for pieces.
SOURCE: torrent_manager.rs:67-93 -/
theorem replaces_isSome {s : TorrentManagerActor} {msg : TorrentManagerMessage} {q : String}
    {b : Bitfield} (hmsg : replaces msg = some (q, b))
    (hb : ∀ p ∈ b.iterOnes, p < s.piecesFrequency.length) (env : Env) :
    ∃ t r, managerStep s (msg, env) = some (t, r) := by
  obtain ⟨u, hu⟩ := foldlM_countPiece_isSome (s := s) q hb
  have hupdate : s.updateFreqBitfield b q = some u := hu
  cases msg with
  | addPeer q' b' =>
    cases hmsg
    have hstep : (s.addPeer q b).isSome = true := by
      unfold addPeer
      rw [hupdate]
      rfl
    obtain ⟨v, hv⟩ := Option.isSome_iff_exists.mp hstep
    exact ⟨v.1, _, Option.map_eq_some_iff.mpr ⟨v, hv, rfl⟩⟩
  | addBitFeild q' b' =>
    cases hmsg
    have hstep : (s.addBitFeild q b).isSome = true := by
      unfold addBitFeild
      rw [hupdate]
      rfl
    obtain ⟨v, hv⟩ := Option.isSome_iff_exists.mp hstep
    exact ⟨v, _, Option.map_eq_some_iff.mpr ⟨v, hv, rfl⟩⟩
  | _ => cases hmsg

theorem record_of_replaces {s t : TorrentManagerActor} {msg : TorrentManagerMessage} {env : Env}
    {r : TorrentManagerReply} {q : String} {b : Bitfield} (hmsg : replaces msg = some (q, b))
    (h : managerStep s (msg, env) = some (t, r)) :
    ∃ freq bucket work, t = record s q b freq bucket work ∧ Counted s q b freq := by
  cases managerEffect h with
  | registered hcounted =>
    cases hmsg
    exact ⟨_, _, _, rfl, hcounted⟩
  | announced hcounted =>
    cases hmsg
    exact ⟨_, _, _, rfl, hcounted⟩
  | unchanged hnot =>
    cases msg with
    | addPeer q' b' => exact absurd rfl (hnot q' b' 0).1
    | addBitFeild q' b' => exact absurd rfl (hnot q' b' 0).2.1
    | _ => cases hmsg
  | _ => cases hmsg

/-- INTERNAL: a bitfield that is recorded has bits for pieces only. -/
theorem bits_lt_of_replaces {s t : TorrentManagerActor} {msg : TorrentManagerMessage} {env : Env}
    {r : TorrentManagerReply} {q : String} {b : Bitfield} (hs : ManagerInv torrent options s)
    (hmsg : replaces msg = some (q, b)) (h : managerStep s (msg, env) = some (t, r)) :
    ∀ p ∈ b.iterOnes, p < s.piecesFrequency.length := by
  have hrarity := (managerInv_step hs h).rarity
  obtain ⟨freq, bucket, work, rfl, hcounted⟩ := record_of_replaces hmsg h
  intro p hp
  rw [← hcounted.length_eq]
  exact hrarity.held_lt q p ⟨b, Finmap.lookup_insert _, Bitfield.mem_iterOnes.mp hp⟩

/-- INTERNAL: the messages that replace no bitfield keep the frequencies accurate.
SOURCE: torrent_manager.rs:95-112, torrent_manager.rs:238-250 -/
theorem accurate_of_not_replaces {s t : TorrentManagerActor} {msg : TorrentManagerMessage}
    {env : Env} {r : TorrentManagerReply} (hs : Accurate s) (hmsg : replaces msg = none)
    (h : managerStep s (msg, env) = some (t, r)) : Accurate t := by
  cases managerEffect h with
  | registered | announced => cases hmsg
  | @had q i b freq bucket hb hi hcounted =>
    apply (accurate_record_iff hs hcounted).mpr
    intro p _ hheld hlacks
    -- a `Have` only adds a bit
    rw [Bitfield.getD_set hi] at hlacks
    split_ifs at hlacks
    · exact absurd rfl hlacks
    · rw [← hasPiece_iff, hasPiece, hb, Option.getD_some] at hheld
      exact absurd hheld hlacks
  | assigned => exact hs
  | expired => exact hs
  | @finished q i notifier stats log hlt =>
    intro p hnot
    rw [owned_claim hlt, not_or] at hnot
    rw [frequency_claim hnot.1]
    exact hs p hnot.2
  | unchanged => exact hs

/-- INTERNAL: from a state with accurate frequencies a message leads to such a state exactly when
it drops no wanted piece of a recorded bitfield.
SOURCE: torrent_manager.rs:67-112, torrent_manager.rs:116-122, torrent_manager.rs:229-237 -/
theorem accurate_step_iff {s : TorrentManagerActor} {e : TorrentManagerMessage × Env}
    (hs : ManagerInv torrent options s) (hacc : Accurate s) :
    (∀ t r, managerStep s e = some (t, r) → Accurate t) ↔ KeepsPieces s e := by
  obtain ⟨msg, env⟩ := e
  cases hmsg : replaces msg with
  | none =>
    apply iff_of_true
    · intro t r h
      exact accurate_of_not_replaces hacc hmsg h
    · intro m hm
      have hm : replaces msg = some m := hm
      rw [hmsg] at hm
      cases hm
  | some m =>
    obtain ⟨q, b⟩ := m
    constructor
    · intro hnext m hm hbits old hold p hp hnot hlacks
      have hm : replaces msg = some m := hm
      rw [hmsg] at hm
      cases hm
      obtain ⟨t, r, h⟩ := replaces_isSome hmsg hbits env
      obtain ⟨freq, bucket, work, rfl, hcounted⟩ := record_of_replaces hmsg h
      have hheld : Holds s q p := ⟨old, hold, Bitfield.mem_iterOnes.mp hp⟩
      exact (accurate_record_iff hacc hcounted).mp (hnext _ r h) p hnot hheld
        (mt Bitfield.mem_iterOnes.mpr hlacks)
    · intro hkeeps t r h
      have hbits := bits_lt_of_replaces hs hmsg h
      obtain ⟨freq, bucket, work, rfl, hcounted⟩ := record_of_replaces hmsg h
      apply (accurate_record_iff hacc hcounted).mpr
      rintro p hnot ⟨old, hold, hp⟩ hlacks
      exact hkeeps (q, b) hmsg hbits old hold p (Bitfield.mem_iterOnes.mpr hp) hnot
        (mt Bitfield.mem_iterOnes.mp hlacks)

theorem accurate_new {s : TorrentManagerActor}
    (h : TorrentManagerActor.new torrent options = some s) : Accurate s := by
  obtain ⟨numOfP, stats, -, rfl⟩ := manager_new_eq_some h
  intro p _
  have hnone : ∀ q, q ∉ (∅ : HashMap String Bitfield).keys := by
    intro q hq
    exact absurd (Finmap.mem_keys.mp hq) Finmap.notMem_empty
  simp only [frequency, holders, Finset.eq_empty_of_forall_notMem hnone, Finset.filter_empty,
    Finset.card_empty, List.getD_eq_getElem?_getD, List.getElem?_replicate]
  split_ifs <;> rfl

/-- **Availability accounting, exactly when no recorded piece is dropped.** Along a run of the
manager the frequency of every wanted piece is the number of peers whose recorded bitfield has it,
up to 255, in every state, if and only if no bitfield whose bits all stand for pieces replaces a
recorded one that has a wanted piece it lacks, unless 255 other peers have the piece.
SOURCE: torrent_manager.rs:67-112, torrent_manager.rs:116-122, torrent_manager.rs:229-237 -/
theorem accurate_iff {s : TorrentManagerActor}
    (hnew : TorrentManagerActor.new torrent options = some s)
    (es : List (TorrentManagerMessage × Env)) :
    AllStates managerStep Accurate s es ↔ AllSteps managerStep KeepsPieces s es :=
  allStates_iff_allSteps (ManagerInv torrent options)
    (fun _ _ _ _ hs he => managerInv_step hs he) (fun _ _ hs hacc => accurate_step_iff hs hacc)
    (managerInv_new hnew) (accurate_new hnew)

/-- The state after the peer has connected a second time and announced the piece again. -/
def reconnectedState : TorrentManagerActor :=
  (run managerStep onePieceStart (announcedRun ++ announcedRun)).get (by decide +kernel)

/-- One peer that has the piece is counted twice once it has connected twice. -/
theorem reconnected_counted_twice :
    run managerStep onePieceStart (announcedRun ++ announcedRun) = some reconnectedState ∧
      ¬ Owned reconnectedState 0 ∧ frequency reconnectedState 0 = 2 ∧
      holders reconnectedState 0 = {"seed"} ∧ ¬ Accurate reconnectedState := by
  have hnot : ¬ Owned reconnectedState 0 := by decide +kernel
  have hfreq : frequency reconnectedState 0 = 2 := by decide +kernel
  have hholders : holders reconnectedState 0 = {"seed"} := by decide +kernel
  refine ⟨(Option.some_get _).symm, hnot, hfreq, hholders, fun haccurate => ?_⟩
  have hcount := haccurate 0 hnot
  rw [hfreq, hholders, Finset.card_singleton] at hcount
  omega

/-- With one connection the count is right all along. -/
theorem accurate_iff_one_connection :
    AllStates managerStep Accurate onePieceStart announcedRun := by
  have hkeeps : AllSteps managerStep KeepsPieces onePieceStart announcedRun := by decide +kernel
  exact (accurate_iff new_onePieceStart announcedRun).mpr hkeeps

end Fissure.Analysis
