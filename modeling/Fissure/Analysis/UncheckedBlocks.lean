import Fissure.Analysis.HandOut

/-!
# Blocks that the actor does not check

The offset and the data of a `BlockRecived` come from the wire as they are. The handler rounds the
offset down to a block and sets the flags of that block before anything is compared with the
length of the piece.

`handledHarmlessly_iff` says which blocks the actor survives and, where the offset is outside the
piece, which leave it as it was. `Recorded` notes beside a run which bytes the blocks since the
last reset brought; `own_block_only` says which blocks keep to their own range and are flagged with
all their bytes.
-/

set_option autoImplicit false

namespace Fissure.Analysis

open Fissure.Library Fissure.Model
open Fissure.Model.PieceRequestManagerActor

variable {sha1 : Bytes → Bytes}

/-! ## Reachable states -/

/-- What the flags say about each other: a block is required until it is downloaded, a timer runs
for exactly the blocks in flight, and none of these is downloaded. A piece that has all its blocks
has the right hash. -/
structure FlagsInv (sha1 : Bytes → Bytes) (s : PieceRequestManagerActor) : Prop where
  required : ∀ i < noOfBlocks s.data.length,
    s.requiredBlocks.getD i false = !s.downloadedBlocks.getD i false
  timed : ∀ i, s.blocksInFlight.getD i false = (s.inFlightTimers.lookup i).isSome
  waiting : ∀ i, s.downloadedBlocks.getD i false = true → s.blocksInFlight.getD i false = false
  complete : 0 < noOfBlocks s.data.length →
    (∀ i < noOfBlocks s.data.length, s.downloadedBlocks.getD i false = true) →
    sha1 s.data = s.hash

/-- INTERNAL: the flags of a fresh actor.
SOURCE: piece_manager.rs:26-52 -/
theorem flagsInv_new (sha1 : Bytes → Bytes) (pLen : ℕ) (hash : Bytes) (timeout : ℕ) :
    FlagsInv sha1 (new pLen hash timeout) where
  required := by
    intro i hi
    simp only [new, List.length_replicate] at hi
    simp only [new, List.getD_eq_getElem?_getD, List.getElem?_replicate, if_pos hi]
    simp [Bitfield.zeros, hi]
  timed := by
    intro i
    simp only [new, Bitfield.getD_zeros, Finmap.lookup_empty, Option.isSome_none]
  waiting := by
    intro i _
    exact Bitfield.getD_zeros _ i
  complete := by
    intro hpos hall
    have h := hall 0 hpos
    simp only [new, Bitfield.getD_zeros, Bool.false_eq_true] at h

/-- INTERNAL: the flags agree after a block that was stored, when a complete piece has the right
hash.
SOURCE: piece_manager.rs:102-119 -/
theorem FlagsInv.marked {s t : PieceRequestManagerActor} {i : ℕ} {data : Bytes}
    (h : FlagsInv sha1 s) (hm : Marked s t i data)
    (hcomplete : (∀ j < noOfBlocks s.data.length, t.downloadedBlocks.getD j false = true) →
      sha1 t.data = t.hash) : FlagsInv sha1 t := by
  have hlen : t.data.length = s.data.length := by rw [hm.data, length_storedData]
  refine ⟨fun j hj => ?_, fun j => ?_, fun j hj => ?_, fun _ hall => ?_⟩
  · rw [hlen] at hj
    rw [hm.required, hm.downloaded]
    split_ifs
    · simp
    · exact h.required j hj
  · rw [hm.inFlight, hm.timers]
    by_cases hij : i = j
    · simp [hij]
    · rw [if_neg hij, if_neg (Ne.symm hij), h.timed j]
  · rw [hm.downloaded] at hj
    rw [hm.inFlight]
    split_ifs with hij
    · rfl
    · rw [if_neg hij] at hj
      exact h.waiting j hj
  · rw [hlen] at hall
    exact hcomplete hall

/-- INTERNAL: the flags agree after a hash mismatch.
SOURCE: piece_manager.rs:126-132 -/
theorem FlagsInv.restarted {s t : PieceRequestManagerActor} {i : ℕ} {data : Bytes}
    (hr : Restarted s t i data) : FlagsInv sha1 t := by
  have hlen : t.data.length = s.data.length := by rw [hr.data, length_storedData]
  refine ⟨fun j hj => ?_, fun j => ?_, fun j _ => hr.inFlight j, fun hpos hall => ?_⟩
  · rw [hlen] at hj
    rw [hr.required j hj, hr.downloaded]
    rfl
  · rw [hr.inFlight, hr.timers]
    simp
  · have h := hall 0 hpos
    rw [hr.downloaded] at h
    cases h

/-- INTERNAL: every step keeps the flags in agreement.
SOURCE: piece_manager.rs:72-196 -/
theorem flagsInv_step {s t : PieceRequestManagerActor} {e : PieceEvent} {r : PieceReply}
    (h : FlagsInv sha1 s) (hstep : pieceStep sha1 s e = some (t, r)) : FlagsInv sha1 t := by
  cases effect_of_pieceStep hstep with
  | getData start stop clock => exact h
  | getDataWithLen start len clock => exact h
  | tick now =>
    refine ⟨h.required, fun i => ?_, fun i hi => ?_, h.complete⟩
    · rw [getD_inFlight_tick, lookup_timers_tick]
      cases s.timerExpired now i
      · exact h.timed i
      · rfl
    · rw [getD_inFlight_tick, h.waiting i hi, Bool.and_false]
  | @blocksToRequest k clock _ out =>
    refine ⟨?_, fun i => ?_, fun i hi => ?_, ?_⟩
    · rw [out.data, out.required, out.downloaded]
      exact h.required
    · rw [out.inFlight, out.timers]
      split_ifs with hi
      · simp [hi]
      · rw [decide_eq_false hi, Bool.false_or, h.timed i]
    · rw [out.downloaded] at hi
      -- what is handed out is not downloaded
      have hnot : i ∉ blocksHandedOut s k := by
        intro hmem
        have hreq := requestable_iff.mp (requestable_of_mem_blocksHandedOut hmem)
        rw [hi] at hreq
        cases hreq.2.2
      rw [out.inFlight, decide_eq_false hnot, h.waiting i hi]
      rfl
    · rw [out.data, out.downloaded, out.hash]
      exact h.complete
  | @blockRecived off data clock _ outcome inside effect =>
    cases outcome with
    | pending => exact h.marked effect.1 fun hall => absurd hall effect.2
    | verified => exact h.marked effect.1 fun _ => effect.2.2
    | reset => exact .restarted effect.1

/-- INTERNAL: the flags agree in every reachable state. -/
theorem flagsInv_of_run {pLen timeout : ℕ} {hash : Bytes} {es : List PieceEvent}
    {s : PieceRequestManagerActor}
    (hrun : run (pieceStep sha1) (new pLen hash timeout) es = some s) :
    FlagsInv sha1 s :=
  run_invariant (fun _ _ _ _ h hstep => flagsInv_step h hstep)
    (flagsInv_new sha1 pLen hash timeout) hrun

/-! ## Blocks that stop the actor or change it from outside the piece -/

/-- The buffer, the bit vectors and the timers of `t` are those of `s`. -/
structure Untouched (s t : PieceRequestManagerActor) : Prop where
  data : t.data = s.data
  downloaded : t.downloadedBlocks = s.downloadedBlocks
  inFlight : t.blocksInFlight = s.blocksInFlight
  required : t.requiredBlocks = s.requiredBlocks
  timers : t.inFlightTimers = s.inFlightTimers

/-- The actor survives the block, and a block whose offset is outside the piece leaves its
buffer, its bit vectors and its timers alone. -/
def HandledHarmlessly (sha1 : Bytes → Bytes) (s : PieceRequestManagerActor) (off : ℕ)
    (data : Bytes) : Prop :=
  ∀ clock, ∃ t r, pieceStep sha1 s (.recv (.blockRecived off data) clock) = some (t, r) ∧
    (s.data.length ≤ off → Untouched s t)

/-- The data reach past the end of the buffer, or they are what it holds at the block. -/
def KeepsBuffer (s : PieceRequestManagerActor) (i : ℕ) (data : Bytes) : Prop :=
  s.data.length < i * 16384 + data.length ∨ data = (s.data.drop (i * 16384)).take data.length

/-- The offset lies in the piece; or it lies behind the end of the piece but still in the last
block, the data keep the buffer as it is, and the block is downloaded, or it is the only one, is
not in flight and its hash is wrong. -/
def Harmless (sha1 : Bytes → Bytes) (s : PieceRequestManagerActor) (off : ℕ) (data : Bytes) :
    Prop :=
  off < s.data.length ∨
    off / 16384 < noOfBlocks s.data.length ∧ KeepsBuffer s (off / 16384) data ∧
      (s.downloadedBlocks.getD (off / 16384) false = true ∨
        noOfBlocks s.data.length = 1 ∧ s.blocksInFlight.getD 0 false = false ∧
          sha1 s.data ≠ s.hash)

/-- INTERNAL: when a block leaves the buffer as it is.
SOURCE: piece_manager.rs:107-115 -/
theorem storedData_eq_self_iff {s : PieceRequestManagerActor} {i : ℕ} {data : Bytes} :
    storedData s.data i data = s.data ↔ KeepsBuffer s i data := by
  unfold storedData KeepsBuffer
  split_ifs with hfits
  · rw [writeAt_eq_self_iff 0 hfits]
    exact (or_iff_right (by omega)).symm
  · exact iff_of_true rfl (Or.inl (by omega))

/-- INTERNAL: a block that is already downloaded and leaves the buffer as it is changes nothing.
SOURCE: piece_manager.rs:98-136 -/
theorem untouched_of_downloaded {s t : PieceRequestManagerActor} {i : ℕ} {data : Bytes}
    {outcome : BlockOutcome} (h : FlagsInv sha1 s) (hi : i < noOfBlocks s.data.length)
    (heffect : BlockEffect sha1 s t i data outcome) (hdata : storedData s.data i data = s.data)
    (hdown : s.downloadedBlocks.getD i false = true) : Untouched s t := by
  have hmarked (hm : Marked s t i data) : Untouched s t := by
    have hlen : t.data = s.data := hm.data.trans hdata
    refine ⟨hlen, ?_, ?_, ?_, ?_⟩
    · apply Bitfield.ext_getD (hlen ▸ t.length_downloaded) s.length_downloaded
      intro j _
      rw [hm.downloaded]
      split_ifs with hij
      · rw [← hij, hdown]
      · rfl
    · apply Bitfield.ext_getD (hlen ▸ t.length_inFlight) s.length_inFlight
      intro j _
      rw [hm.inFlight]
      split_ifs with hij
      · rw [← hij, h.waiting i hdown]
      · rfl
    · apply Bitfield.ext_getD (hlen ▸ t.length_required) s.length_required
      intro j _
      rw [hm.required]
      split_ifs with hij
      · rw [← hij, h.required i hi, hdown]
        rfl
      · rfl
    · apply Finmap.ext_lookup
      intro j
      rw [hm.timers]
      split_ifs with hij
      · have htimed := h.timed i
        rw [h.waiting i hdown] at htimed
        rw [hij]
        exact (Option.isNone_iff_eq_none.mp (by simpa using htimed)).symm
      · rfl
  cases outcome with
  | pending => exact hmarked heffect.1
  | verified => exact hmarked heffect.1
  | reset =>
    -- every block was there, so the hash was right and still is
    obtain ⟨hr, hothers, hsha⟩ := heffect
    refine absurd ?_ hsha
    rw [hr.data, hdata, hr.hash]
    apply h.complete (by omega)
    intro j hj
    rcases hothers j hj with rfl | hj
    · exact hdown
    · exact hj

/-- INTERNAL: the only block of a piece that has none yet: a wrong hash puts back the flags that
the block has set.
SOURCE: piece_manager.rs:117-133 -/
theorem untouched_of_single {s t : PieceRequestManagerActor} {data : Bytes}
    {outcome : BlockOutcome} (h : FlagsInv sha1 s) (hn : noOfBlocks s.data.length = 1)
    (heffect : BlockEffect sha1 s t 0 data outcome) (hdata : storedData s.data 0 data = s.data)
    (hdown : s.downloadedBlocks.getD 0 false = false)
    (hflight : s.blocksInFlight.getD 0 false = false) (hsha : sha1 s.data ≠ s.hash) :
    Untouched s t := by
  cases outcome with
  | pending =>
    refine absurd (fun j hj => ?_) heffect.2
    rw [heffect.1.downloaded, if_pos (by omega)]
  | verified =>
    refine absurd heffect.2.2 ?_
    rw [heffect.1.data, hdata, heffect.1.hash]
    exact hsha
  | reset =>
    have hr := heffect.1
    have hlen : t.data = s.data := hr.data.trans hdata
    refine ⟨hlen, ?_, ?_, ?_, ?_⟩
    · apply Bitfield.ext_getD (hlen ▸ t.length_downloaded) s.length_downloaded
      intro j hj
      obtain rfl : j = 0 := by omega
      rw [hr.downloaded, hdown]
    · apply Bitfield.ext_getD (hlen ▸ t.length_inFlight) s.length_inFlight
      intro j hj
      obtain rfl : j = 0 := by omega
      rw [hr.inFlight, hflight]
    · apply Bitfield.ext_getD (hlen ▸ t.length_required) s.length_required
      intro j hj
      rw [hr.required j hj, h.required j hj]
      obtain rfl : j = 0 := by omega
      rw [hdown]
      rfl
    · apply Finmap.ext_lookup
      intro j
      rw [hr.timers, Finmap.lookup_empty]
      cases hlookup : s.inFlightTimers.lookup j with
      | none => rfl
      | some time =>
        have hj := s.timers_lt j (Finmap.mem_of_lookup_eq_some hlookup)
        obtain rfl : j = 0 := by omega
        have htimed := h.timed 0
        rw [hflight, hlookup] at htimed
        cases htimed

/-- INTERNAL: a block that changes nothing keeps the buffer, and it is downloaded already or is the
only one and fails its hash.
SOURCE: piece_manager.rs:98-136 -/
theorem harmless_of_untouched {s t : PieceRequestManagerActor} {i : ℕ} {data : Bytes}
    {outcome : BlockOutcome} (hi : i < noOfBlocks s.data.length)
    (heffect : BlockEffect sha1 s t i data outcome) (h : Untouched s t) :
    KeepsBuffer s i data ∧ (s.downloadedBlocks.getD i false = true ∨
      noOfBlocks s.data.length = 1 ∧ s.blocksInFlight.getD 0 false = false ∧
        sha1 s.data ≠ s.hash) := by
  obtain ⟨hdata, hhash⟩ := heffect.data_eq
  refine ⟨storedData_eq_self_iff.mp (hdata.symm.trans h.data), ?_⟩
  have hmarked (hm : Marked s t i data) : s.downloadedBlocks.getD i false = true := by
    rw [← h.downloaded, hm.downloaded, if_pos rfl]
  cases outcome with
  | pending => exact Or.inl (hmarked heffect.1)
  | verified => exact Or.inl (hmarked heffect.1)
  | reset =>
    obtain ⟨hr, hothers, hsha⟩ := heffect
    right
    -- no block is flagged after a reset, so none was and there is no other block
    have honly : ∀ j < noOfBlocks s.data.length, i = j := by
      intro j hj
      rcases hothers j hj with hij | hdown
      · exact hij
      · rw [← h.downloaded, hr.downloaded] at hdown
        cases hdown
    refine ⟨?_, ?_, ?_⟩
    · by_contra hne
      have h0 := honly 0 (by omega)
      have h1 := honly 1 (by omega)
      omega
    · rw [← h.inFlight, hr.inFlight]
    · rwa [h.data, hhash] at hsha

/-- **Which blocks the actor survives unharmed.** In every reachable state, for every offset and
all data: the actor survives the `BlockRecived`, and is left as it was if the offset is outside the
piece, exactly when the offset is in the piece or the block is `Harmless` behind its end.
SOURCE: piece_manager.rs:54-59, piece_manager.rs:98-136, peer_protocol_state_machine.rs:337-393 -/
theorem handledHarmlessly_iff (sha1 : Bytes → Bytes) (pLen timeout : ℕ) (hash : Bytes)
    (es : List PieceEvent) (s : PieceRequestManagerActor)
    (hrun : run (pieceStep sha1) (new pLen hash timeout) es = some s) (off : ℕ) (data : Bytes) :
    HandledHarmlessly sha1 s off data ↔ Harmless sha1 s off data := by
  have hinv := flagsInv_of_run hrun
  by_cases hi : off / 16384 < noOfBlocks s.data.length
  · obtain ⟨t, outcome, hblock⟩ := blockRecived_isSome sha1 data hi
    have heffect := (blockRecived_eq_some hblock).2
    have hstep (clock : ℕ → Instant) :
        pieceStep sha1 s (.recv (.blockRecived off data) clock) = some (t, .done outcome) :=
      pieceStep_blockRecived.mpr ⟨outcome, hblock, rfl⟩
    constructor
    · intro h
      obtain ⟨u, r, hu, huntouched⟩ := h fun _ => 0
      rw [hstep] at hu
      cases hu
      by_cases hoff : off < s.data.length
      · exact Or.inl hoff
      · exact Or.inr ⟨hi, harmless_of_untouched hi heffect (huntouched (by omega))⟩
    · intro h clock
      refine ⟨t, .done outcome, hstep clock, fun hoff => ?_⟩
      rcases h with h | ⟨-, hkeeps, h⟩
      · omega
      have hdata := storedData_eq_self_iff.mpr hkeeps
      cases hdown : s.downloadedBlocks.getD (off / 16384) false with
      | true => exact untouched_of_downloaded hinv hi heffect hdata hdown
      | false =>
        rcases h with h | ⟨hn, hflight, hsha⟩
        · rw [hdown] at h
          cases h
        · have h0 : off / 16384 = 0 := by omega
          rw [h0] at heffect hdata hdown
          exact untouched_of_single hinv hn heffect hdata hdown hflight hsha
  · -- the index is outside the bit vectors, and so is the offset outside the piece
    have hnone : s.blockRecived sha1 off data = none := by
      rw [blockRecived, if_neg (by rw [s.length_required]; exact hi)]
    have hoff : s.data.length ≤ off := by
      rw [lt_noOfBlocks_iff] at hi
      omega
    refine iff_of_false (fun h => ?_) ?_
    · obtain ⟨t, r, hstep, -⟩ := h fun _ => 0
      simp [pieceStep, hnone] at hstep
    · rintro (h | ⟨h, -⟩)
      · omega
      · exact hi h

/-- A block in the piece and one behind its end, for a fresh actor of a piece of one byte. -/
theorem handledHarmlessly_iff_oneByte :
    (HandledHarmlessly List.reverse (new 1 [7] 4) 0 [5] ↔
      Harmless List.reverse (new 1 [7] 4) 0 [5]) ∧
    (HandledHarmlessly List.reverse (new 1 [7] 4) 9 [0] ↔
      Harmless List.reverse (new 1 [7] 4) 9 [0]) :=
  ⟨handledHarmlessly_iff List.reverse 1 4 [7] [] _ rfl 0 [5],
    handledHarmlessly_iff List.reverse 1 4 [7] [] _ rfl 9 [0]⟩

/-- An offset one block behind a piece of one byte stops the actor. -/
theorem block_behind_piece_stops :
    run (pieceStep List.reverse) (new 1 [7] 4) [] = some (new 1 [7] 4) ∧
      pieceStep List.reverse (new 1 [7] 4) (.recv (.blockRecived 16384 [5]) fun _ => 0) = none ∧
      ¬ HandledHarmlessly List.reverse (new 1 [7] 4) 16384 [5] := by
  have hnone : pieceStep List.reverse (new 1 [7] 4)
      (.recv (.blockRecived 16384 [5]) fun _ => 0) = none := rfl
  refine ⟨rfl, hnone, fun h => ?_⟩
  obtain ⟨t, r, hstep, -⟩ := h fun _ => 0
  rw [hnone] at hstep
  cases hstep

/-! ## Blocks that reach into other blocks, and flags without bytes -/

/-- The block brings the byte at position `p` of its own range: the offset and the length of the
data put a byte there, and the data are not dropped at the end of a buffer of `len` bytes. -/
def Supplies (len off : ℕ) (data : Bytes) (p : ℕ) : Prop :=
  off / 16384 = p / 16384 ∧ off ≤ p ∧ p < off + data.length ∧
    off / 16384 * 16384 + data.length ≤ len

/-- A piece actor with the positions that blocks have brought since the last reset. -/
structure Recorded where
  actor : PieceRequestManagerActor
  supplied : ℕ → Prop

/-- The positions after an event. -/
def Recorded.suppliedNext (x : Recorded) : PieceEvent → PieceReply → ℕ → Prop
  | _, .done .reset => fun _ => False
  | .recv (.blockRecived off data) _, _ =>
    fun p => x.supplied p ∨ Supplies x.actor.data.length off data p
  | _, _ => x.supplied

/-- One step of the actor, with the positions kept beside it. -/
def recordedStep (sha1 : Bytes → Bytes) (x : Recorded) (e : PieceEvent) :
    Option (Recorded × PieceReply) :=
  (pieceStep sha1 x.actor e).map fun (t, r) => (⟨t, x.suppliedNext e r⟩, r)

/-- A fresh actor, which no block has reached. -/
def Recorded.new (pLen : ℕ) (hash : Bytes) (timeout : ℕ) : Recorded :=
  ⟨PieceRequestManagerActor.new pLen hash timeout, fun _ => False⟩

/-- Every position of a block that is flagged as downloaded was supplied by a block for it. -/
def FlagsMeanWhole (x : Recorded) : Prop :=
  ∀ i, x.actor.downloadedBlocks.getD i false = true →
    ∀ p, p / 16384 = i → p < x.actor.data.length → x.supplied p

/-- A block with an offset in the piece changes no byte outside its own range. -/
def OwnBlockOnly (sha1 : Bytes → Bytes) (x : Recorded) (e : PieceEvent) : Prop :=
  ∀ off data clock y r, e = .recv (.blockRecived off data) clock → off < x.actor.data.length →
    recordedStep sha1 x e = some (y, r) →
    ∀ p, p / 16384 ≠ off / 16384 → y.actor.data[p]? = x.actor.data[p]?

/-- The event does not make the piece start over. -/
def NoReset (sha1 : Bytes → Bytes) (x : Recorded) (e : PieceEvent) : Prop :=
  ∀ y, recordedStep sha1 x e ≠ some (y, .done .reset)

/-- The data are dropped at the end of the buffer, or what they have beyond one block is what the
buffer holds there. -/
def KeepsOthers (s : PieceRequestManagerActor) (i : ℕ) (data : Bytes) : Prop :=
  s.data.length < i * 16384 + data.length ∨
    ∀ k, 16384 ≤ k → k < data.length → s.data[i * 16384 + k]? = data[k]?

/-- The offset is the start of block `i`, the data cover the block and are not dropped. -/
def CoversBlock (s : PieceRequestManagerActor) (i off : ℕ) (data : Bytes) : Prop :=
  off = i * 16384 ∧ min (i * 16384 + 16384) s.data.length ≤ off + data.length ∧
    i * 16384 + data.length ≤ s.data.length

/-- A block with an offset in the piece keeps the other blocks, and any block covers its range
unless it is flagged already. -/
def WholeBlocks (x : Recorded) : PieceEvent → Prop
  | .recv (.blockRecived off data) _ =>
    (off < x.actor.data.length → KeepsOthers x.actor (off / 16384) data) ∧
    (off / 16384 < noOfBlocks x.actor.data.length →
      x.actor.downloadedBlocks.getD (off / 16384) false = true ∨
        CoversBlock x.actor (off / 16384) off data)
  | _ => True

theorem recordedStep_eq_some {x y : Recorded} {e : PieceEvent} {r : PieceReply} :
    recordedStep sha1 x e = some (y, r) ↔
      pieceStep sha1 x.actor e = some (y.actor, r) ∧ y.supplied = x.suppliedNext e r := by
  simp only [recordedStep, Option.map_eq_some_iff, Prod.exists, Prod.mk.injEq]
  constructor
  · rintro ⟨t, r', hstep, rfl, rfl⟩
    exact ⟨hstep, rfl⟩
  · rintro ⟨hstep, hsupplied⟩
    exact ⟨y.actor, r, hstep, by rw [← hsupplied], rfl⟩

/-- INTERNAL: the bytes outside its own range that a block leaves alone.
SOURCE: piece_manager.rs:107-115 -/
theorem keepsOthers_iff {s : PieceRequestManagerActor} {i : ℕ} {data : Bytes} :
    (∀ p, p / 16384 ≠ i → (storedData s.data i data)[p]? = s.data[p]?) ↔
      KeepsOthers s i data := by
  unfold storedData KeepsOthers
  by_cases hfits : i * 16384 + data.length ≤ s.data.length
  · rw [if_pos hfits, or_iff_right (by omega)]
    constructor
    · intro h k hk hklen
      have hin := getElem?_writeAt_inside 0 s.data (Nat.le_add_right (i * 16384) k)
        (Nat.add_lt_add_left hklen (i * 16384))
      rw [← h (i * 16384 + k) (by omega), hin, Nat.add_sub_cancel_left]
    · intro h p hp
      by_cases hin : i * 16384 ≤ p ∧ p < i * 16384 + data.length
      · have hk := h (p - i * 16384) (by omega) (by omega)
        rw [show i * 16384 + (p - i * 16384) = p by omega] at hk
        rw [getElem?_writeAt_inside 0 s.data hin.1 hin.2, hk]
      · exact getElem?_writeAt_of_le 0 hfits (by omega)
  · rw [if_neg hfits]
    exact iff_of_true (fun _ _ => rfl) (Or.inl (by omega))

/-- INTERNAL: a block that covers its range supplies every position of it.
SOURCE: piece_manager.rs:98-115 -/
theorem supplies_iff_coversBlock {s : PieceRequestManagerActor} {off : ℕ} {data : Bytes}
    (hi : off / 16384 < noOfBlocks s.data.length) :
    (∀ p, p / 16384 = off / 16384 → p < s.data.length → Supplies s.data.length off data p) ↔
      CoversBlock s (off / 16384) off data := by
  rw [lt_noOfBlocks_iff] at hi
  constructor
  · intro h
    -- the first and the last position of the block
    obtain ⟨-, hfirst, -, hfits⟩ := h (off / 16384 * 16384) (by omega) hi
    obtain ⟨-, -, hlast, -⟩ :=
      h (min (off / 16384 * 16384 + 16384) s.data.length - 1) (by omega) (by omega)
    exact ⟨by omega, by omega, hfits⟩
  · rintro ⟨hstart, hend, hfits⟩ p hp hlen
    refine ⟨hp.symm, ?_, ?_, hfits⟩ <;> omega

/-- INTERNAL: a flagged block stays whole through an event without a block.
SOURCE: piece_manager.rs:77-97, piece_manager.rs:137-196 -/
theorem recorded_other {x y : Recorded} {e : PieceEvent} {r : PieceReply}
    (he : blockOf e = none) (hstep : recordedStep sha1 x e = some (y, r)) :
    y.actor.data = x.actor.data ∧ y.actor.downloadedBlocks = x.actor.downloadedBlocks ∧
      y.supplied = x.supplied := by
  obtain ⟨hpiece, hsupplied⟩ := recordedStep_eq_some.mp hstep
  obtain ⟨hdata, -, hdown, hr⟩ := unchanged_of_pieceStep he hpiece
  refine ⟨hdata, hdown, hsupplied.trans ?_⟩
  unfold Recorded.suppliedNext
  split
  · exact absurd rfl (hr .reset)
  · simp [blockOf] at he
  · rfl

/-- INTERNAL: a block flags itself and supplies what it brings, or the piece starts over.
SOURCE: piece_manager.rs:98-136 -/
theorem recorded_block {x y : Recorded} {off : ℕ} {data : Bytes} {clock : ℕ → Instant}
    {r : PieceReply}
    (hstep : recordedStep sha1 x (.recv (.blockRecived off data) clock) = some (y, r)) :
    off / 16384 < noOfBlocks x.actor.data.length ∧
      y.actor.data = storedData x.actor.data (off / 16384) data ∧
      (r = .done .reset ∧ (∀ j, y.actor.downloadedBlocks.getD j false = false) ∧
          (∀ p, ¬ y.supplied p) ∨
        r ≠ .done .reset ∧
          (∀ j, y.actor.downloadedBlocks.getD j false =
            if off / 16384 = j then true else x.actor.downloadedBlocks.getD j false) ∧
          ∀ p, y.supplied p ↔ x.supplied p ∨ Supplies x.actor.data.length off data p) := by
  obtain ⟨hpiece, hsupplied⟩ := recordedStep_eq_some.mp hstep
  cases effect_of_pieceStep hpiece with
  | @blockRecived _ _ _ _ outcome inside effect =>
    refine ⟨inside, effect.data_eq.1, ?_⟩
    have hmarked (hm : Marked x.actor y.actor (off / 16384) data) (ho : outcome ≠ .reset) :
        PieceReply.done outcome ≠ .done .reset ∧
          (∀ j, y.actor.downloadedBlocks.getD j false =
            if off / 16384 = j then true else x.actor.downloadedBlocks.getD j false) ∧
          ∀ p, y.supplied p ↔ x.supplied p ∨ Supplies x.actor.data.length off data p := by
      refine ⟨by simpa using ho, hm.downloaded, fun p => ?_⟩
      rw [hsupplied]
      cases outcome <;> simp [Recorded.suppliedNext] at ho ⊢
    cases outcome with
    | pending => exact Or.inr (hmarked effect.1 nofun)
    | verified => exact Or.inr (hmarked effect.1 nofun)
    | reset =>
      refine Or.inl ⟨rfl, effect.1.downloaded, fun p => ?_⟩
      rw [hsupplied]
      exact id

/-- INTERNAL: a step that meets the condition keeps flagged blocks whole.
SOURCE: piece_manager.rs:72-196 -/
theorem flagsMeanWhole_step {x y : Recorded} {e : PieceEvent} {r : PieceReply}
    (h : FlagsMeanWhole x) (he : WholeBlocks x e) (hstep : recordedStep sha1 x e = some (y, r)) :
    FlagsMeanWhole y := by
  intro i hi p hp hlen
  cases hb : blockOf e with
  | none =>
    obtain ⟨hdata, hdown, hsupplied⟩ := recorded_other hb hstep
    rw [hdown] at hi
    rw [hdata] at hlen
    rw [hsupplied]
    exact h i hi p hp hlen
  | some j =>
    obtain ⟨off, data, clock, rfl, -⟩ := blockOf_eq_some hb
    obtain ⟨hinside, hdata, ⟨-, hdown, -⟩ | ⟨-, hdown, hsupplied⟩⟩ := recorded_block hstep
    · rw [hdown] at hi
      cases hi
    · rw [hdata, length_storedData] at hlen
      rw [hdown] at hi
      rw [hsupplied]
      by_cases hij : off / 16384 = i
      · rcases he.2 hinside with hflag | hcovers
        · exact Or.inl (h _ hflag p (hp.trans hij.symm) hlen)
        · exact Or.inr ((supplies_iff_coversBlock hinside).mpr hcovers p (hp.trans hij.symm) hlen)
      · rw [if_neg hij] at hi
        exact Or.inl (h i hi p hp hlen)

/-- INTERNAL: a block that meets the condition keeps to its own range.
SOURCE: piece_manager.rs:98-115 -/
theorem ownBlockOnly_of_wholeBlocks {x : Recorded} {e : PieceEvent} (he : WholeBlocks x e) :
    OwnBlockOnly sha1 x e := by
  rintro off data clock y r rfl hoff hstep
  rw [(recorded_block hstep).2.1]
  exact keepsOthers_iff.mpr (he.1 hoff)

/-- INTERNAL: only positions of flagged blocks have been supplied.
SOURCE: piece_manager.rs:102-132 -/
theorem supplied_flagged_step {x y : Recorded} {e : PieceEvent} {r : PieceReply}
    (h : ∀ p, x.supplied p → x.actor.downloadedBlocks.getD (p / 16384) false = true)
    (hstep : recordedStep sha1 x e = some (y, r)) :
    ∀ p, y.supplied p → y.actor.downloadedBlocks.getD (p / 16384) false = true := by
  intro p hp
  cases hb : blockOf e with
  | none =>
    obtain ⟨-, hdown, hsupplied⟩ := recorded_other hb hstep
    rw [hsupplied] at hp
    rw [hdown]
    exact h p hp
  | some j =>
    obtain ⟨off, data, clock, rfl, -⟩ := blockOf_eq_some hb
    obtain ⟨-, -, ⟨-, -, hnone⟩ | ⟨-, hdown, hsupplied⟩⟩ := recorded_block hstep
    · exact absurd hp (hnone p)
    · rw [hdown]
      split_ifs with hi
      · rfl
      · rcases (hsupplied p).mp hp with hp | hp
        · exact h p hp
        · exact absurd hp.1 hi

/-- INTERNAL: a block that keeps to its own range, after which flagged blocks are whole and which
does not make the piece start over, meets the condition.
SOURCE: piece_manager.rs:98-136 -/
theorem wholeBlocks_of_flagsMeanWhole {x : Recorded} {e : PieceEvent}
    (hflagged : ∀ p, x.supplied p → x.actor.downloadedBlocks.getD (p / 16384) false = true)
    (hown : OwnBlockOnly sha1 x e) (hreset : NoReset sha1 x e)
    (h : ∀ y r, recordedStep sha1 x e = some (y, r) → FlagsMeanWhole y) : WholeBlocks x e := by
  cases hb : blockOf e with
  | none =>
    unfold WholeBlocks
    split
    · simp [blockOf] at hb
    · trivial
  | some j =>
    obtain ⟨off, data, clock, rfl, -⟩ := blockOf_eq_some hb
    by_cases hinside : off / 16384 < noOfBlocks x.actor.data.length
    · obtain ⟨t, outcome, hblock⟩ := blockRecived_isSome sha1 data hinside
      obtain ⟨y, hstep⟩ : ∃ y, recordedStep sha1 x (.recv (.blockRecived off data) clock) =
          some (y, .done outcome) :=
        ⟨⟨t, _⟩, recordedStep_eq_some.mpr
          ⟨pieceStep_blockRecived.mpr ⟨outcome, hblock, rfl⟩, rfl⟩⟩
      obtain ⟨-, hdata, hcases⟩ := recorded_block hstep
      constructor
      · intro hoff
        rw [← keepsOthers_iff, ← hdata]
        exact hown off data clock y _ rfl hoff hstep
      · intro _
        rcases hcases with ⟨hr, -, -⟩ | ⟨-, hdown, hsupplied⟩
        · exact absurd (hr ▸ hstep) (hreset y)
        cases hflag : x.actor.downloadedBlocks.getD (off / 16384) false with
        | true => exact Or.inl rfl
        | false =>
          -- nothing of the block was there, so this block has brought all of it
          right
          rw [← supplies_iff_coversBlock hinside]
          intro p hp hlen
          have hall := h y _ hstep (off / 16384) (by rw [hdown, if_pos rfl]) p hp
            (by rw [hdata, length_storedData]; exact hlen)
          rcases (hsupplied p).mp hall with hold | hnew
          · have := hflagged p hold
            rw [hp, hflag] at this
            cases this
          · exact hnew
    · refine ⟨fun hoff => ?_, fun h => absurd h hinside⟩
      rw [lt_noOfBlocks_iff] at hinside
      omega

/-- **Blocks keep to their own range and flags mean whole blocks when every block is whole.** In
every run of a fresh actor whose steps meet `WholeBlocks`: a block with an offset in the piece
changes no byte outside its own range, and in every state a block is flagged as downloaded only if
each position of it was supplied by a block for it since the last reset. In a run without resets
this is so only if the steps meet the condition.
SOURCE: piece_manager.rs:54-59, piece_manager.rs:98-136 -/
theorem own_block_only (sha1 : Bytes → Bytes) (pLen timeout : ℕ) (hash : Bytes)
    (es : List PieceEvent) :
    (AllSteps (recordedStep sha1) WholeBlocks (.new pLen hash timeout) es →
      AllSteps (recordedStep sha1) (OwnBlockOnly sha1) (.new pLen hash timeout) es ∧
      AllStates (recordedStep sha1) FlagsMeanWhole (.new pLen hash timeout) es) ∧
    (AllSteps (recordedStep sha1) (NoReset sha1) (.new pLen hash timeout) es →
      AllSteps (recordedStep sha1) (OwnBlockOnly sha1) (.new pLen hash timeout) es →
      AllStates (recordedStep sha1) FlagsMeanWhole (.new pLen hash timeout) es →
      AllSteps (recordedStep sha1) WholeBlocks (.new pLen hash timeout) es) := by
  have hstart : FlagsMeanWhole (.new pLen hash timeout) := by
    intro i hi
    simp only [Recorded.new, PieceRequestManagerActor.new, Bitfield.getD_zeros,
      Bool.false_eq_true] at hi
  constructor
  · intro h
    refine ⟨?_, ?_⟩
    · exact allSteps_of_invariant (fun _ => True) (fun _ _ _ _ _ _ _ => trivial)
        (fun _ _ _ he => ownBlockOnly_of_wholeBlocks he) trivial h
    · exact allStates_of_invariant FlagsMeanWhole
        (fun _ _ _ _ hx he hstep => flagsMeanWhole_step hx he hstep) (fun _ hx => hx) hstart h
  · intro hreset hown hstates
    have hnext := allSteps_of_allStates (fun _ _ h => h) hstates
    exact allSteps_of_invariant
      (fun x => ∀ p, x.supplied p → x.actor.downloadedBlocks.getD (p / 16384) false = true)
      (fun _ _ _ _ hx _ hstep => supplied_flagged_step hx hstep)
      (fun _ _ hx h => wholeBlocks_of_flagsMeanWhole hx h.2.1 h.1 h.2.2)
      (fun _ hp => hp.elim) (hreset.and (hown.and hnext))

/-- A piece of two blocks of which the short one is delivered whole. -/
theorem own_block_only_two_blocks :
    let es : List PieceEvent := [.recv (.blockRecived 16384 [5]) fun _ => 0]
    (AllSteps (recordedStep List.reverse) (OwnBlockOnly List.reverse) (.new 16385 [7] 4) es ∧
      AllStates (recordedStep List.reverse) FlagsMeanWhole (.new 16385 [7] 4) es) ∧
    AllSteps (recordedStep List.reverse) WholeBlocks (.new 16385 [7] 4) es := by
  intro es
  have hlen : (Recorded.new 16385 [7] 4).actor.data.length = 16385 := List.length_replicate
  have hstep : ∃ y, recordedStep List.reverse (.new 16385 [7] 4)
      (.recv (.blockRecived 16384 [5]) fun _ => 0) = some (y, .done .pending) := ⟨_, rfl⟩
  have hwhole := (own_block_only List.reverse 16385 4 [7] es).1 (by
    refine ⟨⟨fun _ => Or.inr fun k hk hlt => ?_, fun _ => Or.inr ?_⟩, fun _ _ _ => trivial⟩
    · exact absurd hlt (by simp only [List.length_singleton]; omega)
    · rw [CoversBlock, hlen]
      decide)
  refine ⟨hwhole, (own_block_only List.reverse 16385 4 [7] es).2 ?_ hwhole.1 hwhole.2⟩
  obtain ⟨y, hstep⟩ := hstep
  refine ⟨fun z hz => ?_, fun _ _ _ => trivial⟩
  rw [hstep] at hz
  cases hz

/-- A piece of two blocks: a block without data is flagged as downloaded. -/
theorem flagged_without_bytes :
    ∃ y, run (recordedStep List.reverse) (.new 16385 [7] 4)
        [.recv (.blockRecived 0 []) fun _ => 0] = some y ∧
      y.actor.downloadedBlocks.getD 0 false = true ∧ y.actor.data.length = 16385 ∧
      ¬ y.supplied 0 ∧ ¬ FlagsMeanWhole y := by
  have hstep : ∃ y, recordedStep List.reverse (.new 16385 [7] 4)
      (.recv (.blockRecived 0 []) fun _ => 0) = some (y, .done .pending) := ⟨_, rfl⟩
  obtain ⟨y, hstep⟩ := hstep
  obtain ⟨-, hdata, ⟨h, -⟩ | ⟨-, hdown, hsupplied⟩⟩ := recorded_block hstep
  · cases h
  have hflag : y.actor.downloadedBlocks.getD 0 false = true := by
    rw [hdown, if_pos rfl]
  have hlen : y.actor.data.length = 16385 := by
    rw [hdata, length_storedData]
    exact List.length_replicate
  have hnone : ¬ y.supplied 0 := by
    rw [hsupplied]
    rintro (h | h)
    · exact h
    · simp [Supplies] at h
  refine ⟨y, ?_, hflag, hlen, hnone, fun h => hnone (h 0 hflag 0 rfl ?_)⟩
  · rw [run_cons_some _ hstep, run_nil]
  · rw [hlen]
    omega

end Fissure.Analysis
