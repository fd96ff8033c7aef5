import Fissure.Library.Blocks
import Fissure.Model.PieceManager

/-!
# What one step of the piece actor does

One lemma for each arm of the piece actor's loop says everything the arm can do:
`handedOut_blocksToRequest` for a request, `blockRecived_eq_some` for a block.
`effect_of_pieceStep` puts them together for any event. Later modules reason from these and do
not unfold the handlers.
-/

set_option autoImplicit false

namespace Fissure.Analysis

open Fissure.Library Fissure.Model
open Fissure.Model.PieceRequestManagerActor

/-- INTERNAL: block `i` exists exactly when it begins inside the piece.
SOURCE: piece_manager.rs:28-33 -/
theorem lt_noOfBlocks_iff {i pLen : ℕ} : i < noOfBlocks pLen ↔ i * 16384 < pLen := by
  unfold noOfBlocks
  split_ifs <;> omega

/-- INTERNAL: a bit vector is all ones exactly when each of its bits is set. -/
theorem all_id_iff {b : Bitfield} {n : ℕ} (hn : b.length = n) :
    b.all id = true ↔ ∀ i < n, b.getD i false = true := by
  subst hn
  rw [List.all_eq_true]
  constructor
  · intro h i hi
    rw [List.getD_eq_getElem _ _ hi]
    exact h _ (List.getElem_mem hi)
  · intro h x hx
    obtain ⟨i, hi, rfl⟩ := List.mem_iff_getElem.mp hx
    have := h i hi
    rwa [List.getD_eq_getElem _ _ hi] at this

/-! ## Requests -/

/-- The state `t` is the state `s` with the blocks `hs` handed out at the instants `clock`. -/
structure HandedOut (s t : PieceRequestManagerActor) (hs : List ℕ) (clock : ℕ → Instant) :
    Prop where
  data : t.data = s.data
  hash : t.hash = s.hash
  timeout : t.blockRequestTimeout = s.blockRequestTimeout
  downloaded : t.downloadedBlocks = s.downloadedBlocks
  required : t.requiredBlocks = s.requiredBlocks
  inFlight : ∀ i, t.blocksInFlight.getD i false = (decide (i ∈ hs) || s.blocksInFlight.getD i false)
  timers : ∀ i, t.inFlightTimers.lookup i =
    if i ∈ hs then some (clock i) else s.inFlightTimers.lookup i

/-- INTERNAL: handing out nothing changes nothing. -/
theorem HandedOut.refl (s : PieceRequestManagerActor) (clock : ℕ → Instant) :
    HandedOut s s [] clock :=
  ⟨rfl, rfl, rfl, rfl, rfl, by simp, by simp⟩

/-- INTERNAL: one more block is handed out before the others.
SOURCE: piece_manager.rs:86-91 -/
theorem HandedOut.cons {s t : PieceRequestManagerActor} {idx : ℕ} {hs : List ℕ}
    {clock : ℕ → Instant} (hlt : idx < noOfBlocks s.data.length) (hnot : idx ∉ hs)
    (h : HandedOut (s.handOut idx (clock idx) hlt) t hs clock) :
    HandedOut s t (idx :: hs) clock where
  data := h.data
  hash := h.hash
  timeout := h.timeout
  downloaded := h.downloaded
  required := h.required
  inFlight := by
    intro i
    have hidx : idx < s.blocksInFlight.length := by rw [s.length_inFlight]; exact hlt
    rw [h.inFlight, handOut, Bitfield.getD_set hidx]
    by_cases hi : idx = i
    · simp [hi]
    · simp [hi, Ne.symm hi]
  timers := by
    intro i
    rw [h.timers, handOut, HashMap.lookup_insert_eq]
    by_cases hi : i = idx
    · subst hi
      simp [hnot]
    · simp [hi]

/-- INTERNAL: handing out a block leaves the other blocks as requestable as they were.
SOURCE: piece_manager.rs:86 -/
theorem requestable_handOut {s : PieceRequestManagerActor} {idx i : ℕ} {now : Instant}
    (hlt : idx < noOfBlocks s.data.length) (hi : i ≠ idx) :
    (s.handOut idx now hlt).requestable i = s.requestable i := by
  have hidx : idx < s.blocksInFlight.length := by rw [s.length_inFlight]; exact hlt
  simp only [requestable, handOut, Bitfield.getD_set hidx, if_neg (Ne.symm hi)]

/-- The blocks a `BlocksToRequest` hands out: the first `k` requestable ones. -/
def blocksHandedOut (s : PieceRequestManagerActor) (k : ℕ) : List ℕ :=
  ((List.range s.requiredBlocks.length).filter s.requestable).take k

/-- INTERNAL: the hand-out loop from any point on. The induction is on the indices still to
visit; the blocks already handed out do not occur among them.
SOURCE: piece_manager.rs:81-92 -/
theorem blocksToRequestLoop_spec (k : ℕ) (clock : ℕ → Instant) (l : List ℕ) (hl : l.Nodup)
    (s : PieceRequestManagerActor) (out : List (ℕ × ℕ)) :
    HandedOut s (blocksToRequestLoop k clock l s out).1
        ((l.filter s.requestable).take (k - out.length)) clock ∧
      (blocksToRequestLoop k clock l s out).2 = out ++
        ((l.filter s.requestable).take (k - out.length)).map
          fun i => (convertBlockIndexToOffset i, s.blockLength i) := by
  induction l generalizing s out with
  | nil => simp [blocksToRequestLoop, HandedOut.refl]
  | cons idx rest ih =>
    obtain ⟨hnot, hrest⟩ := List.nodup_cons.mp hl
    by_cases hfull : k ≤ out.length
    · simp [blocksToRequestLoop, hfull, Nat.sub_eq_zero_of_le hfull, HandedOut.refl]
    · by_cases hreq : s.requestable idx = true
      · have hlt := lt_of_requestable hreq
        -- the rest of the loop sees the other blocks unchanged
        have hfilter : rest.filter (s.handOut idx (clock idx) hlt).requestable =
            rest.filter s.requestable := by
          apply List.filter_congr
          intro i hi
          exact requestable_handOut hlt (fun h => hnot (h ▸ hi))
        obtain ⟨h1, h2⟩ := ih hrest (s.handOut idx (clock idx) hlt)
          (out ++ [(convertBlockIndexToOffset idx, s.blockLength idx)])
        rw [hfilter] at h1 h2
        have hlen : k - out.length = k - (out.length + 1) + 1 := by omega
        simp only [List.length_append, List.length_singleton] at h1 h2
        rw [blocksToRequestLoop, if_neg hfull, dif_pos hreq, List.filter_cons_of_pos hreq, hlen,
          List.take_succ_cons]
        refine ⟨h1.cons hlt ?_, ?_⟩
        · intro hmem
          exact hnot (List.mem_of_mem_filter (List.mem_of_mem_take hmem))
        · rw [h2, List.append_assoc, List.singleton_append, List.map_cons]
          rfl
      · rw [blocksToRequestLoop, if_neg hfull, dif_neg hreq, List.filter_cons_of_neg hreq]
        exact ih hrest s out

/-- INTERNAL: a request hands out the first `k` requestable blocks and changes nothing else.
SOURCE: piece_manager.rs:77-97 -/
theorem handedOut_blocksToRequest (s : PieceRequestManagerActor) (k : ℕ) (clock : ℕ → Instant) :
    HandedOut s (s.blocksToRequest k clock).1 (blocksHandedOut s k) clock ∧
      (s.blocksToRequest k clock).2 =
        (blocksHandedOut s k).map fun i => (convertBlockIndexToOffset i, s.blockLength i) := by
  simpa [blocksToRequest, blocksHandedOut] using
    blocksToRequestLoop_spec k clock (List.range s.requiredBlocks.length) List.nodup_range s []

/-- INTERNAL: a block that is handed out was requestable.
SOURCE: piece_manager.rs:86 -/
theorem requestable_of_mem_blocksHandedOut {s : PieceRequestManagerActor} {k i : ℕ}
    (h : i ∈ blocksHandedOut s k) : s.requestable i = true :=
  (List.mem_filter.mp (List.mem_of_mem_take h)).2

/-- INTERNAL: a requestable block is neither in flight nor downloaded.
SOURCE: piece_manager.rs:86 -/
theorem requestable_iff {s : PieceRequestManagerActor} {i : ℕ} :
    s.requestable i = true ↔ s.requiredBlocks.getD i false = true ∧
      s.blocksInFlight.getD i false = false ∧ s.downloadedBlocks.getD i false = false := by
  simp [requestable, and_assoc]

/-! ## Blocks -/

/-- The state `t` is the state `s` with block `i` flagged as downloaded and `data` stored. -/
structure Marked (s t : PieceRequestManagerActor) (i : ℕ) (data : Bytes) : Prop where
  data : t.data = storedData s.data i data
  hash : t.hash = s.hash
  timeout : t.blockRequestTimeout = s.blockRequestTimeout
  downloaded : ∀ j, t.downloadedBlocks.getD j false =
    if i = j then true else s.downloadedBlocks.getD j false
  inFlight : ∀ j, t.blocksInFlight.getD j false =
    if i = j then false else s.blocksInFlight.getD j false
  required : ∀ j, t.requiredBlocks.getD j false =
    if i = j then false else s.requiredBlocks.getD j false
  timers : ∀ j, t.inFlightTimers.lookup j = if j = i then none else s.inFlightTimers.lookup j

/-- The state `t` is the state `s` with every flag cleared and `data` stored at block `i`. -/
structure Restarted (s t : PieceRequestManagerActor) (i : ℕ) (data : Bytes) : Prop where
  data : t.data = storedData s.data i data
  hash : t.hash = s.hash
  timeout : t.blockRequestTimeout = s.blockRequestTimeout
  downloaded : ∀ j, t.downloadedBlocks.getD j false = false
  inFlight : ∀ j, t.blocksInFlight.getD j false = false
  required : ∀ j < noOfBlocks s.data.length, t.requiredBlocks.getD j false = true
  timers : t.inFlightTimers = ∅

/-- INTERNAL: the flags and the buffer after the first lines of the block arm.
SOURCE: piece_manager.rs:102-115 -/
theorem marked_storeBlock (s : PieceRequestManagerActor) {i : ℕ} (data : Bytes)
    (hi : i < noOfBlocks s.data.length) :
    Marked s ((s.markReceived i).storeBlock i data) i data where
  data := rfl
  hash := rfl
  timeout := rfl
  downloaded := Bitfield.getD_set (by rw [s.length_downloaded]; exact hi) true
  inFlight := Bitfield.getD_set (by rw [s.length_inFlight]; exact hi) false
  required := Bitfield.getD_set (by rw [s.length_required]; exact hi) false
  timers := HashMap.lookup_erase_eq s.inFlightTimers i

/-- INTERNAL: a bit vector whose bits are all replaced reads the new bit inside it. -/
theorem getD_map_const (b : Bitfield) (v : Bool) (j : ℕ) :
    (b.map fun _ => v).getD j false = (decide (j < b.length) && v) := by
  by_cases hj : j < b.length
  · simp [List.getD_eq_getElem?_getD, hj]
  · simp [List.getD_eq_getElem?_getD, hj]

/-- INTERNAL: the flags and the buffer after a hash mismatch.
SOURCE: piece_manager.rs:126-132 -/
theorem restarted_resetPiece {s t : PieceRequestManagerActor} {i : ℕ} {data : Bytes}
    (h : Marked s t i data) : Restarted s t.resetPiece i data where
  data := h.data
  hash := h.hash
  timeout := h.timeout
  downloaded := by intro j; simp only [resetPiece, getD_map_const, Bool.and_false]
  inFlight := by intro j; simp only [resetPiece, getD_map_const, Bool.and_false]
  required := by
    intro j hj
    simp only [resetPiece, getD_map_const, Bool.and_true, decide_eq_true_eq]
    rw [t.length_required, h.data, length_storedData]
    exact hj
  timers := rfl

/-- What a `BlockRecived` for block `i` makes of the state `s`, by its outcome: the piece is
not complete; it is and its hash matches; or it is, the hash is wrong and it starts over. -/
def BlockEffect (sha1 : Bytes → Bytes) (s t : PieceRequestManagerActor) (i : ℕ) (data : Bytes) :
    BlockOutcome → Prop
  | .pending => Marked s t i data ∧
      ¬ ∀ j < noOfBlocks s.data.length, t.downloadedBlocks.getD j false = true
  | .verified => Marked s t i data ∧
      (∀ j < noOfBlocks s.data.length, t.downloadedBlocks.getD j false = true) ∧
      sha1 t.data = t.hash
  | .reset => Restarted s t i data ∧
      (∀ j < noOfBlocks s.data.length, i = j ∨ s.downloadedBlocks.getD j false = true) ∧
      sha1 t.data ≠ t.hash

/-- INTERNAL: everything a block can do.
SOURCE: piece_manager.rs:98-136 -/
theorem blockRecived_eq_some {sha1 : Bytes → Bytes} {s t : PieceRequestManagerActor} {off : ℕ}
    {data : Bytes} {outcome : BlockOutcome}
    (h : s.blockRecived sha1 off data = some (t, outcome)) :
    off / 16384 < noOfBlocks s.data.length ∧ BlockEffect sha1 s t (off / 16384) data outcome := by
  have hi : off / 16384 < noOfBlocks s.data.length := by
    by_contra hi
    rw [blockRecived, if_neg (by rw [s.length_required]; exact hi)] at h
    cases h
  rw [blockRecived, if_pos (by rw [s.length_required]; exact hi)] at h
  have hmark := marked_storeBlock s data hi
  have hlen := PieceRequestManagerActor.length_downloaded
    ((s.markReceived (off / 16384)).storeBlock (off / 16384) data)
  rw [hmark.data, length_storedData] at hlen
  refine ⟨hi, ?_⟩
  dsimp only at h
  split at h
  · rename_i hall
    have hall := (all_id_iff hlen).mp hall
    split at h
    · rename_i hsha
      cases h
      exact ⟨hmark, hall, hsha⟩
    · rename_i hsha
      cases h
      refine ⟨restarted_resetPiece hmark, fun j hj => ?_, hsha⟩
      have hj := hall j hj
      rw [hmark.downloaded] at hj
      split_ifs at hj with hij
      · exact Or.inl hij
      · exact Or.inr hj
  · rename_i hall
    cases h
    exact ⟨hmark, fun h => hall ((all_id_iff hlen).mpr h)⟩

/-- INTERNAL: a block inside the piece does not stop the actor.
SOURCE: piece_manager.rs:98-136 -/
theorem blockRecived_isSome (sha1 : Bytes → Bytes) {s : PieceRequestManagerActor} {off : ℕ}
    (data : Bytes) (h : off / 16384 < noOfBlocks s.data.length) :
    ∃ t outcome, s.blockRecived sha1 off data = some (t, outcome) := by
  rw [blockRecived, if_pos (by rw [s.length_required]; exact h)]
  dsimp only
  split
  · split
    · exact ⟨_, _, rfl⟩
    · exact ⟨_, _, rfl⟩
  · exact ⟨_, _, rfl⟩

/-- INTERNAL: the step that handles a block is the block arm.
SOURCE: piece_manager.rs:98-136 -/
theorem pieceStep_blockRecived {sha1 : Bytes → Bytes} {s t : PieceRequestManagerActor} {off : ℕ}
    {data : Bytes} {clock : ℕ → Instant} {r : PieceReply} :
    pieceStep sha1 s (.recv (.blockRecived off data) clock) = some (t, r) ↔
      ∃ outcome, s.blockRecived sha1 off data = some (t, outcome) ∧ r = .done outcome := by
  simp only [pieceStep, Option.map_eq_some_iff, Prod.exists, Prod.mk.injEq]
  constructor
  · rintro ⟨t, outcome, h, rfl, rfl⟩
    exact ⟨outcome, h, rfl⟩
  · rintro ⟨outcome, h, rfl⟩
    exact ⟨t, outcome, h, rfl, rfl⟩

/-- INTERNAL: whatever a block does, the buffer is the old one with the block stored.
SOURCE: piece_manager.rs:107-115 -/
theorem BlockEffect.data_eq {sha1 : Bytes → Bytes} {s t : PieceRequestManagerActor} {i : ℕ}
    {data : Bytes} {outcome : BlockOutcome} (h : BlockEffect sha1 s t i data outcome) :
    t.data = storedData s.data i data ∧ t.hash = s.hash := by
  cases outcome with
  | pending => exact ⟨h.1.data, h.1.hash⟩
  | verified => exact ⟨h.1.data, h.1.hash⟩
  | reset => exact ⟨h.1.data, h.1.hash⟩

/-! ## Ticks -/

/-- INTERNAL: a tick takes the expired blocks out of flight.
SOURCE: piece_manager.rs:190-194 -/
theorem getD_inFlight_tick (s : PieceRequestManagerActor) (now : Instant) (i : ℕ) :
    (s.tick now).blocksInFlight.getD i false =
      (!s.timerExpired now i && s.blocksInFlight.getD i false) := by
  simp only [tick, List.getD_eq_getElem?_getD, List.getElem?_mapIdx]
  cases s.blocksInFlight[i]? <;> cases s.timerExpired now i <;> simp

/-- INTERNAL: a tick removes the expired timers.
SOURCE: piece_manager.rs:185-194 -/
theorem lookup_timers_tick (s : PieceRequestManagerActor) (now : Instant) (i : ℕ) :
    (s.tick now).inFlightTimers.lookup i =
      if s.timerExpired now i then none else s.inFlightTimers.lookup i := by
  simp only [tick, HashMap.lookup_filterMapVals]
  cases s.inFlightTimers.lookup i <;> cases s.timerExpired now i <;> simp

/-! ## Any step -/

/-- The index of the block the event carries. -/
def blockOf : PieceEvent → Option ℕ
  | .recv (.blockRecived off _) _ => some (convertBlockOffsetToIndex off)
  | _ => none

/-- INTERNAL: only a `BlockRecived` carries a block. -/
theorem blockOf_eq_some {e : PieceEvent} {i : ℕ} (h : blockOf e = some i) :
    ∃ off data clock, e = .recv (.blockRecived off data) clock ∧ off / 16384 = i := by
  cases e with
  | tick now => simp [blockOf] at h
  | recv msg clock =>
    cases msg with
    | blockRecived off data => exact ⟨off, data, clock, rfl, Option.some.inj h⟩
    | _ => simp [blockOf] at h

/-- What handling the event can make of the state `s`, and the reply. -/
inductive StepEffect (sha1 : Bytes → Bytes) (s : PieceRequestManagerActor) :
    PieceEvent → PieceRequestManagerActor → PieceReply → Prop
  | tick (now : Instant) : StepEffect sha1 s (.tick now) (s.tick now) .none
  | getData (start stop : ℕ) (clock : ℕ → Instant) :
    StepEffect sha1 s (.recv (.getData start stop) clock) s (.bytes (s.getData start stop))
  | getDataWithLen (start len : ℕ) (clock : ℕ → Instant) :
    StepEffect sha1 s (.recv (.getDataWithLen start len) clock) s
      (.bytes (s.getDataWithLen start len))
  | blocksToRequest {k : ℕ} {clock : ℕ → Instant} {t : PieceRequestManagerActor}
    (out : HandedOut s t (blocksHandedOut s k) clock) :
    StepEffect sha1 s (.recv (.blocksToRequest k) clock) t (.blocks
      ((blocksHandedOut s k).map fun i => (convertBlockIndexToOffset i, s.blockLength i)))
  | blockRecived {off : ℕ} {data : Bytes} {clock : ℕ → Instant} {t : PieceRequestManagerActor}
    {outcome : BlockOutcome} (inside : off / 16384 < noOfBlocks s.data.length)
    (effect : BlockEffect sha1 s t (off / 16384) data outcome) :
    StepEffect sha1 s (.recv (.blockRecived off data) clock) t (.done outcome)

/-- INTERNAL: everything one round of the actor's loop can do.
SOURCE: piece_manager.rs:72-196 -/
theorem effect_of_pieceStep {sha1 : Bytes → Bytes} {s t : PieceRequestManagerActor}
    {e : PieceEvent} {r : PieceReply} (h : pieceStep sha1 s e = some (t, r)) :
    StepEffect sha1 s e t r := by
  cases e with
  | tick now =>
    cases h
    exact .tick now
  | recv msg clock =>
    cases msg with
    | getData start stop =>
      cases h
      exact .getData start stop clock
    | getDataWithLen start len =>
      cases h
      exact .getDataWithLen start len clock
    | blocksToRequest k =>
      obtain ⟨hout, hreply⟩ := handedOut_blocksToRequest s k clock
      obtain ⟨rfl, rfl⟩ := Prod.mk.inj (Option.some.inj h)
      exact hreply ▸ .blocksToRequest hout
    | blockRecived off data =>
      obtain ⟨outcome, hblock, rfl⟩ := pieceStep_blockRecived.mp h
      obtain ⟨hinside, heffect⟩ := blockRecived_eq_some hblock
      exact .blockRecived hinside heffect

/-- INTERNAL: the actor keeps its digest and the length of its buffer.
SOURCE: piece_manager.rs:72-196 -/
theorem hash_length_of_pieceStep {sha1 : Bytes → Bytes} {s t : PieceRequestManagerActor}
    {e : PieceEvent} {r : PieceReply} (h : pieceStep sha1 s e = some (t, r)) :
    t.hash = s.hash ∧ t.data.length = s.data.length := by
  cases effect_of_pieceStep h with
  | tick | getData | getDataWithLen => exact ⟨rfl, rfl⟩
  | blocksToRequest out => exact ⟨out.hash, by rw [out.data]⟩
  | blockRecived inside effect =>
    obtain ⟨hdata, hhash⟩ := effect.data_eq
    exact ⟨hhash, by rw [hdata, length_storedData]⟩

/-- INTERNAL: only a block beyond the end of the piece stops the actor.
SOURCE: piece_manager.rs:72-196 -/
theorem pieceStep_isSome (sha1 : Bytes → Bytes) {s : PieceRequestManagerActor} {e : PieceEvent}
    (h : ∀ i, blockOf e = some i → i < noOfBlocks s.data.length) :
    ∃ t r, pieceStep sha1 s e = some (t, r) := by
  cases e with
  | tick now => exact ⟨_, _, rfl⟩
  | recv msg clock =>
    cases msg with
    | blockRecived off data =>
      obtain ⟨t, outcome, hblock⟩ := blockRecived_isSome sha1 data (h _ rfl)
      exact ⟨t, .done outcome, pieceStep_blockRecived.mpr ⟨outcome, hblock, rfl⟩⟩
    | _ => exact ⟨_, _, rfl⟩

/-- INTERNAL: an event without a block touches neither the buffer, nor the digest, nor the
flags of downloaded blocks, and does not answer a block.
SOURCE: piece_manager.rs:77-97, piece_manager.rs:137-196 -/
theorem unchanged_of_pieceStep {sha1 : Bytes → Bytes} {s t : PieceRequestManagerActor}
    {e : PieceEvent} {r : PieceReply} (he : blockOf e = none)
    (h : pieceStep sha1 s e = some (t, r)) :
    t.data = s.data ∧ t.hash = s.hash ∧ t.downloadedBlocks = s.downloadedBlocks ∧
      ∀ outcome, r ≠ .done outcome := by
  cases effect_of_pieceStep h with
  | tick now => exact ⟨rfl, rfl, rfl, nofun⟩
  | getData start stop clock => exact ⟨rfl, rfl, rfl, nofun⟩
  | getDataWithLen start len clock => exact ⟨rfl, rfl, rfl, nofun⟩
  | blocksToRequest out => exact ⟨out.data, out.hash, out.downloaded, nofun⟩
  | blockRecived inside effect => cases he

end Fissure.Analysis
