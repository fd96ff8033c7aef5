import Fissure.Analysis.Addressing
import Fissure.Analysis.UncheckedBlocks

/-!
# The bookkeeping of blocks

A piece actor keeps three bit vectors and a map of timers, and each of its arms updates some of
them. They agree in every state the actor can reach (`FlagsInv`, here as `Bookkeeping`), so whatever
is neither in flight nor downloaded is required as well, and a request gets the first blocks of
these (`freeBlocks_eq_requestables`, `bookkeeping_of_run`): no block is left out for ever.
-/

set_option autoImplicit false

namespace Fissure.Analysis

open Fissure.Library Fissure.Model
open Fissure.Model.PieceRequestManagerActor

variable {sha1 : Bytes → Bytes} {pLen timeout : ℕ} {hash : Bytes} {es : List PieceEvent}
  {s : PieceRequestManagerActor}

/-- The blocks of a piece of `pLen` bytes that are neither in flight nor downloaded, in order. -/
def freeBlocks (pLen : ℕ) (s : PieceRequestManagerActor) : List ℕ :=
  (List.range (noOfBlocks pLen)).filter fun i =>
    !s.blocksInFlight.getD i false && !s.downloadedBlocks.getD i false

/-- The bit vectors have one bit per block; a block is required exactly when it is not downloaded,
and in flight exactly when it has a timer, and then it is required; only blocks of the piece have a
timer. -/
structure Bookkeeping (pLen : ℕ) (s : PieceRequestManagerActor) : Prop where
  downloaded_length : s.downloadedBlocks.length = noOfBlocks pLen
  inFlight_length : s.blocksInFlight.length = noOfBlocks pLen
  required_length : s.requiredBlocks.length = noOfBlocks pLen
  required_iff : ∀ i < noOfBlocks pLen,
    s.requiredBlocks.getD i false = true ↔ s.downloadedBlocks.getD i false = false
  inFlight_iff : ∀ i, s.blocksInFlight.getD i false = true ↔ i ∈ s.inFlightTimers
  required_of_inFlight : ∀ i, s.blocksInFlight.getD i false = true →
    s.requiredBlocks.getD i false = true
  timer_lt : ∀ i ∈ s.inFlightTimers, i < noOfBlocks pLen

/-- A request of `k` blocks is answered with the first `k` blocks that are neither in flight nor
downloaded, or all of them, and exactly these go in flight. -/
def HandsOutFirst (sha1 : Bytes → Bytes) (pLen : ℕ) (s : PieceRequestManagerActor) : Prop :=
  ∀ k clock, ∃ t, pieceStep sha1 s (.recv (.blocksToRequest k) clock) =
      some (t, .blocks (((freeBlocks pLen s).take k).map (blockSpan pLen))) ∧
    ∀ i, t.blocksInFlight.getD i false = true ↔
      i ∈ (freeBlocks pLen s).take k ∨ s.blocksInFlight.getD i false = true

/-- INTERNAL: the buffer has the length of the piece in every reachable state.
SOURCE: piece_manager.rs:40-41 -/
theorem data_length_of_run (hrun : run (pieceStep sha1) (new pLen hash timeout) es = some s) :
    s.data.length = pLen := by
  have hnew : (new pLen hash timeout).data.length = pLen := List.length_replicate
  have hstep {s t : PieceRequestManagerActor} {e : PieceEvent} {r : PieceReply}
      (hs : s.data.length = pLen) (h : pieceStep sha1 s e = some (t, r)) : t.data.length = pLen :=
    (hash_length_of_pieceStep h).2.trans hs
  exact run_invariant (fun _ _ _ _ => hstep) hnew hrun

/-- INTERNAL: when the flags agree, the bookkeeping is right.
SOURCE: piece_manager.rs:26-52 -/
theorem FlagsInv.bookkeeping (h : FlagsInv sha1 s) : Bookkeeping s.data.length s where
  downloaded_length := s.length_downloaded
  inFlight_length := s.length_inFlight
  required_length := s.length_required
  required_iff i hi := by rw [h.required i hi, Bool.not_eq_true']
  inFlight_iff i := by rw [h.timed i, Finmap.mem_iff, Option.isSome_iff_exists]
  required_of_inFlight i hi := by
    have hlt : i < noOfBlocks s.data.length := s.length_inFlight ▸ Bitfield.lt_length_of_getD hi
    have hnot : s.downloadedBlocks.getD i false ≠ true := by
      intro hdown
      rw [h.waiting i hdown] at hi
      cases hi
    rw [h.required i hlt, Bool.eq_false_iff.mpr hnot, Bool.not_false]
  timer_lt := s.timers_lt

/-- INTERNAL: when the flags agree, whatever is neither in flight nor downloaded can be requested.
SOURCE: piece_manager.rs:86 -/
theorem freeBlocks_eq_requestables (h : FlagsInv sha1 s) :
    freeBlocks s.data.length s = requestables s := by
  unfold freeBlocks requestables
  rw [s.length_required]
  apply List.filter_congr
  intro i hi
  rw [requestable, h.required i (List.mem_range.mp hi)]
  cases s.downloadedBlocks.getD i false <;> simp

/-- INTERNAL: when the flags agree, a request gets the first blocks that are free.
SOURCE: piece_manager.rs:77-97 -/
theorem FlagsInv.handsOutFirst (h : FlagsInv sha1 s) : HandsOutFirst sha1 s.data.length s := by
  intro k clock
  obtain ⟨hout, hreply⟩ := handedOut_blocksToRequest s k clock
  have hfree : blocksHandedOut s k = (freeBlocks s.data.length s).take k := by
    rw [freeBlocks_eq_requestables h]
    rfl
  have hspans : (s.blocksToRequest k clock).2 =
      ((freeBlocks s.data.length s).take k).map (blockSpan s.data.length) := by
    rw [hreply, ← hfree]
    apply List.map_congr_left
    intro i hi
    exact blockLength_eq s (lt_of_requestable (requestable_of_mem_blocksHandedOut hi))
  refine ⟨(s.blocksToRequest k clock).1, ?_, fun i => ?_⟩
  · rw [← hspans]
    rfl
  · rw [hout.inFlight, hfree, Bool.or_eq_true, decide_eq_true_eq]

/-- **The bookkeeping of a piece is right.** In every state that the actor of a piece of any length
reaches, whatever requests, blocks, reads and ticks it has handled: the bit vectors and the timers
agree, and a request is answered with the first blocks that are neither in flight nor downloaded,
each with its offset and its length, and these go in flight.
SOURCE: piece_manager.rs:26-59, piece_manager.rs:77-136, piece_manager.rs:180-195 -/
theorem bookkeeping_of_run (hrun : run (pieceStep sha1) (new pLen hash timeout) es = some s) :
    Bookkeeping pLen s ∧ HandsOutFirst sha1 pLen s := by
  have hflags := flagsInv_of_run hrun
  have hlength := data_length_of_run hrun
  exact ⟨hlength ▸ hflags.bookkeeping, hlength ▸ hflags.handsOutFirst⟩

/-- Both blocks of a piece are requested, the second one comes, and the first one expires. -/
def receivedAndExpired : List PieceEvent :=
  [.recv (.blocksToRequest 2) fun _ => 0,
    .recv (.blockRecived 16384 (List.replicate 3616 7)) fun _ => 0, .tick 5000000000]

/-- The bookkeeping is right after that. -/
theorem bookkeeping_received_and_expired :
    ∃ s, run (pieceStep id) (new 20000 [] 4) receivedAndExpired = some s ∧
      Bookkeeping 20000 s ∧ HandsOutFirst id 20000 s := by
  have hlength (s : PieceRequestManagerActor) (hs : s.data.length = 20000) :
      ∃ t r, pieceStep id s (.recv (.blockRecived 16384 (List.replicate 3616 7)) fun _ => 0) =
        some (t, r) := by
    apply pieceStep_isSome
    rintro i ⟨⟩
    rw [hs]
    decide
  have hfirst : run (pieceStep id) (new 20000 [] 4) [.recv (.blocksToRequest 2) fun _ => 0] =
      some _ := rfl
  obtain ⟨t, r, hsecond⟩ := hlength _ (data_length_of_run hfirst)
  have hrun : run (pieceStep id) (new 20000 [] 4) receivedAndExpired = some (t.tick 5000000000) :=
    run_append.mpr ⟨_, hfirst, run_cons_some _ hsecond⟩
  exact ⟨_, hrun, bookkeeping_of_run hrun⟩

end Fissure.Analysis
