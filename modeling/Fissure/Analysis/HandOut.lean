import Fissure.Library.Transition
import Fissure.Analysis.PieceManagerSteps

/-!
# A block is handed out once while its request is live

After a hand-out the block is in flight with a running timer. As long as no tick finds that
timer expired and no `BlockRecived` names the block, it stays so, and a block in flight is
not requestable (`live_until`). A block that was received is flagged as downloaded, and
stays so until a hash mismatch makes the piece start over (`downloaded_until`).
-/

set_option autoImplicit false

namespace Fissure.Analysis

open Fissure.Library Fissure.Model
open Fissure.Model.PieceRequestManagerActor

variable {sha1 : Bytes → Bytes}

/-- Handling `e` in the state `s` hands out block `b`: the reply names its offset. -/
def HandsOut (sha1 : Bytes → Bytes) (b : ℕ) (s : PieceRequestManagerActor) (e : PieceEvent) :
    Prop :=
  ∃ t l len, pieceStep sha1 s e = some (t, .blocks l) ∧ (convertBlockIndexToOffset b, len) ∈ l

/-- The event `e` is a `BlockRecived` for block `b`. -/
def Receives (b : ℕ) (_ : PieceRequestManagerActor) (e : PieceEvent) : Prop :=
  ∃ off data clock, e = .recv (.blockRecived off data) clock ∧ convertBlockOffsetToIndex off = b

/-- Handling `e` in the state `s` ends with a hash mismatch that makes the piece start over. -/
def Resets (sha1 : Bytes → Bytes) (s : PieceRequestManagerActor) (e : PieceEvent) : Prop :=
  ∃ t, pieceStep sha1 s e = some (t, .done .reset)

/-- The event `e` is a tick at which the timer of block `b` is older than
`block_request_timeout`. -/
def Expires (b : ℕ) (s : PieceRequestManagerActor) (e : PieceEvent) : Prop :=
  ∃ now time, e = .tick now ∧ s.inFlightTimers.lookup b = some time ∧
    fromSecs s.blockRequestTimeout < now.durationSince time

/-- INTERNAL: only a requestable block is handed out, and it goes in flight.
SOURCE: piece_manager.rs:77-97 -/
theorem requestable_of_handsOut {b : ℕ} {s : PieceRequestManagerActor} {e : PieceEvent}
    (h : HandsOut sha1 b s e) :
    s.requestable b = true ∧ ∃ k clock, e = .recv (.blocksToRequest k) clock ∧
      b ∈ blocksHandedOut s k := by
  obtain ⟨t, l, len, hstep, hmem⟩ := h
  cases effect_of_pieceStep hstep with
  | @blocksToRequest k clock _ out =>
    obtain ⟨i, hi, heq⟩ := List.mem_map.mp hmem
    have hib : i = b := by
      have := (Prod.mk.inj heq).1
      simp only [convertBlockIndexToOffset, blockSize] at this
      omega
    subst hib
    exact ⟨requestable_of_mem_blocksHandedOut hi, k, clock, rfl, hi⟩

/-- The request for block `b` is live: the block is in flight, its timer runs and it has not
been received. -/
structure Live (s : PieceRequestManagerActor) (b : ℕ) : Prop where
  inFlight : s.blocksInFlight.getD b false = true
  timer : ∃ time, s.inFlightTimers.lookup b = some time
  waiting : s.downloadedBlocks.getD b false = false

/-- INTERNAL: a block in flight lies in the piece. -/
theorem Live.lt {s : PieceRequestManagerActor} {b : ℕ} (h : Live s b) :
    b < noOfBlocks s.data.length := by
  rw [← s.length_inFlight]
  exact Bitfield.lt_length_of_getD h.inFlight

/-- INTERNAL: what a request hands out is live afterwards.
SOURCE: piece_manager.rs:86-91 -/
theorem live_of_handsOut {b : ℕ} {s t : PieceRequestManagerActor} {e : PieceEvent} {r : PieceReply}
    (h : HandsOut sha1 b s e) (hstep : pieceStep sha1 s e = some (t, r)) : Live t b := by
  obtain ⟨hreq, k, clock, rfl, hmem⟩ := requestable_of_handsOut h
  cases effect_of_pieceStep hstep with
  | blocksToRequest out =>
    refine ⟨?_, ⟨clock b, ?_⟩, ?_⟩
    · rw [out.inFlight]
      simp [hmem]
    · rw [out.timers, if_pos hmem]
    · rw [out.downloaded]
      exact (requestable_iff.mp hreq).2.2

/-- INTERNAL: one step from a state with a live request: the request stays live, or its timer
expires, or the block is received and then the piece starts over or the flag is set.
SOURCE: piece_manager.rs:77-196 -/
theorem live_step {b : ℕ} {s t : PieceRequestManagerActor} {e : PieceEvent} {r : PieceReply}
    (h : Live s b) (hstep : pieceStep sha1 s e = some (t, r)) :
    Live t b ∨ Expires b s e ∨
      Receives b s e ∧ (Resets sha1 s e ∨ t.downloadedBlocks.getD b false = true) := by
  cases effect_of_pieceStep hstep with
  | getData start stop clock => exact Or.inl h
  | getDataWithLen start len clock => exact Or.inl h
  | tick now =>
    obtain ⟨time, htime⟩ := h.timer
    by_cases hexp : s.timerExpired now b = true
    · right; left
      refine ⟨now, time, rfl, htime, ?_⟩
      simpa [timerExpired, htime] using hexp
    · left
      rw [Bool.not_eq_true] at hexp
      refine ⟨?_, ⟨time, ?_⟩, h.waiting⟩
      · rw [getD_inFlight_tick, hexp, h.inFlight, Bool.not_false, Bool.true_and]
      · rw [lookup_timers_tick, hexp, htime, if_neg Bool.false_ne_true]
  | blocksToRequest out =>
    obtain ⟨time, htime⟩ := h.timer
    left
    refine ⟨?_, ?_, ?_⟩
    · rw [out.inFlight, h.inFlight, Bool.or_true]
    · rw [out.timers]
      split_ifs
      · exact ⟨_, rfl⟩
      · exact ⟨time, htime⟩
    · rw [out.downloaded, h.waiting]
  | @blockRecived off data clock _ outcome inside effect =>
    by_cases hb : off / 16384 = b
    · -- the block arrives
      refine Or.inr (Or.inr ⟨⟨off, data, clock, rfl, hb⟩, ?_⟩)
      cases outcome with
      | pending => right; rw [effect.1.downloaded, if_pos hb]
      | verified => right; rw [effect.1.downloaded, if_pos hb]
      | reset => exact Or.inl ⟨t, hstep⟩
    · -- another block arrives: the piece cannot be complete without this one
      left
      have hkeep (hm : Marked s t (off / 16384) data) : Live t b := by
        refine ⟨by rw [hm.inFlight, if_neg hb, h.inFlight], ?_,
          by rw [hm.downloaded, if_neg hb, h.waiting]⟩
        rw [hm.timers, if_neg (Ne.symm hb)]
        exact h.timer
      cases outcome with
      | pending => exact hkeep effect.1
      | verified => exact hkeep effect.1
      | reset =>
        rcases effect.2.1 b h.lt with hb' | hdown
        · exact absurd hb' hb
        · rw [h.waiting] at hdown
          cases hdown

/-- INTERNAL: one step from a state with a downloaded block: the flag stays, or the piece
starts over.
SOURCE: piece_manager.rs:77-196 -/
theorem downloaded_step {b : ℕ} {s t : PieceRequestManagerActor} {e : PieceEvent} {r : PieceReply}
    (h : s.downloadedBlocks.getD b false = true) (hstep : pieceStep sha1 s e = some (t, r)) :
    t.downloadedBlocks.getD b false = true ∨ Resets sha1 s e := by
  cases effect_of_pieceStep hstep with
  | tick now => exact Or.inl h
  | getData start stop clock => exact Or.inl h
  | getDataWithLen start len clock => exact Or.inl h
  | blocksToRequest out =>
    left
    rw [out.downloaded, h]
  | @blockRecived off data clock _ outcome inside effect =>
    cases outcome with
    | pending => left; rw [effect.1.downloaded, h, ite_self]
    | verified => left; rw [effect.1.downloaded, h, ite_self]
    | reset => exact Or.inr ⟨t, hstep⟩

/-- INTERNAL: a downloaded block stays so along a run, or the piece starts over in it. -/
theorem downloaded_until {b : ℕ} {s u : PieceRequestManagerActor} {es : List PieceEvent}
    (h : s.downloadedBlocks.getD b false = true) (hrun : run (pieceStep sha1) s es = some u) :
    u.downloadedBlocks.getD b false = true ∨ Occurs (pieceStep sha1) (Resets sha1) s es := by
  induction es generalizing s with
  | nil => cases hrun; exact Or.inl h
  | cons e es ih =>
    obtain ⟨t, r, hstep, hrun⟩ := run_cons_eq_some.mp hrun
    rcases downloaded_step h hstep with h | hreset
    · exact (ih h hrun).imp_right fun ho => ho.cons hstep
    · exact Or.inr (occurs_head hreset)

/-- INTERNAL: a live request stays live along a run, or its timer expires in it, or the block
is received in it and then stays downloaded or the piece starts over. -/
theorem live_until {b : ℕ} {s u : PieceRequestManagerActor} {es : List PieceEvent}
    (h : Live s b) (hrun : run (pieceStep sha1) s es = some u) :
    Live u b ∨ u.downloadedBlocks.getD b false = true ∨
      Occurs (pieceStep sha1) (Expires b) s es ∨
      OccursThen (pieceStep sha1) (Receives b) (Resets sha1) s es := by
  induction es generalizing s with
  | nil => cases hrun; exact Or.inl h
  | cons e es ih =>
    obtain ⟨t, r, hstep, hrun⟩ := run_cons_eq_some.mp hrun
    rcases live_step h hstep with h | hexp | ⟨hrecv, hreset | hdown⟩
    · rcases ih h hrun with hlive | hdown | hexp | hthen
      · exact Or.inl hlive
      · exact Or.inr (Or.inl hdown)
      · exact Or.inr (Or.inr (Or.inl (hexp.cons hstep)))
      · exact Or.inr (Or.inr (Or.inr (hthen.cons hstep)))
    · exact Or.inr (Or.inr (Or.inl (occurs_head hexp)))
    · exact Or.inr (Or.inr (Or.inr (occursThen_head hrecv (occurs_head hreset))))
    · rcases downloaded_until hdown hrun with hdown | hreset
      · exact Or.inr (Or.inl hdown)
      · exact Or.inr (Or.inr (Or.inr (occursThen_head hrecv (hreset.cons hstep))))

/-- INTERNAL: a block that is received is flagged, or its reception makes the piece start over.
SOURCE: piece_manager.rs:98-136 -/
theorem downloaded_of_receives {b : ℕ} {s t : PieceRequestManagerActor} {e : PieceEvent}
    {r : PieceReply} (h : Receives b s e) (hstep : pieceStep sha1 s e = some (t, r)) :
    t.downloadedBlocks.getD b false = true ∨ Resets sha1 s e := by
  obtain ⟨off, data, clock, rfl, hb⟩ := h
  change off / 16384 = b at hb
  cases effect_of_pieceStep hstep with
  | @blockRecived _ _ _ _ outcome inside effect =>
    cases outcome with
    | pending => left; rw [effect.1.downloaded, if_pos hb]
    | verified => left; rw [effect.1.downloaded, if_pos hb]
    | reset => exact Or.inr ⟨t, hstep⟩

/-- INTERNAL: one reply names no block twice.
SOURCE: piece_manager.rs:81-92 -/
theorem nodup_of_blocks {s t : PieceRequestManagerActor} {e : PieceEvent} {l : List (ℕ × ℕ)}
    (h : pieceStep sha1 s e = some (t, .blocks l)) : (l.map Prod.fst).Nodup := by
  cases effect_of_pieceStep h with
  | blocksToRequest out =>
    rw [List.map_map]
    apply List.Nodup.map ?_ ((List.nodup_range.filter _).sublist (List.take_sublist _ _))
    intro i j hij
    exact Nat.eq_of_mul_eq_mul_right (by decide) hij

/-- **No block is handed out twice while its request is live.** In every run of a piece actor,
between two hand-outs of a block there is a tick at which its timer was older than
`block_request_timeout`, or a `BlockRecived` for it with a hash mismatch at it or after it; from a
reception of the block to a later hand-out of it the piece starts over; and no reply names a block
twice. The instants of the run are arbitrary.
SOURCE: piece_manager.rs:77-136, piece_manager.rs:180-195 -/
theorem handed_out_once_while_live (sha1 : Bytes → Bytes) (pLen : ℕ) (hash : Bytes)
    (blockRequestTimeout b : ℕ) (past mid : List PieceEvent) (first second : PieceEvent)
    {u : PieceRequestManagerActor}
    (hrun : run (pieceStep sha1) (new pLen hash blockRequestTimeout) (past ++ first :: mid) = some u)
    (hsecond : HandsOut sha1 b u second) :
    ∃ s t r, run (pieceStep sha1) (new pLen hash blockRequestTimeout) past = some s ∧
      pieceStep sha1 s first = some (t, r) ∧
      (HandsOut sha1 b s first →
        Occurs (pieceStep sha1) (Expires b) t mid ∨
          OccursThen (pieceStep sha1) (Receives b) (Resets sha1) t mid) ∧
      (Receives b s first → Occurs (pieceStep sha1) (Resets sha1) s (first :: mid)) ∧
      ∀ l, r = .blocks l → (l.map Prod.fst).Nodup := by
  obtain ⟨s, hpast, hrun⟩ := run_append.mp hrun
  obtain ⟨t, r, hstep, hrun⟩ := run_cons_eq_some.mp hrun
  have hreq := requestable_iff.mp (requestable_of_handsOut hsecond).1
  refine ⟨s, t, r, hpast, hstep, fun hfirst => ?_, fun hrecv => ?_, ?_⟩
  · rcases live_until (live_of_handsOut hfirst hstep) hrun with hlive | hdown | hexp | hthen
    · rw [hlive.inFlight] at hreq
      cases hreq.2.1
    · rw [hdown] at hreq
      cases hreq.2.2
    · exact Or.inl hexp
    · exact Or.inr hthen
  · rcases downloaded_of_receives hrecv hstep with hdown | hreset
    · rcases downloaded_until hdown hrun with hdown | hreset
      · rw [hdown] at hreq
        cases hreq.2.2
      · exact hreset.cons hstep
    · exact occurs_head hreset
  · rintro l rfl
    exact nodup_of_blocks hstep

/-- A piece of one block with a timeout of one second: the block is handed out at instant `0`,
expires at three seconds and is handed out again. -/
theorem handed_out_once_while_live_expiry :
    ∃ s t r, run (pieceStep id) (new 1 [7] 1) [] = some s ∧
      pieceStep id s (.recv (.blocksToRequest 5) fun _ => 0) = some (t, r) ∧
      (HandsOut id 0 s (.recv (.blocksToRequest 5) fun _ => 0) →
        Occurs (pieceStep id) (Expires 0) t [.tick 3000000000] ∨
          OccursThen (pieceStep id) (Receives 0) (Resets id) t [.tick 3000000000]) ∧
      (Receives 0 s (.recv (.blocksToRequest 5) fun _ => 0) →
        Occurs (pieceStep id) (Resets id) s
          [.recv (.blocksToRequest 5) fun _ => 0, .tick 3000000000]) ∧
      ∀ l, r = .blocks l → (l.map Prod.fst).Nodup :=
  handed_out_once_while_live id 1 [7] 1 0 [] [.tick 3000000000]
    (.recv (.blocksToRequest 5) fun _ => 0) (.recv (.blocksToRequest 5) fun _ => 0) rfl
    ⟨_, [(0, 1)], 1, by rfl, by decide⟩

end Fissure.Analysis
