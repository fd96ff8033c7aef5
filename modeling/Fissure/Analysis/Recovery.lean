import Fissure.Analysis.HonestBlocks

/-!
# A piece recovers from bad blocks

Whatever blocks a piece actor has handled before, a first honest round over all blocks makes
its buffer the content, since a hash mismatch in between clears flags but no bytes
(`agrees_run`). From then on a complete piece has the expected hash, so a second honest round
cannot end without an answer `true` (`answersTrue_of_round`).
-/

set_option autoImplicit false

namespace Fissure.Analysis

open Fissure.Library Fissure.Model
open Fissure.Model.PieceRequestManagerActor

variable {sha1 : Bytes → Bytes}

/-- INTERNAL: a run changes neither the length of the buffer nor the hash. -/
theorem expects_run {content : Bytes} {s u : PieceRequestManagerActor} {es : List PieceEvent}
    (h : Expects sha1 content s) (hrun : run (pieceStep sha1) s es = some u) :
    Expects sha1 content u :=
  run_invariant (fun _ _ _ _ hs hstep => expects_step hs hstep) h hrun

/-- INTERNAL: an honest run goes through; the buffer keeps every agreement with the content
and gains one for each delivered block, whatever hash mismatches happen on the way. -/
theorem agrees_run {content : Bytes} {s : PieceRequestManagerActor} {es : List PieceEvent}
    (h : Expects sha1 content s) (hes : ∀ e ∈ es, Honest content e) :
    ∃ u, run (pieceStep sha1) s es = some u ∧
      ∀ j, AgreesOn 16384 content s.data j ∨ j ∈ deliveredBlocks es →
        AgreesOn 16384 content u.data j := by
  induction es generalizing s with
  | nil => exact ⟨s, rfl, fun j hj => hj.resolve_right (by simp [deliveredBlocks])⟩
  | cons e es ih =>
    have hrest := fun x hx => hes x (List.mem_cons_of_mem e hx)
    cases hb : blockOf e with
    | none =>
      obtain ⟨t, r, hstep⟩ := pieceStep_isSome sha1 (s := s) (e := e) (by simp [hb])
      obtain ⟨hdata, -, -, -⟩ := unchanged_of_pieceStep hb hstep
      obtain ⟨u, hu, hagrees⟩ := ih (expects_step h hstep) hrest
      refine ⟨u, by rwa [run_cons_some es hstep], fun j hj => hagrees j ?_⟩
      rwa [hdata, ← (show deliveredBlocks (e :: es) = deliveredBlocks es from
        List.filterMap_cons_none hb)]
    | some i =>
      obtain ⟨t, outcome, hstep, hdata, -, -⟩ := step_of_honest_block h (hes e (by simp)) hb
      obtain ⟨u, hu, hagrees⟩ := ih (expects_step h hstep) hrest
      refine ⟨u, by rwa [run_cons_some es hstep], fun j hj => hagrees j ?_⟩
      rw [show deliveredBlocks (e :: es) = i :: deliveredBlocks es from
        List.filterMap_cons_some hb, List.mem_cons, hdata] at *
      rcases hj with hj | rfl | hj
      · exact Or.inl (hj.writeAt (by omega) 0)
      · exact Or.inl (agreesOn_writeAt_self (by omega) 0 content s.data)
      · exact Or.inr hj

/-- INTERNAL: once the buffer is the content, honest deliveries that bring every block still
missing are answered `true` at some point. The induction is on the events; a block that is
not answered `true` leaves a block missing, so there is a next delivery. -/
theorem answersTrue_of_round {content : Bytes} {s : PieceRequestManagerActor}
    {es : List PieceEvent} (h : Expects sha1 content s) (hdata : s.data = content)
    (hes : ∀ e ∈ es, Honest content e)
    (hall : ∀ j < noOfBlocks content.length,
      s.downloadedBlocks.getD j false = true ∨ j ∈ deliveredBlocks es)
    (hsome : deliveredBlocks es ≠ []) :
    Occurs (pieceStep sha1) (AnswersTrue sha1) s es := by
  induction es generalizing s with
  | nil => exact absurd rfl hsome
  | cons e es ih =>
    have hrest := fun x hx => hes x (List.mem_cons_of_mem e hx)
    cases hb : blockOf e with
    | none =>
      obtain ⟨t, r, hstep⟩ := pieceStep_isSome sha1 (s := s) (e := e) (by simp [hb])
      obtain ⟨htdata, -, hdown, -⟩ := unchanged_of_pieceStep hb hstep
      rw [show deliveredBlocks (e :: es) = deliveredBlocks es from
        List.filterMap_cons_none hb] at hall hsome
      rw [← hdown] at hall
      exact (ih (expects_step h hstep) (htdata.trans hdata) hrest hall hsome).cons hstep
    | some i =>
      obtain ⟨t, outcome, hstep, htdata, hi, heff⟩ :=
        step_of_honest_block h (hes e (by simp)) hb
      have ht := expects_step h hstep
      have htdata : t.data = content := by
        rw [htdata, hdata, writeAt_blockAt_self (by omega) 0 (lt_noOfBlocks_iff.mp hi).le]
      rw [show deliveredBlocks (e :: es) = i :: deliveredBlocks es from
        List.filterMap_cons_some hb] at hall
      cases outcome with
      | verified => exact occurs_head ⟨t, _, hstep, rfl⟩
      | reset => exact absurd (by rw [htdata, ht.hash]) heff.2.2
      | pending =>
        obtain ⟨hm, hnot⟩ := heff
        rw [h.length] at hnot
        have hall' : ∀ j < noOfBlocks content.length,
            t.downloadedBlocks.getD j false = true ∨ j ∈ deliveredBlocks es := by
          intro j hj
          rw [hm.downloaded]
          by_cases hij : i = j
          · simp [hij]
          · rw [if_neg hij]
            exact (hall j hj).imp_right fun hmem => (List.mem_cons.mp hmem).resolve_left (Ne.symm hij)
        refine (ih ht htdata hrest hall' ?_).cons hstep
        intro hnil
        apply hnot
        intro j hj
        exact (hall' j hj).resolve_right (by simp [hnil])

/-- **Recovery from bad data.** For every piece with a nonempty content and every live state of
its actor, whatever messages led there: honest deliveries whose blocks are one round over all
blocks of the piece and then another one, each in any order and with any requests and ticks in
between, are answered `true` at some point.
SOURCE: piece_manager.rs:26-59, piece_manager.rs:98-136, piece_manager.rs:180-195 -/
theorem two_honest_rounds_complete_piece (sha1 : Bytes → Bytes) (content : Bytes) (timeout : ℕ)
    (hcontent : content ≠ []) (past : List PieceEvent) {s : PieceRequestManagerActor}
    (hpast : run (pieceStep sha1) (new content.length (sha1 content) timeout) past = some s)
    {es : List PieceEvent} (hes : ∀ e ∈ es, Honest content e) (round₁ round₂ : List ℕ)
    (hrounds : deliveredBlocks es = round₁ ++ round₂)
    (h₁ : round₁.Perm (List.range (noOfBlocks content.length)))
    (h₂ : round₂.Perm (List.range (noOfBlocks content.length))) :
    Occurs (pieceStep sha1) (AnswersTrue sha1) s es := by
  obtain ⟨es₁, es₂, rfl, hd₁, hd₂⟩ := List.filterMap_eq_append_iff.mp hrounds
  have hs := expects_run (expects_new sha1 content timeout) hpast
  have hes₁ : ∀ e ∈ es₁, Honest content e := fun e he => hes e (List.mem_append_left es₂ he)
  have hes₂ : ∀ e ∈ es₂, Honest content e := fun e he => hes e (List.mem_append_right es₁ he)
  -- after the first round the buffer is the content
  obtain ⟨u, hu, hagrees⟩ := agrees_run hs hes₁
  have hdata : u.data = content := by
    apply data_eq_content (expects_run hs hu)
    intro i hi
    apply hagrees i
    right
    rw [deliveredBlocks, hd₁]
    exact h₁.mem_iff.mpr (List.mem_range.mpr hi)
  -- and the second round brings every block
  refine (answersTrue_of_round (expects_run hs hu) hdata hes₂ (fun j hj => ?_) ?_).append hu
  · right
    rw [deliveredBlocks, hd₂]
    exact h₂.mem_iff.mpr (List.mem_range.mpr hj)
  · rw [deliveredBlocks, hd₂]
    rintro rfl
    have hlen := h₂.length_eq
    rw [List.length_nil, List.length_range] at hlen
    have : 0 < noOfBlocks content.length :=
      lt_noOfBlocks_iff.mpr (by rw [Nat.zero_mul]; exact List.length_pos_iff.mpr hcontent)
    omega

/-- A piece of one block whose buffer was spoilt by a short, misaligned block, and then gets
the right block twice. -/
theorem two_honest_rounds_complete_piece_spoilt :
    ∃ s, run (pieceStep List.reverse) (new 2 [6, 5] 4) [.recv (.blockRecived 7 [1]) fun _ => 0] =
        some s ∧ s.data = [1, 0] ∧
      Occurs (pieceStep List.reverse) (AnswersTrue List.reverse) s
        [.recv (.blockRecived 0 [5, 6]) fun _ => 0, .tick 1,
          .recv (.blockRecived 0 [5, 6]) fun _ => 0] :=
  ⟨_, rfl, rfl, two_honest_rounds_complete_piece List.reverse [5, 6] 4 (by simp)
    [.recv (.blockRecived 7 [1]) fun _ => 0] rfl (by simp [Honest, blockAt]) [0] [0] rfl
    (by decide) (by decide)⟩

end Fissure.Analysis
