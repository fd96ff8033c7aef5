import Fissure.Interface.BlockAssembly
import Fissure.Analysis.HandOut

/-!
# Honest blocks complete a piece in any order

A run is honest when each `BlockRecived` carries an aligned offset inside the piece and
exactly the bytes of the piece's true content there. On honest runs the actor refines the
assembly of the piece: the flags are the set of the blocks received (`Assembled`), the buffer
agrees with the content on each of them, and a block is answered `true` exactly when the
assembly answers `true` (`assembled_step`).
-/

set_option autoImplicit false

namespace Fissure.Analysis

open Fissure.Library Fissure.Model Fissure.Interface
open Fissure.Model.PieceRequestManagerActor

variable {sha1 : Bytes → Bytes}

/-- A block the event carries has an aligned offset inside `content` and its bytes there. -/
def Honest (content : Bytes) : PieceEvent → Prop
  | .recv (.blockRecived off data) _ =>
    off % 16384 = 0 ∧ off < content.length ∧ data = blockAt 16384 content (off / 16384)
  | _ => True

/-- The blocks the events carry, in order. -/
def deliveredBlocks (es : List PieceEvent) : List ℕ := es.filterMap blockOf

/-- Handling `e` in the state `s` answers a block with `true`. -/
def AnswersTrue (sha1 : Bytes → Bytes) (s : PieceRequestManagerActor) (e : PieceEvent) : Prop :=
  ∃ t r, pieceStep sha1 s e = some (t, r) ∧ r.blockRecvied = true

/-- The actor's buffer has the length of the content and its hash is the expected one. -/
structure Expects (sha1 : Bytes → Bytes) (content : Bytes) (s : PieceRequestManagerActor) :
    Prop where
  length : s.data.length = content.length
  hash : s.hash = sha1 content

/-- INTERNAL: a fresh actor for the content expects it.
SOURCE: piece_manager.rs:26-52 -/
theorem expects_new (sha1 : Bytes → Bytes) (content : Bytes) (timeout : ℕ) :
    Expects sha1 content (new content.length (sha1 content) timeout) :=
  ⟨by simp [new], rfl⟩

/-- INTERNAL: no event changes the length of the buffer or the hash.
SOURCE: piece_manager.rs:60-200 -/
theorem expects_step {content : Bytes} {s t : PieceRequestManagerActor} {e : PieceEvent}
    {r : PieceReply} (h : Expects sha1 content s) (hstep : pieceStep sha1 s e = some (t, r)) :
    Expects sha1 content t := by
  cases effect_of_pieceStep hstep with
  | tick now => exact ⟨h.length, h.hash⟩
  | getData start stop clock => exact h
  | getDataWithLen start len clock => exact h
  | blocksToRequest out => exact ⟨by rw [out.data, h.length], by rw [out.hash, h.hash]⟩
  | blockRecived inside effect =>
    obtain ⟨hdata, hhash⟩ := effect.data_eq
    exact ⟨by rw [hdata, length_storedData, h.length], by rw [hhash, h.hash]⟩

/-- INTERNAL: an honest block names a block of the piece and fits into the buffer.
SOURCE: piece_manager.rs:100-115 -/
theorem storedData_honest {content buffer : Bytes} {off : ℕ}
    (hlen : buffer.length = content.length) (haligned : off % 16384 = 0)
    (hoff : off < content.length) :
    off / 16384 < noOfBlocks content.length ∧
      storedData buffer (off / 16384) (blockAt 16384 content (off / 16384)) =
        writeAt 0 buffer (off / 16384 * 16384) (blockAt 16384 content (off / 16384)) := by
  have hstart : off / 16384 * 16384 < content.length := by omega
  refine ⟨lt_noOfBlocks_iff.mpr hstart, ?_⟩
  rw [storedData, if_pos]
  rw [hlen]
  exact blockAt_end_le hstart.le

/-- INTERNAL: an honest block is handled, and the buffer gets its bytes.
SOURCE: piece_manager.rs:98-136 -/
theorem step_of_honest_block {content : Bytes} {s : PieceRequestManagerActor} {e : PieceEvent}
    {i : ℕ} (h : Expects sha1 content s) (he : Honest content e) (hi : blockOf e = some i) :
    ∃ t outcome, pieceStep sha1 s e = some (t, .done outcome) ∧
      t.data = writeAt 0 s.data (i * 16384) (blockAt 16384 content i) ∧
      i < noOfBlocks content.length ∧
      BlockEffect sha1 s t i (blockAt 16384 content i) outcome := by
  obtain ⟨off, data, clock, rfl, rfl⟩ := blockOf_eq_some hi
  obtain ⟨haligned, hoff, rfl⟩ := he
  obtain ⟨hlt, hstored⟩ := storedData_honest h.length haligned hoff
  obtain ⟨t, outcome, hblock⟩ := blockRecived_isSome sha1
    (blockAt 16384 content (off / 16384)) (h.length.symm ▸ hlt)
  have heffect := (blockRecived_eq_some hblock).2
  refine ⟨t, outcome, pieceStep_blockRecived.mpr ⟨outcome, hblock, rfl⟩, ?_, hlt, heffect⟩
  rw [heffect.data_eq.1, hstored]

/-- INTERNAL: a buffer that agrees with the content on every block is the content. -/
theorem data_eq_content {content : Bytes} {s : PieceRequestManagerActor}
    (h : Expects sha1 content s)
    (hagrees : ∀ i < noOfBlocks content.length, AgreesOn 16384 content s.data i) :
    s.data = content :=
  eq_of_agreesOn h.length fun i hi => hagrees i (lt_noOfBlocks_iff.mpr hi)

/-- The actor has assembled the blocks in `received`: they are flagged, and the buffer agrees
with the content on each of them. -/
structure Assembled (sha1 : Bytes → Bytes) (content : Bytes) (received : Finset ℕ)
    (s : PieceRequestManagerActor) : Prop extends Expects sha1 content s where
  flags : ∀ i < noOfBlocks content.length,
    (s.downloadedBlocks.getD i false = true ↔ i ∈ received)
  agrees : ∀ i ∈ received, AgreesOn 16384 content s.data i

/-- INTERNAL: a fresh actor has assembled nothing.
SOURCE: piece_manager.rs:26-52 -/
theorem assembled_new (sha1 : Bytes → Bytes) (content : Bytes) (timeout : ℕ) :
    Assembled sha1 content ∅ (new content.length (sha1 content) timeout) where
  toExpects := expects_new sha1 content timeout
  flags := by
    intro i _
    simp only [new, Bitfield.getD_zeros, Finset.notMem_empty, Bool.false_eq_true]
  agrees := by simp

/-- INTERNAL: an event without a block leaves what is assembled.
SOURCE: piece_manager.rs:77-97, piece_manager.rs:137-196 -/
theorem assembled_step_other {content : Bytes} {received : Finset ℕ}
    {s : PieceRequestManagerActor} {e : PieceEvent}
    (h : Assembled sha1 content received s) (he : blockOf e = none) :
    ∃ t r, pieceStep sha1 s e = some (t, r) ∧ Assembled sha1 content received t ∧
      r ≠ .done .reset := by
  obtain ⟨t, r, hstep⟩ := pieceStep_isSome sha1 (s := s) (e := e) (by simp [he])
  obtain ⟨hdata, -, hdown, hr⟩ := unchanged_of_pieceStep he hstep
  refine ⟨t, r, hstep, ⟨expects_step h.toExpects hstep, ?_, ?_⟩, hr .reset⟩
  · rw [hdown]
    exact h.flags
  · rw [hdata]
    exact h.agrees

/-- INTERNAL: an honest block simulates one step of the assembly: the block is added, the
answer is the assembly's, and the piece does not start over.
SOURCE: piece_manager.rs:98-136 -/
theorem assembled_step {content : Bytes} {received : Finset ℕ} {s : PieceRequestManagerActor}
    {e : PieceEvent} {i : ℕ} (h : Assembled sha1 content received s) (he : Honest content e)
    (hi : blockOf e = some i) :
    ∃ t r, pieceStep sha1 s e = some (t, r) ∧ Assembled sha1 content (insert i received) t ∧
      assemblyStep (noOfBlocks content.length) received i =
        some (insert i received, r.blockRecvied) ∧
      r ≠ .done .reset := by
  obtain ⟨t, outcome, hstep, hdata, -, heff⟩ := step_of_honest_block h.toExpects he hi
  have hexp : Expects sha1 content t := expects_step h.toExpects hstep
  have hagrees : ∀ j ∈ insert i received, AgreesOn 16384 content t.data j := by
    intro j hj
    rw [hdata]
    rcases Finset.mem_insert.mp hj with rfl | hj
    · exact agreesOn_writeAt_self (by omega) 0 content s.data
    · exact (h.agrees j hj).writeAt (by omega) 0
  have hflags (hm : Marked s t i (blockAt 16384 content i)) :
      ∀ j < noOfBlocks content.length,
        (t.downloadedBlocks.getD j false = true ↔ j ∈ insert i received) := by
    intro j hj
    rw [hm.downloaded, Finset.mem_insert]
    by_cases hij : i = j
    · simp [hij]
    · rw [if_neg hij, h.flags j hj]
      exact ⟨Or.inr, fun h => h.resolve_left fun e => hij e.symm⟩
  refine ⟨t, .done outcome, hstep, ?_⟩
  cases outcome with
  | pending =>
    obtain ⟨hm, hnot⟩ := heff
    refine ⟨⟨hexp, hflags hm, hagrees⟩, assemblyStep_eq_some_iff.mpr ⟨rfl, ?_⟩, by simp⟩
    simp only [PieceReply.blockRecvied, Bool.false_eq_true, false_iff]
    intro hcomplete
    apply hnot
    rw [h.length]
    exact fun j hj => (hflags hm j hj).mpr (hcomplete j hj)
  | verified =>
    obtain ⟨hm, hall, -⟩ := heff
    refine ⟨⟨hexp, hflags hm, hagrees⟩, assemblyStep_eq_some_iff.mpr ⟨rfl, ?_⟩, by simp⟩
    simp only [PieceReply.blockRecvied, true_iff]
    intro j hj
    exact (hflags hm j hj).mp (hall j (by rw [h.length]; exact hj))
  | reset =>
    -- the piece is complete, so the buffer is the content and its hash is the expected one
    obtain ⟨-, hall, hsha⟩ := heff
    refine absurd ?_ hsha
    rw [data_eq_content hexp, hexp.hash]
    intro j hj
    apply hagrees
    rcases hall j (by rw [h.length]; exact hj) with hj' | hj'
    · exact hj' ▸ Finset.mem_insert_self _ _
    · exact Finset.mem_insert_of_mem ((h.flags j hj).mp hj')

/-- INTERNAL: the actor refines the assembly: an honest run goes through, never starts over,
and ends having assembled what the assembly holds after the delivered blocks. -/
theorem assembled_run {content : Bytes} {received received' : Finset ℕ}
    {s : PieceRequestManagerActor} {es : List PieceEvent} (h : Assembled sha1 content received s)
    (hes : ∀ e ∈ es, Honest content e)
    (hrun : run (assemblyStep (noOfBlocks content.length)) received (deliveredBlocks es) =
      some received') :
    ∃ u, run (pieceStep sha1) s es = some u ∧ Assembled sha1 content received' u ∧
      ¬ Occurs (pieceStep sha1) (Resets sha1) s es := by
  induction es generalizing s received with
  | nil =>
    cases hrun
    exact ⟨s, rfl, h, not_occurs_nil s⟩
  | cons e es ih =>
    have hrest := fun x hx => hes x (List.mem_cons_of_mem e hx)
    -- one step, whatever it carries, then the induction hypothesis
    have hcont {t : PieceRequestManagerActor} {r : PieceReply} {next : Finset ℕ}
        (hstep : pieceStep sha1 s e = some (t, r)) (ht : Assembled sha1 content next t)
        (hr : r ≠ .done .reset)
        (hnext : run (assemblyStep (noOfBlocks content.length)) next (deliveredBlocks es) =
          some received') :
        ∃ u, run (pieceStep sha1) s (e :: es) = some u ∧ Assembled sha1 content received' u ∧
          ¬ Occurs (pieceStep sha1) (Resets sha1) s (e :: es) := by
      obtain ⟨u, hrun, hu, hnot⟩ := ih ht hrest hnext
      refine ⟨u, by rwa [run_cons_some es hstep], hu, ?_⟩
      rw [occurs_cons_iff hstep]
      rintro (⟨t', hreset⟩ | hreset)
      · rw [hstep] at hreset
        exact hr (Prod.mk.inj (Option.some.inj hreset)).2
      · exact hnot hreset
    cases hb : blockOf e with
    | none =>
      obtain ⟨t, r, hstep, ht, hr⟩ := assembled_step_other h hb
      rw [deliveredBlocks, List.filterMap_cons_none hb] at hrun
      exact hcont hstep ht hr hrun
    | some i =>
      obtain ⟨t, r, hstep, ht, hasm, hr⟩ := assembled_step h (hes e (by simp)) hb
      rw [deliveredBlocks, List.filterMap_cons_some hb, run_cons_some _ hasm] at hrun
      exact hcont hstep ht hr hrun

/-- **Honest blocks complete the piece in any order.** For every content whose hash is the
expected one and every honest run of a fresh actor for it: the run goes through; a block is
answered `true` exactly when with it every block of the piece has been received; the piece
never starts over; and once a block has been answered `true` the buffer is the content.
SOURCE: piece_manager.rs:26-59, piece_manager.rs:77-136, piece_manager.rs:180-195 -/
theorem honest_blocks_complete_piece (sha1 : Bytes → Bytes) (content : Bytes) (timeout : ℕ)
    (es : List PieceEvent) (hes : ∀ e ∈ es, Honest content e) :
    (∃ u, run (pieceStep sha1) (new content.length (sha1 content) timeout) es = some u) ∧
    (∀ xs e ys i, es = xs ++ e :: ys → blockOf e = some i →
      ∃ s t r, run (pieceStep sha1) (new content.length (sha1 content) timeout) xs = some s ∧
        pieceStep sha1 s e = some (t, r) ∧
        (r.blockRecvied = true ↔
          ∀ j < noOfBlocks content.length, j ∈ deliveredBlocks (xs ++ [e]))) ∧
    ¬ Occurs (pieceStep sha1) (Resets sha1) (new content.length (sha1 content) timeout) es ∧
    (∀ xs ys s, es = xs ++ ys →
      run (pieceStep sha1) (new content.length (sha1 content) timeout) xs = some s →
      Occurs (pieceStep sha1) (AnswersTrue sha1) (new content.length (sha1 content) timeout) xs →
      s.data = content) := by
  have h0 := assembled_new sha1 content timeout
  -- the state after any first part of the run has assembled the blocks delivered in it
  have hpart : ∀ xs ys, es = xs ++ ys →
      ∃ s, run (pieceStep sha1) (new content.length (sha1 content) timeout) xs = some s ∧
        Assembled sha1 content (deliveredBlocks xs).toFinset s := by
    rintro xs ys rfl
    obtain ⟨s, hs, hasm, -⟩ := assembled_run h0
      (fun e he => hes e (List.mem_append_left ys he)) (run_assemblyStep _ ∅ _)
    exact ⟨s, hs, by simpa using hasm⟩
  -- and the step that handles a block answers as the assembly does
  have hblock : ∀ xs e ys i, es = xs ++ e :: ys → blockOf e = some i →
      ∃ s t r, run (pieceStep sha1) (new content.length (sha1 content) timeout) xs = some s ∧
        pieceStep sha1 s e = some (t, r) ∧
        (r.blockRecvied = true ↔
          ∀ j < noOfBlocks content.length, j ∈ deliveredBlocks (xs ++ [e])) := by
    intro xs e ys i heq hb
    obtain ⟨s, hs, hasm⟩ := hpart xs _ heq
    obtain ⟨t, r, hstep, -, hanswer, -⟩ := assembled_step hasm (hes e (by rw [heq]; simp)) hb
    refine ⟨s, t, r, hs, hstep, (assemblyStep_eq_some_iff.mp hanswer).2.trans ?_⟩
    refine forall_congr' fun j => forall_congr' fun _ => ?_
    simp only [deliveredBlocks, List.filterMap_append, List.filterMap_cons, hb,
      List.filterMap_nil, Finset.mem_insert, List.mem_toFinset, List.mem_append,
      List.mem_singleton]
    exact or_comm
  obtain ⟨u, hu, -, hnot⟩ := assembled_run h0 hes (run_assemblyStep _ ∅ _)
  refine ⟨⟨u, hu⟩, hblock, hnot, ?_⟩
  rintro xs ys s heq hs ⟨as, e, bs, v, rfl, hv, t, r, hstep, htrue⟩
  obtain ⟨s', hs', hasm⟩ := hpart _ _ heq
  obtain rfl : s' = s := Option.some.inj (hs'.symm.trans hs)
  -- the block that was answered `true` completed the piece, and received blocks stay received
  cases hb : blockOf e with
  | none =>
    obtain ⟨-, -, -, hr⟩ := unchanged_of_pieceStep hb hstep
    cases r with
    | done outcome => exact absurd rfl (hr outcome)
    | blocks l | bytes b | none => cases htrue
  | some i =>
    obtain ⟨v', t', r', hv', hstep', hiff⟩ :=
      hblock as e (bs ++ ys) i (by rw [heq]; simp) hb
    obtain rfl : v' = v := Option.some.inj (hv'.symm.trans hv)
    rw [hstep] at hstep'
    cases hstep'
    have hall := hiff.mp htrue
    apply data_eq_content hasm.toExpects
    intro j hj
    apply hasm.agrees
    have := hall j hj
    simp only [deliveredBlocks, List.filterMap_append, List.mem_append, List.mem_toFinset,
      List.filterMap_cons, List.filterMap_nil] at this ⊢
    rcases this with h | h
    · exact Or.inl h
    · right
      rw [hb] at h ⊢
      simp only [List.mem_singleton] at h
      simp [h]

/-- A content of two blocks. -/
def twoBlocks : Bytes := List.replicate 16384 5 ++ [6]

/-- The blocks are requested and delivered the other way round, one of them after a tick, and one of
them once more. -/
theorem honest_blocks_complete_piece_twice :
    let es : List PieceEvent :=
      [.recv (.blocksToRequest 3) fun _ => 0, .recv (.blockRecived 16384 [6]) fun _ => 0, .tick 9,
        .recv (.blockRecived 0 (List.replicate 16384 5)) fun _ => 0,
        .recv (.blockRecived 16384 [6]) fun _ => 0]
    let start := new twoBlocks.length twoBlocks.reverse 4
    (∃ u, run (pieceStep List.reverse) start es = some u) ∧
    (∀ xs e ys i, es = xs ++ e :: ys → blockOf e = some i →
      ∃ s t r, run (pieceStep List.reverse) start xs = some s ∧
        pieceStep List.reverse s e = some (t, r) ∧
        (r.blockRecvied = true ↔
          ∀ j < noOfBlocks twoBlocks.length, j ∈ deliveredBlocks (xs ++ [e]))) ∧
    ¬ Occurs (pieceStep List.reverse) (Resets List.reverse) start es ∧
    (∀ xs ys s, es = xs ++ ys → run (pieceStep List.reverse) start xs = some s →
      Occurs (pieceStep List.reverse) (AnswersTrue List.reverse) start xs →
      s.data = twoBlocks) := by
  intro es start
  have hreplicate : (List.replicate 16384 (5 : UInt8)).length = 16384 := List.length_replicate
  have hfirst : List.replicate 16384 5 = blockAt 16384 twoBlocks 0 :=
    (List.take_left' hreplicate).symm
  have hsecond : [6] = blockAt 16384 twoBlocks 1 := by
    rw [blockAt, twoBlocks, Nat.one_mul, List.drop_left' hreplicate]
    rfl
  have hlength : twoBlocks.length = 16385 := by
    rw [twoBlocks, List.length_append, hreplicate]
    rfl
  apply honest_blocks_complete_piece List.reverse twoBlocks 4 es
  simp only [es, List.forall_mem_cons]
  exact ⟨trivial, ⟨rfl, by omega, hsecond⟩, trivial, ⟨rfl, by omega, hfirst⟩,
    ⟨rfl, by omega, hsecond⟩, by simp⟩

end Fissure.Analysis
