import Fissure.Library.Tiling
import Fissure.Library.Transition
import Fissure.Model.TorrentMeta
import Fissure.Analysis.PieceManagerSteps

/-!
# Pieces and blocks address every byte once

`MetaInfo` cuts the content into pieces and each piece actor cuts its piece into blocks, with a
ceiling division and a remainder of its own at either level. Requests hand the blocks of an actor
out in order, whatever their sizes (`handedOut_run`). The blocks tile the piece (`tiles_blocks`),
the pieces tile the content (`tiles_pieces`), so the blocks of all pieces tile the content
(`bytes_addressed_once`).
-/

set_option autoImplicit false

namespace Fissure.Analysis

open Fissure.Library Fissure.Model
open Fissure.Model.PieceRequestManagerActor

variable {sha1 : Bytes → Bytes}

/-! ## What requests hand out -/

/-- The blocks that can be requested, in order. -/
def requestables (s : PieceRequestManagerActor) : List ℕ :=
  (List.range s.requiredBlocks.length).filter s.requestable

/-- Offset and length of block `i` of a piece of `pLen` bytes. -/
def blockSpan (pLen i : ℕ) : ℕ × ℕ := (i * 16384, min 16384 (pLen - i * 16384))

/-- The blocks in the reply to the event. -/
def repliedBlocks (sha1 : Bytes → Bytes) (s : PieceRequestManagerActor) (e : PieceEvent) :
    Option (List (ℕ × ℕ)) :=
  match pieceStep sha1 s e with
  | some (_, .blocks l) => some l
  | _ => none

/-- The offsets and lengths that a run of the actor hands out, in order. -/
def handedOut (sha1 : Bytes → Bytes) (s : PieceRequestManagerActor) (es : List PieceEvent) :
    List (ℕ × ℕ) :=
  (outputs (pieceStep sha1) (repliedBlocks sha1) s es).flatten

/-- The event is a `BlocksToRequest`, for any number of blocks. -/
def AsksForBlocks (e : PieceEvent) : Prop := ∃ k clock, e = .recv (.blocksToRequest k) clock

/-- The actor answers any further request with no block. -/
def NoneLeft (s : PieceRequestManagerActor) : Prop := ∀ k clock, (s.blocksToRequest k clock).2 = []

/-- INTERNAL: a list without its first elements is what is not among them. -/
theorem filter_notMem_take {l : List ℕ} (h : l.Nodup) (k : ℕ) :
    l.filter (fun i => !decide (i ∈ l.take k)) = l.drop k := by
  have hsplit : (l.take k ++ l.drop k).filter (fun i => !decide (i ∈ l.take k)) = l.drop k := by
    have hdisjoint := List.disjoint_of_nodup_append ((List.take_append_drop k l).symm ▸ h)
    rw [List.filter_append, List.filter_eq_nil_iff.mpr (by simp), List.nil_append,
      List.filter_eq_self.mpr]
    intro i hi
    simpa using fun hmem => hdisjoint hmem hi
  rwa [List.take_append_drop] at hsplit

/-- INTERNAL: the length asked for a block is what is left of the piece, at most one block.
SOURCE: piece_manager.rs:28-33, piece_manager.rs:87 -/
theorem blockLength_eq (s : PieceRequestManagerActor) {i : ℕ} (hi : i < noOfBlocks s.data.length) :
    (convertBlockIndexToOffset i, s.blockLength i) = blockSpan s.data.length i := by
  have hlt := lt_noOfBlocks_iff.mp hi
  have hnext : i + 1 < noOfBlocks s.data.length ↔ (i + 1) * 16384 < s.data.length :=
    lt_noOfBlocks_iff
  simp only [blockSpan, convertBlockIndexToOffset, blockSize, Prod.mk.injEq, true_and]
  rw [blockLength, s.length_required, s.lastPieceSize_eq, lastBlockSize]
  split_ifs <;> omega

/-- INTERNAL: a request hands out the first blocks that can be requested and leaves the others.
SOURCE: piece_manager.rs:77-97 -/
theorem requestables_step {s t : PieceRequestManagerActor} {k : ℕ} {clock : ℕ → Instant}
    (h : HandedOut s t (blocksHandedOut s k) clock) :
    requestables s = blocksHandedOut s k ++ requestables t := by
  have hnodup : (requestables s).Nodup := List.nodup_range.filter _
  have hleft : requestables t = (requestables s).drop k := by
    rw [← filter_notMem_take hnodup k, requestables, h.required, requestables, List.filter_filter]
    apply List.filter_congr
    intro i _
    rw [requestable, h.required, h.downloaded, h.inFlight, Bool.not_or]
    simp only [requestable, blocksHandedOut]
    ac_rfl
  rw [hleft]
  exact (List.take_append_drop k (requestables s)).symm

theorem requestables_blocksToRequest (s : PieceRequestManagerActor) (k : ℕ) (clock : ℕ → Instant) :
    requestables (s.blocksToRequest k clock).1 = (requestables s).drop k := by
  have hsplit := requestables_step (handedOut_blocksToRequest s k clock).1
  change requestables s = (requestables s).take k ++ _ at hsplit
  exact List.append_cancel_left (hsplit.symm.trans (List.take_append_drop k _).symm)

/-- INTERNAL: requests hand out, in order, all the blocks that are no longer left.
SOURCE: piece_manager.rs:77-97 -/
theorem handedOut_run {s t : PieceRequestManagerActor} {es : List PieceEvent}
    (hes : ∀ e ∈ es, AsksForBlocks e) (hrun : run (pieceStep sha1) s es = some t) :
    t.data = s.data ∧ (requestables s).map (blockSpan s.data.length) =
      handedOut sha1 s es ++ (requestables t).map (blockSpan s.data.length) := by
  induction es generalizing s with
  | nil =>
    cases hrun
    exact ⟨rfl, rfl⟩
  | cons e es ih =>
    rw [List.forall_mem_cons] at hes
    obtain ⟨⟨k, clock, rfl⟩, hes⟩ := hes
    obtain ⟨u, r, hstep, hrun⟩ := run_cons_eq_some.mp hrun
    obtain ⟨hdata, hrest⟩ := ih hes hrun
    cases effect_of_pieceStep hstep with
    | blocksToRequest out =>
      rw [out.data] at hdata hrest
      refine ⟨hdata, ?_⟩
      have hout : repliedBlocks sha1 s (.recv (.blocksToRequest k) clock) =
          some ((blocksHandedOut s k).map (blockSpan s.data.length)) := by
        unfold repliedBlocks
        rw [hstep]
        simp only [Option.some.injEq]
        apply List.map_congr_left
        intro i hi
        exact blockLength_eq s (lt_of_requestable (requestable_of_mem_blocksHandedOut hi))
      have hcons : handedOut sha1 s (.recv (.blocksToRequest k) clock :: es) =
          (blocksHandedOut s k).map (blockSpan s.data.length) ++ handedOut sha1 u es := by
        rw [handedOut, outputs_cons es hstep, hout]
        rfl
      rw [requestables_step out, List.map_append, hrest, hcons, List.append_assoc]

/-- INTERNAL: every block of a fresh actor can be requested.
SOURCE: piece_manager.rs:26-52 -/
theorem requestables_new (pLen : ℕ) (hash : Bytes) (timeout : ℕ) :
    requestables (new pLen hash timeout) = List.range (noOfBlocks pLen) := by
  simp only [requestables, new, List.length_replicate]
  apply List.filter_eq_self.mpr
  intro i hi
  rw [List.mem_range] at hi
  simp [requestable, Bitfield.zeros, hi]

/-- INTERNAL: none is left when no block can be requested.
SOURCE: piece_manager.rs:81-92 -/
theorem noneLeft_iff {s : PieceRequestManagerActor} : NoneLeft s ↔ requestables s = [] := by
  have hreply (k : ℕ) (clock : ℕ → Instant) :
      (s.blocksToRequest k clock).2 = [] ↔ (requestables s).take k = [] := by
    rw [(handedOut_blocksToRequest s k clock).2, List.map_eq_nil_iff, blocksHandedOut, requestables]
  constructor
  · intro h
    have hall := (hreply _ _).mp (h (requestables s).length fun _ => 0)
    rwa [List.take_length] at hall
  · intro h k clock
    rw [hreply, h, List.take_nil]

/-! ## Tilings -/

/-- INTERNAL: the blocks of a piece tile it.
SOURCE: piece_manager.rs:28-33 -/
theorem tiles_blocks (pLen : ℕ) :
    Tiles 0 pLen ((List.range (noOfBlocks pLen)).map (blockSpan pLen)) :=
  tiles_cut fun _ => lt_noOfBlocks_iff

/-- The actor is one for piece `i` of the torrent, and requests of any sizes make it hand out the
blocks `l` until none is left. -/
def HandsOutAll (sha1 : Bytes → Bytes) (m : MetaInfo) (i : ℕ) (a : PieceRequestManagerActor)
    (l : List (ℕ × ℕ)) : Prop :=
  ∃ pLen hash timeout es t, m.getPieceLength i = some pLen ∧ a = new pLen hash timeout ∧
    (∀ e ∈ es, AsksForBlocks e) ∧ run (pieceStep sha1) a es = some t ∧ NoneLeft t ∧
    l = handedOut sha1 a es

/-- The intervals of the content that the blocks of all pieces address. -/
def contentIntervals (m : MetaInfo) (blocks : ℕ → List (ℕ × ℕ)) : List (ℕ × ℕ) :=
  (List.range m.pieceCount).flatMap fun i =>
    (blocks i).map fun p => (i * m.info.pieceLength + p.1, p.2)

/-- INTERNAL: what an actor hands out until none is left are the blocks of its piece.
SOURCE: torrent_meta.rs:104-126, piece_manager.rs:26-59, piece_manager.rs:77-97 -/
theorem blocks_of_handsOutAll {m : MetaInfo} {i : ℕ} {a : PieceRequestManagerActor}
    {l : List (ℕ × ℕ)} (hm : m.WellSized) (hi : i < m.pieceCount) (h : HandsOutAll sha1 m i a l) :
    a.data.length = m.pieceLen i ∧
      l = (List.range (noOfBlocks (m.pieceLen i))).map (blockSpan (m.pieceLen i)) := by
  obtain ⟨pLen, hash, timeout, es, t, hpLen, rfl, hes, hrun, hnone, rfl⟩ := h
  rw [MetaInfo.getPieceLength_eq hm hi, Option.some.injEq] at hpLen
  have hlen : (new pLen hash timeout).data.length = pLen := List.length_replicate
  obtain ⟨-, hall⟩ := handedOut_run hes hrun
  rw [hlen, requestables_new, noneLeft_iff.mp hnone, List.map_nil, List.append_nil] at hall
  rw [hpLen]
  exact ⟨hlen, hall.symm⟩

/-- INTERNAL: the blocks of all pieces tile the content.
SOURCE: torrent_meta.rs:85-126, piece_manager.rs:26-59 -/
theorem tiles_content {m : MetaInfo} {blocks : ℕ → List (ℕ × ℕ)} (hm : m.WellSized)
    (hblocks : ∀ i < m.pieceCount,
      blocks i = (List.range (noOfBlocks (m.pieceLen i))).map (blockSpan (m.pieceLen i))) :
    Tiles 0 m.totalLength (contentIntervals m blocks) := by
  have hcount (i : ℕ) := MetaInfo.lt_pieceCount_iff hm.pieceLength_pos (i := i)
  have hpiece : ∀ i < m.pieceCount,
      Tiles (min (i * m.info.pieceLength) m.totalLength)
        (min ((i + 1) * m.info.pieceLength) m.totalLength)
        ((blocks i).map fun p => (i * m.info.pieceLength + p.1, p.2)) := by
    intro i hi
    have hlt := (hcount i).mp hi
    have htiles := (tiles_blocks (m.pieceLen i)).shift (i * m.info.pieceLength)
    have hstart : min (i * m.info.pieceLength) m.totalLength = i * m.info.pieceLength + 0 := by
      omega
    have hend : min ((i + 1) * m.info.pieceLength) m.totalLength =
        i * m.info.pieceLength + m.pieceLen i := by
      rw [Nat.succ_mul, MetaInfo.pieceLen]
      omega
    rw [hstart, hend, hblocks i hi]
    exact htiles
  have htiles := tiles_flatMap_range (fun i => min (i * m.info.pieceLength) m.totalLength) _ hpiece
  have hend : min (m.pieceCount * m.info.pieceLength) m.totalLength = m.totalLength := by
    have := (hcount m.pieceCount).not.mp (Nat.lt_irrefl _)
    omega
  rwa [hend, Nat.zero_mul, Nat.zero_min] at htiles

/-- **Pieces and blocks address every byte once.** For every torrent with files, a piece length
that is not zero and a size that fits `u64`, and every way of requesting the blocks of each piece
until none is left: the intervals that the blocks address in the content partition it, none is
empty or longer than a block, and the buffer of each piece actor is as long as its blocks.
SOURCE: torrent_meta.rs:85-126, piece_manager.rs:26-59, piece_manager.rs:77-97 -/
theorem bytes_addressed_once (sha1 : Bytes → Bytes) (m : MetaInfo) (hm : m.WellSized)
    (actor : ℕ → PieceRequestManagerActor) (blocks : ℕ → List (ℕ × ℕ))
    (h : ∀ i < m.pieceCount, HandsOutAll sha1 m i (actor i) (blocks i)) :
    m.getNumberOfPieces = some m.pieceCount ∧ m.downloadSize = some m.totalLength ∧
    (∀ x < m.totalLength, ∃! k : ℕ, ∃ start len,
      (contentIntervals m blocks)[k]? = some (start, len) ∧ start ≤ x ∧ x < start + len) ∧
    (∀ start len, (start, len) ∈ contentIntervals m blocks →
      0 < len ∧ len ≤ 16384 ∧ start + len ≤ m.totalLength) ∧
    ∀ i < m.pieceCount, (actor i).data.length = ((blocks i).map Prod.snd).sum := by
  have hpiece (i : ℕ) (hi : i < m.pieceCount) := blocks_of_handsOutAll hm hi (h i hi)
  have htiles := tiles_content hm fun i hi => (hpiece i hi).2
  refine ⟨MetaInfo.getNumberOfPieces_eq hm, MetaInfo.downloadSize_eq hm, ?_, ?_, ?_⟩
  · exact fun x hx => htiles.existsUnique (Nat.zero_le x) hx
  · intro start len hmem
    obtain ⟨-, hpos, hend⟩ := htiles.bounds hmem
    refine ⟨hpos, ?_, hend⟩
    obtain ⟨i, hi, hmem⟩ := List.mem_flatMap.mp hmem
    obtain ⟨p, hp, heq⟩ := List.mem_map.mp hmem
    rw [(hpiece i (List.mem_range.mp hi)).2] at hp
    obtain ⟨j, -, rfl⟩ := List.mem_map.mp hp
    obtain ⟨-, rfl⟩ := Prod.mk.inj heq
    exact Nat.min_le_left _ _
  · intro i hi
    obtain ⟨hlen, hblocks⟩ := hpiece i hi
    have hsum := (tiles_blocks (m.pieceLen i)).sum_lengths
    rw [hlen, hblocks]
    omega

/-- A file of 20001 bytes in pieces of 20000. -/
def longPiece : MetaInfo := ⟨"tracker", none, ⟨"file", 20000, [], some 20001, none⟩⟩

theorem wellSized_longPiece : longPiece.WellSized := ⟨rfl, by decide, by decide⟩

/-- The first piece is requested in two requests of one block each, the second in one. -/
theorem bytes_addressed_once_longPiece :
    let blocks (i : ℕ) := if i = 0 then [(0, 16384), (16384, 3616)] else [(0, 1)]
    longPiece.getNumberOfPieces = some longPiece.pieceCount ∧
    longPiece.downloadSize = some longPiece.totalLength ∧
    (∀ x < longPiece.totalLength, ∃! k : ℕ, ∃ start len,
      (contentIntervals longPiece blocks)[k]? = some (start, len) ∧ start ≤ x ∧
        x < start + len) ∧
    (∀ start len, (start, len) ∈ contentIntervals longPiece blocks →
      0 < len ∧ len ≤ 16384 ∧ start + len ≤ longPiece.totalLength) ∧
    ∀ i < longPiece.pieceCount,
      (new (if i = 0 then 20000 else 1) [] 4).data.length = ((blocks i).map Prod.snd).sum := by
  intro blocks
  let request : PieceEvent := .recv (.blocksToRequest 1) fun _ => 0
  have hes (n : ℕ) : ∀ e ∈ List.replicate n request, AsksForBlocks e :=
    fun e he => ⟨1, _, List.eq_of_mem_replicate he⟩
  -- one request for each block, until none is left
  have hall {pLen n : ℕ} {t : PieceRequestManagerActor}
      (hrun : run (pieceStep List.reverse) (new pLen [] 4) (List.replicate n request) = some t)
      (hleft : requestables t = []) :
      (List.range (noOfBlocks pLen)).map (blockSpan pLen) =
        handedOut List.reverse (new pLen [] 4) (List.replicate n request) := by
    have hblocks := (handedOut_run (hes n) hrun).2
    rwa [hleft, List.map_nil, List.append_nil, requestables_new,
      show (new pLen [] 4).data.length = pLen from List.length_replicate] at hblocks
  refine bytes_addressed_once List.reverse longPiece wellSized_longPiece
    (fun i => new (if i = 0 then 20000 else 1) [] 4) blocks fun i hi => ?_
  have hcases : i = 0 ∨ i = 1 := by
    have hcount : longPiece.pieceCount = 2 := by decide
    omega
  rcases hcases with rfl | rfl
  · have hrun : run (pieceStep List.reverse) (new 20000 [] 4) (List.replicate 2 request) =
        some _ := rfl
    have hfirst := requestables_blocksToRequest (new 20000 [] 4) 1 fun _ => 0
    have hleft := requestables_blocksToRequest
      ((new 20000 [] 4).blocksToRequest 1 fun _ => 0).1 1 fun _ => 0
    rw [requestables_new] at hfirst
    rw [hfirst] at hleft
    exact ⟨20000, [], 4, _, _, by decide, rfl, hes 2, hrun, noneLeft_iff.mpr hleft,
      hall hrun hleft⟩
  · have hrun : run (pieceStep List.reverse) (new 1 [] 4) (List.replicate 1 request) =
        some _ := rfl
    have hleft := requestables_blocksToRequest (new 1 [] 4) 1 fun _ => 0
    rw [requestables_new] at hleft
    exact ⟨1, [], 4, _, _, by decide, rfl, hes 1, hrun, noneLeft_iff.mpr hleft, hall hrun hleft⟩

end Fissure.Analysis
