import Fissure.Analysis.HonestBlocks
import Fissure.Analysis.OpenPieces

/-!
# A download never gets stuck

An honest seed answers only requests, with the bytes of the content (`AnswersRequest`). Whatever
peers have sent before, as long as the disk actor runs and the piece actors live such seeds can
complete the download from every state (`download_can_complete`): a missing block that arrives
leaves fewer flagged blocks with wrong bytes or fewer missing blocks (`honest_block_progress`), so a
piece that a seed works on gets announced (`delivers`), and what is announced can be brought to the
log.
-/

set_option autoImplicit false

namespace Fissure.Analysis

open Fissure.Library Fissure.Model
open Fissure.Model.TorrentSystem Fissure.Model.PieceRequestManagerActor

variable {sha1 : Bytes → Bytes} {torrent : ClientTorrentMetaInfo} {options : PeerOptions}
  {s t : TorrentSystem}

/-! ## One block -/

open Classical in
/-- The blocks that are flagged without the bytes of the content. -/
noncomputable def spoiltBlocks (content : Bytes) (a : PieceRequestManagerActor) : Finset ℕ :=
  (Finset.range (noOfBlocks content.length)).filter fun i =>
    a.downloadedBlocks.getD i false = true ∧ ¬ AgreesOn 16384 content a.data i

/-- The blocks that are not flagged. -/
def missingBlocks (content : Bytes) (a : PieceRequestManagerActor) : Finset ℕ :=
  (Finset.range (noOfBlocks content.length)).filter fun i =>
    a.downloadedBlocks.getD i false = false

/-- How far an actor is from the content. -/
noncomputable def blocksLeft (content : Bytes) (a : PieceRequestManagerActor) : ℕ ×ₗ ℕ :=
  toLex ((spoiltBlocks content a).card, (missingBlocks content a).card)

theorem mem_spoiltBlocks {content : Bytes} {a : PieceRequestManagerActor} {i : ℕ} :
    i ∈ spoiltBlocks content a ↔ i < noOfBlocks content.length ∧
      a.downloadedBlocks.getD i false = true ∧ ¬ AgreesOn 16384 content a.data i := by
  simp only [spoiltBlocks, Finset.mem_filter, Finset.mem_range]

theorem mem_missingBlocks {content : Bytes} {a : PieceRequestManagerActor} {i : ℕ} :
    i ∈ missingBlocks content a ↔ i < noOfBlocks content.length ∧
      a.downloadedBlocks.getD i false = false := by
  rw [missingBlocks, Finset.mem_filter, Finset.mem_range]

/-- INTERNAL: a block that was missing and is flagged, with its bytes, comes closer to the content.
SOURCE: piece_manager.rs:98-118 -/
theorem blocksLeft_of_marked {content data : Bytes} {a b : PieceRequestManagerActor} {i : ℕ}
    (hi : i < noOfBlocks content.length) (hmissing : a.downloadedBlocks.getD i false = false)
    (hmarked : Marked a b i data) (hnow : AgreesOn 16384 content b.data i)
    (hkept : ∀ j, AgreesOn 16384 content a.data j → AgreesOn 16384 content b.data j) :
    blocksLeft content b < blocksLeft content a := by
  have hspoilt : spoiltBlocks content b ⊆ spoiltBlocks content a := by
    intro j hj
    rw [mem_spoiltBlocks, hmarked.downloaded] at hj
    obtain ⟨hlt, hflag, hwrong⟩ := hj
    have hne : i ≠ j := by
      rintro rfl
      exact hwrong hnow
    rw [if_neg hne] at hflag
    exact mem_spoiltBlocks.mpr ⟨hlt, hflag, mt (hkept j) hwrong⟩
  have hmissed : missingBlocks content b ⊂ missingBlocks content a := by
    rw [Finset.ssubset_iff_of_subset]
    · refine ⟨i, mem_missingBlocks.mpr ⟨hi, hmissing⟩, ?_⟩
      rw [mem_missingBlocks, hmarked.downloaded, if_pos rfl]
      simp
    · intro j hj
      rw [mem_missingBlocks, hmarked.downloaded] at hj
      obtain ⟨hlt, hflag⟩ := hj
      split_ifs at hflag
      exact mem_missingBlocks.mpr ⟨hlt, hflag⟩
  unfold blocksLeft
  rw [Prod.Lex.toLex_lt_toLex]
  rcases Nat.lt_or_eq_of_le (Finset.card_le_card hspoilt) with hlt | heq
  · exact Or.inl hlt
  · exact Or.inr ⟨heq, Finset.card_lt_card hmissed⟩

/-- INTERNAL: when the piece starts over, a flagged block had wrong bytes, and none is flagged any
more.
SOURCE: piece_manager.rs:119-132 -/
theorem blocksLeft_of_restarted {content data : Bytes} {a b : PieceRequestManagerActor} {i : ℕ}
    (h : Expects sha1 content b) (hrestarted : Restarted a b i data)
    (hall : ∀ j < noOfBlocks content.length, i = j ∨ a.downloadedBlocks.getD j false = true)
    (hsha : sha1 b.data ≠ b.hash) (hnow : AgreesOn 16384 content b.data i)
    (hkept : ∀ j, AgreesOn 16384 content a.data j → AgreesOn 16384 content b.data j) :
    blocksLeft content b < blocksLeft content a := by
  have hnone : spoiltBlocks content b = ∅ := by
    rw [Finset.eq_empty_iff_forall_notMem]
    intro j hj
    rw [mem_spoiltBlocks, hrestarted.downloaded] at hj
    cases hj.2.1
  have hsome : (spoiltBlocks content a).Nonempty := by
    by_contra hempty
    rw [Finset.not_nonempty_iff_eq_empty, Finset.eq_empty_iff_forall_notMem] at hempty
    -- the buffer is the content
    apply hsha
    rw [data_eq_content h, h.hash]
    intro j hj
    rcases hall j hj with rfl | hflag
    · exact hnow
    · by_contra hwrong
      exact hempty j (mem_spoiltBlocks.mpr ⟨hj, hflag, mt (hkept j) hwrong⟩)
  unfold blocksLeft
  rw [Prod.Lex.toLex_lt_toLex, hnone, Finset.card_empty]
  exact Or.inl (Finset.card_pos.mpr hsome)

/-- INTERNAL: a missing block with the bytes of the content completes the piece or comes closer to
that.
SOURCE: piece_manager.rs:98-136 -/
theorem honest_block_progress {content : Bytes} {a : PieceRequestManagerActor} {i : ℕ}
    (h : Expects sha1 content a) (hi : i < noOfBlocks content.length)
    (hmissing : a.downloadedBlocks.getD i false = false) :
    ∃ b outcome, a.blockRecived sha1 (i * 16384) (blockAt 16384 content i) = some (b, outcome) ∧
      (outcome = .verified ∨ blocksLeft content b < blocksLeft content a) := by
  have hindex : i * 16384 / 16384 = i := Nat.mul_div_cancel i (by omega)
  have hhonest : Honest content (.recv (.blockRecived (i * 16384) (blockAt 16384 content i))
      fun _ => 0) :=
    ⟨Nat.mul_mod_left i 16384, lt_noOfBlocks_iff.mp hi, by rw [hindex]⟩
  obtain ⟨b, outcome, hstep, hdata, -, heffect⟩ := step_of_honest_block h hhonest
    (show _ = some (i * 16384 / 16384) from rfl)
  rw [hindex] at hdata heffect
  obtain ⟨outcome', hblock, heq⟩ := pieceStep_blockRecived.mp hstep
  cases heq
  have hkept (j : ℕ) (hj : AgreesOn 16384 content a.data j) :
      AgreesOn 16384 content b.data j := by
    rw [hdata]
    exact hj.writeAt (by omega) 0
  have hnow : AgreesOn 16384 content b.data i := by
    rw [hdata]
    exact agreesOn_writeAt_self (by omega) 0 content a.data
  refine ⟨b, outcome, hblock, ?_⟩
  cases outcome with
  | verified => exact Or.inl rfl
  | pending => exact Or.inr (blocksLeft_of_marked hi hmissing heffect.1 hnow hkept)
  | reset =>
    obtain ⟨hrestarted, hall, hsha⟩ := heffect
    rw [h.length] at hall
    exact Or.inr (blocksLeft_of_restarted (expects_step h hstep) hrestarted hall hsha hnow hkept)

/-! ## One piece -/

/-- A `Piece` message answers a request: the connection tracks the piece, the block is in flight
there, and the message brings the bytes of the content. -/
def AnswersRequest (m : MetaInfo) (content : Bytes) (s : TorrentSystem) : SystemEvent → Prop
  | .piece c p blockOffset data => ∃ conn mgr a, s.connections[c]? = some conn ∧
      conn.activeRequests.lookup p = some mgr ∧ s.pieceActor mgr.send = some a ∧
      blockOffset % 16384 = 0 ∧ a.blocksInFlight.getD (blockOffset / 16384) false = true ∧
      data = blockAt 16384 (pieceOf m content p) (blockOffset / 16384)
  | _ => True

/-- The premise on the steps that bring a download to its end. No disk operation fails in them. -/
def FromSeeds (m : MetaInfo) (content : Bytes) (s : TorrentSystem) (e : SystemEvent) : Prop :=
  SparesVerified s e ∧ DiskWorks e ∧ AnswersRequest m content s e

theorem FromSeeds.unharmed {m : MetaInfo} {content : Bytes} {e : SystemEvent}
    (h : FromSeeds m content s e) : Unharmed s e :=
  ⟨h.1, h.2.1.writeLands⟩

/-- The content has the digests of the torrent. -/
structure ContentOf (sha1 : Bytes → Bytes) (m : MetaInfo) (content : Bytes) : Prop where
  length_eq : content.length = m.totalLength
  digests : ∀ p < m.pieceCount, m.getPieceHash p = some (sha1 (pieceOf m content p))

theorem Calm.fromSeeds (m : MetaInfo) (content : Bytes) {e : SystemEvent} (he : Calm e) :
    FromSeeds m content s e := by
  refine ⟨he.unharmed.1, he.2, ?_⟩
  cases e with
  | piece => exact absurd he.1 id
  | _ => trivial

/-- INTERNAL: no block can do harm while nothing is announced. -/
theorem NothingPending.sparesVerified (h : NothingPending s) (e : SystemEvent) :
    SparesVerified s e := by
  intro block _ w hw
  unfold awaited flushPosition at hw
  rw [h.announced, h.finishing] at hw
  cases hw

/-- INTERNAL: the actor of an active piece expects the content of the piece.
SOURCE: torrent_manager.rs:197-206, piece_manager.rs:26-52 -/
theorem expects_of_active (hmeta : torrent.rawTorrent.WellSized)
    (hs : SystemInv sha1 torrent options s) {content : Bytes}
    (hcontent : ContentOf sha1 torrent.rawTorrent content) {p : ℕ} {mgr : PieceRequestManager}
    (hmgr : s.manager.activePiecesManager.lookup p = some mgr) {a : PieceRequestManagerActor}
    (ha : s.pieceActor mgr.send = some a) :
    Expects sha1 (pieceOf torrent.rawTorrent content p) a := by
  obtain ⟨hmanages, hlt, -⟩ := hs.manager.active p mgr hmgr
  rw [hs.manager.length_frequency hmeta] at hlt
  obtain ⟨slot, hslot, hserves⟩ := hs.served p mgr hmgr
  rw [getElem?_pieceActors ha, Option.some.injEq] at hslot
  obtain ⟨hhash, hlength⟩ := hserves a hslot.symm
  have hpiece := hmanages.pieceLength_eq
  rw [MetaInfo.getPieceLength_eq hmeta hlt, Option.some.injEq] at hpiece
  have hdigest := hmanages.sha1Hash_eq
  rw [hcontent.digests p hlt, Option.some.injEq] at hdigest
  refine ⟨?_, by rw [hhash, hdigest]⟩
  rw [hlength, ← hpiece, length_pieceOf hmeta.pieceLength_pos hcontent.length_eq hlt]

theorem Alive.setPieceActor (h : Alive s) {send : ℕ} {a : PieceRequestManagerActor}
    (ha : s.pieceActor send = some a) (b : PieceRequestManagerActor) :
    Alive { s with pieceActors := s.pieceActors.set send (some b) } := by
  intro p mgr hmgr
  by_cases hsend : mgr.send = send
  · exact ⟨b, by rw [hsend, pieceActor_set ha]⟩
  · obtain ⟨a', ha'⟩ := h p mgr hmgr
    exact ⟨a', (pieceActor_of_set (some b) hsend).trans ha'⟩

/-- INTERNAL: a missing block of a tracked piece can be requested.
SOURCE: piece_manager.rs:77-97 -/
theorem requests_block {c p : ℕ} {mgr : PieceRequestManager} {busy : Set ℕ}
    (hmeta : torrent.rawTorrent.WellSized) (hcount : torrent.rawTorrent.pieceCount ≤ 2 ^ 32)
    (h : Ready sha1 torrent options busy s) (hsettled : NothingPending s)
    (htracks : TracksPiece s c p mgr)
    {a : PieceRequestManagerActor} (ha : s.pieceActor mgr.send = some a) {i : ℕ}
    (hi : i < noOfBlocks a.data.length) (hmissing : a.downloadedBlocks.getD i false = false) :
    ∃ t e b, Calm e ∧ systemStep sha1 s e = some (t, ()) ∧
      Ready sha1 torrent options busy t ∧ NothingPending t ∧ TracksPiece t c p mgr ∧
      t.manager.downloadedPieceIndex = s.manager.downloadedPieceIndex ∧
      t.pieceActor mgr.send = some b ∧ b.data = a.data ∧
      b.downloadedBlocks = a.downloadedBlocks ∧ b.blocksInFlight.getD i false = true := by
  have hout := (handedOut_blocksToRequest a a.requiredBlocks.length fun _ => 0).1
  generalize hb : (a.blocksToRequest a.requiredBlocks.length fun _ => 0).1 = b at hout
  have hcalm : Calm (.pieceActor mgr.send
      (.recv (.blocksToRequest a.requiredBlocks.length) fun _ => 0)) := ⟨trivial, trivial⟩
  have hstep : systemStep sha1 s (.pieceActor mgr.send
      (.recv (.blocksToRequest a.requiredBlocks.length) fun _ => 0)) =
        some ({ s with pieceActors := s.pieceActors.set mgr.send (some b) }, ()) := by
    simp [systemStep, pieceEvent, ha, pieceStep, hb]
  have hflight : b.blocksInFlight.getD i false = true := by
    rw [hout.inFlight]
    by_cases hflies : a.blocksInFlight.getD i false = true
    · rw [hflies, Bool.or_true]
    · -- all requestable blocks are handed out
      have hrequestable : a.requestable i = true := by
        rw [requestable_iff, (h.sound.flags mgr.send a ha).required i hi, hmissing]
        exact ⟨rfl, eq_false_of_ne_true hflies, rfl⟩
      have hmem : i ∈ blocksHandedOut a a.requiredBlocks.length := by
        unfold blocksHandedOut
        rw [List.take_of_length_le]
        · rw [List.mem_filter, List.mem_range, a.length_required]
          exact ⟨hi, hrequestable⟩
        · have hle := List.length_filter_le a.requestable (List.range a.requiredBlocks.length)
          rwa [List.length_range] at hle
      rw [decide_eq_true hmem, Bool.true_or]
  refine ⟨_, _, b, hcalm, hstep,
    ⟨soundInv_step hmeta hcount h.sound hcalm.unharmed hstep, h.runs,
      h.alive.setPieceActor ha b, h.roomy⟩, ⟨hsettled.finishing, hsettled.announced⟩,
    ⟨htracks.connection, htracks.active⟩, rfl, pieceActor_set ha (some b), hout.data, hout.downloaded,
    hflight⟩

theorem SoundInv.leads {content : Bytes} (hmeta : torrent.rawTorrent.WellSized)
    (hcount : torrent.rawTorrent.pieceCount ≤ 2 ^ 32) (hs : SoundInv sha1 torrent options s)
    (h : Leads (systemStep sha1) (FromSeeds torrent.rawTorrent content) s t) :
    SoundInv sha1 torrent options t :=
  h.invariant (SoundInv sha1 torrent options)
    (fun _ _ _ _ hs hstep he => soundInv_step hmeta hcount hs hstep.unharmed he) hs

theorem blockRecived_of_sending {c p off : ℕ} {data : Bytes} {tracked : Bool} {conn : Connection}
    {mgr : PieceRequestManager} {a : PieceRequestManagerActor}
    {slot : Option PieceRequestManagerActor} {reader : Reader}
    (hc : s.connections[c]? = some conn) (hreader : conn.reader = .sending mgr p off data tracked)
    (ha : s.pieceActor mgr.send = some a)
    (hafter : afterBlock sha1 a p off data tracked = (slot, reader)) :
    systemStep sha1 s (.blockRecived c) = some ({ s with
      pieceActors := s.pieceActors.set mgr.send slot }.setConnection c
        { conn with reader := reader }, ()) := by
  simp only [systemStep, TorrentSystem.blockRecived, Option.bind_eq_bind, hc, Option.bind_some,
    hreader, ha, hafter, Option.map_some]

/-- INTERNAL: a reader takes a block of a piece that it tracks.
SOURCE: peer_protocol_state_machine.rs:337-349 -/
theorem block_taken {m : MetaInfo} {content data : Bytes} {c p off : ℕ}
    {mgr : PieceRequestManager} (hsettled : NothingPending s) (htracks : TracksPiece s c p mgr)
    (hanswers : AnswersRequest m content s (.piece c p off data)) :
    ∃ t conn, Leads (systemStep sha1) (FromSeeds m content) s t ∧ NothingPending t ∧
      t.manager = s.manager ∧ t.pieceActors = s.pieceActors ∧ t.diskEnded = s.diskEnded ∧
      t.connections[c]? = some conn ∧ conn.reader = .sending mgr p off data true ∧
      conn.activeRequests.lookup p = some mgr := by
  obtain ⟨conn, hc, hidle, hrequest⟩ := htracks.connection
  have hpiece : systemStep sha1 s (.piece c p off data) = some (s.setConnection c
      { conn with reader := .sending mgr p off data true }, ()) := by
    simp [systemStep, piece, hc, hidle, hrequest]
  have hworks : DiskWorks (.piece c p off data) := trivial
  exact ⟨_, _, leads_of_step ⟨hsettled.sparesVerified _, hworks, hanswers⟩ hpiece,
    hsettled.setConnection c rfl, rfl, rfl, rfl,
    List.getElem?_set_self (List.getElem?_eq_some_iff.mp hc).1, rfl, hrequest⟩

/-- INTERNAL: a reader takes a block and the piece actor handles it. The piece is announced when
that completed it, and otherwise the reader is idle again.
SOURCE: peer_protocol_state_machine.rs:337-367, piece_manager.rs:98-136 -/
theorem block_arrives {m : MetaInfo} {content data : Bytes} {c p off : ℕ}
    {mgr : PieceRequestManager} {a b : PieceRequestManagerActor} {outcome : BlockOutcome}
    (hsettled : NothingPending s) (halive : Alive s) (htracks : TracksPiece s c p mgr)
    (ha : s.pieceActor mgr.send = some a)
    (hblock : a.blockRecived sha1 off data = some (b, outcome))
    (hanswers : AnswersRequest m content s (.piece c p off data)) :
    ∃ t, Leads (systemStep sha1) (FromSeeds m content) s t ∧ t.manager = s.manager ∧
      t.diskEnded = s.diskEnded ∧ Alive t ∧ t.pieceActor mgr.send = some b ∧
      (p ∈ announced t ∨ outcome ≠ .verified ∧ NothingPending t ∧ TracksPiece t c p mgr) := by
  obtain ⟨u, conn, hleads, husettled, hmanager, hactors, hended, hc, hreader, hrequest⟩ :=
    block_taken hsettled htracks hanswers
  have ha' : u.pieceActor mgr.send = some a := by
    unfold TorrentSystem.pieceActor at ha ⊢
    rwa [hactors]
  have halive' : Alive u := by
    unfold Alive TorrentSystem.pieceActor at halive ⊢
    rwa [hmanager, hactors]
  have hactor := pieceActor_set ha' (some b)
  have hlt := (List.getElem?_eq_some_iff.mp hc).1
  -- the reader goes on when the block is handled
  have hhandled {reader : Reader}
      (hafter : afterBlock sha1 a p off data true = (some b, reader)) :
      Leads (systemStep sha1) (FromSeeds m content) s ({ u with
        pieceActors := u.pieceActors.set mgr.send (some b) }.setConnection c
          { conn with reader := reader }) :=
    hleads.trans (leads_of_step (e := .blockRecived c) ⟨husettled.sparesVerified _, trivial, trivial⟩
      (blockRecived_of_sending hc hreader ha' hafter))
  by_cases hverified : outcome = .verified
  · have hafter : afterBlock sha1 a p off data true = (some b, .hashMatched p true) := by
      simp only [afterBlock, hblock, hverified]
    refine ⟨_, hhandled hafter, hmanager, hended, halive'.setPieceActor ha' b, hactor, Or.inl ?_⟩
    exact announced_of_matched (s := { u with
      pieceActors := u.pieceActors.set mgr.send (some b) }) hc rfl
  · have hafter : afterBlock sha1 a p off data true = (some b, .idle) := by
      unfold afterBlock
      rw [hblock]
      cases outcome with
      | verified => exact absurd rfl hverified
      | _ => rfl
    have hsame : NothingPending { u with pieceActors := u.pieceActors.set mgr.send (some b) } :=
      ⟨husettled.finishing, husettled.announced⟩
    refine ⟨_, hhandled hafter, hmanager, hended, halive'.setPieceActor ha' b, hactor,
      Or.inr ⟨hverified, hsame.setConnection c rfl, ⟨⟨_, List.getElem?_set_self hlt, rfl, hrequest⟩,
        ?_⟩⟩⟩
    rw [TorrentSystem.setConnection, hmanager]
    exact htracks.active

/-- INTERNAL: a seed answers the request for a missing block. The piece is announced, or its actor
comes closer to the content.
SOURCE: peer_protocol_state_machine.rs:337-367, piece_manager.rs:77-136 -/
theorem delivers_block {content : Bytes} {c p : ℕ} {mgr : PieceRequestManager} {busy : Set ℕ}
    (hmeta : torrent.rawTorrent.WellSized) (hcount : torrent.rawTorrent.pieceCount ≤ 2 ^ 32)
    (hcontent : ContentOf sha1 torrent.rawTorrent content)
    (h : Ready sha1 torrent options busy s) (hsettled : NothingPending s)
    (htracks : TracksPiece s c p mgr)
    {a : PieceRequestManagerActor} (ha : s.pieceActor mgr.send = some a) :
    ∃ t b, Leads (systemStep sha1) (FromSeeds torrent.rawTorrent content) s t ∧
      Ready sha1 torrent options busy t ∧
      t.manager.downloadedPieceIndex = s.manager.downloadedPieceIndex ∧
      t.pieceActor mgr.send = some b ∧
      (p ∈ announced t ∨ (NothingPending t ∧ TracksPiece t c p mgr) ∧
        blocksLeft (pieceOf torrent.rawTorrent content p) b <
          blocksLeft (pieceOf torrent.rawTorrent content p) a) := by
  -- the piece is not announced, so a block is missing
  obtain ⟨i, hi, hmissing⟩ : ∃ i < noOfBlocks a.data.length,
      a.downloadedBlocks.getD i false = false := by
    by_contra hfull
    push Not at hfull
    have hp := h.sound.announces p mgr a htracks.active ha fun i hi => by simpa using hfull i hi
    rw [hsettled.announced] at hp
    cases hp
  obtain ⟨u, e, a', hcalm, hu, hready, husettled, hutracks, hlog, ha', hdata, hflags, hflight⟩ :=
    requests_block hmeta hcount h hsettled htracks ha hi hmissing
  have hexpects := expects_of_active hmeta hready.sound.download.system hcontent hutracks.active ha'
  have hsame : blocksLeft (pieceOf torrent.rawTorrent content p) a' =
      blocksLeft (pieceOf torrent.rawTorrent content p) a := by
    unfold blocksLeft spoiltBlocks missingBlocks
    rw [hdata, hflags]
  rw [← hdata, hexpects.length] at hi
  rw [← hflags] at hmissing
  obtain ⟨b, outcome, hblock, hprogress⟩ := honest_block_progress hexpects hi hmissing
  have hindex : i * 16384 / 16384 = i := Nat.mul_div_cancel i (by omega)
  obtain ⟨conn, hc, -, hrequest⟩ := hutracks.connection
  obtain ⟨t, hleads, hmanager, hended, halive, hb, hnews⟩ :=
    block_arrives husettled hready.alive hutracks ha' hblock
      ⟨conn, mgr, a', hc, hrequest, ha', Nat.mul_mod_left i 16384, by rwa [hindex], by rw [hindex]⟩
  have hrun := Leads.head (hcalm.fromSeeds torrent.rawTorrent content) hu hleads
  refine ⟨t, b, hrun, ⟨h.sound.leads hmeta hcount hrun, hended.trans hready.runs, halive, ?_⟩, ?_,
    hb, ?_⟩
  · rw [hmanager]
    exact hready.roomy
  · rw [hmanager, hlog]
  · refine hnews.imp_right fun ⟨hne, hstill⟩ => ⟨hstill, ?_⟩
    rw [← hsame]
    exact hprogress.resolve_left hne

/-- INTERNAL: a piece that a seed works on can be completed.
SOURCE: peer_protocol_state_machine.rs:337-367, piece_manager.rs:77-136 -/
theorem delivers {content : Bytes} {c p : ℕ} {mgr : PieceRequestManager} {busy : Set ℕ}
    (hmeta : torrent.rawTorrent.WellSized) (hcount : torrent.rawTorrent.pieceCount ≤ 2 ^ 32)
    (hcontent : ContentOf sha1 torrent.rawTorrent content)
    (h : Ready sha1 torrent options busy s) (hsettled : NothingPending s)
    (htracks : TracksPiece s c p mgr) :
    ∃ t, Leads (systemStep sha1) (FromSeeds torrent.rawTorrent content) s t ∧
      (Ready sha1 torrent options busy t ∧
        t.manager.downloadedPieceIndex = s.manager.downloadedPieceIndex ∧
        (p ∈ announced t ∨ NothingPending t ∧ TracksPiece t c p mgr)) ∧ p ∈ announced t := by
  let distance (t : TorrentSystem) : ℕ ×ₗ ℕ :=
    ((t.pieceActor mgr.send).map (blocksLeft (pieceOf torrent.rawTorrent content p))).getD ⊥
  refine leads_of_progress distance
    (fun t => Ready sha1 torrent options busy t ∧
      t.manager.downloadedPieceIndex = s.manager.downloadedPieceIndex ∧
      (p ∈ announced t ∨ NothingPending t ∧ TracksPiece t c p mgr)) ?_
    ⟨h, rfl, Or.inr ⟨hsettled, htracks⟩⟩
  rintro u ⟨hready, hlog, hp | ⟨husettled, hutracks⟩⟩
  · exact Or.inl hp
  · obtain ⟨a, ha⟩ := hready.alive p mgr hutracks.active
    obtain ⟨t, b, hleads, htready, hlog', hb, hnews⟩ :=
      delivers_block hmeta hcount hcontent hready husettled hutracks ha
    refine Or.inr ⟨t, hleads, ⟨htready, hlog'.trans hlog, hnews.imp_right And.left⟩,
      hnews.imp_right fun hstill => ?_⟩
    simp only [distance, ha, hb, Option.map_some, Option.getD_some]
    exact hstill.2

/-! ## All pieces -/

/-- The pieces that are not in the log. -/
def piecesLeft (m : MetaInfo) (s : TorrentSystem) : Finset ℕ :=
  (Finset.range m.pieceCount).filter fun p => p ∉ s.manager.downloadedPieceIndex

theorem mem_piecesLeft {m : MetaInfo} {p : ℕ} :
    p ∈ piecesLeft m s ↔ p < m.pieceCount ∧ p ∉ s.manager.downloadedPieceIndex := by
  rw [piecesLeft, Finset.mem_filter, Finset.mem_range]

/-- INTERNAL: what is under way can be brought to an end, with nothing left to do or with a piece
that is not owned. -/
theorem settles_ready (content : Bytes) {busy : Set ℕ} (hmeta : torrent.rawTorrent.WellSized)
    (hcount : torrent.rawTorrent.pieceCount ≤ 2 ^ 32) (h : Ready sha1 torrent options busy s) :
    ∃ t, Leads (systemStep sha1) (FromSeeds torrent.rawTorrent content) s t ∧
      Ready sha1 torrent options busy t ∧ NothingPending t ∧ MovesOn s t ∧
      ∀ p, Owned t.manager p → p ∈ t.manager.downloadedPieceIndex := by
  obtain ⟨t, hleads, ⟨hsound, hmoves⟩, hsettled⟩ := settles hmeta hcount h.sound
  have hready := h.movesOn hmoves hsound
  exact ⟨t, hleads.mono fun _ _ he => he.calm.fromSeeds torrent.rawTorrent content, hready,
    hsettled, hmoves, fun p hp => hsettled.logged hsound hready.runs hp⟩

/-- INTERNAL: one more piece can be downloaded. -/
theorem next_piece {content : Bytes} (hmeta : torrent.rawTorrent.Consistent)
    (hcount : torrent.rawTorrent.pieceCount ≤ 2 ^ 32)
    (hcontent : ContentOf sha1 torrent.rawTorrent content)
    (h : Ready sha1 torrent options ∅ s) (hsettled : NothingPending s)
    (hlogged : ∀ p, Owned s.manager p → p ∈ s.manager.downloadedPieceIndex) {p : ℕ}
    (hp : p < torrent.rawTorrent.pieceCount) (hnot : p ∉ s.manager.downloadedPieceIndex) :
    ∃ t, Leads (systemStep sha1) (FromSeeds torrent.rawTorrent content) s t ∧
      Ready sha1 torrent options ∅ t ∧
      piecesLeft torrent.rawTorrent t ⊂ piecesLeft torrent.rawTorrent s := by
  have hsized := hmeta.toWellSized
  obtain ⟨u, c, p', mgr, hopens, huready, husettled, htracks, hulog⟩ :=
    opens hmeta hcount h hsettled hp (mt (hlogged p) hnot)
  obtain ⟨v, hdelivers, ⟨hvready, hvlog, -⟩, hnews⟩ :=
    delivers hsized hcount hcontent huready husettled htracks
  obtain ⟨t, hsettles, htready, htsettled, hmoves, htlogged⟩ :=
    settles_ready content hsized hcount hvready
  obtain ⟨-, hlt, hunowned⟩ := huready.sound.download.system.manager.active p' mgr htracks.active
  rw [huready.sound.download.system.manager.length_frequency hsized] at hlt
  have hown : Owned t.manager p' := by
    refine (hmoves.news p' hnews).resolve_left ?_
    rw [htsettled.announced]
    exact List.not_mem_nil
  refine ⟨t, (hopens.mono fun _ _ he => he.fromSeeds torrent.rawTorrent content).trans
    (hdelivers.trans hsettles), htready.of_owned hown, ?_⟩
  rw [hulog] at hvlog
  rw [Finset.ssubset_iff_of_subset]
  · refine ⟨p', mem_piecesLeft.mpr ⟨hlt, fun hmem => hunowned ?_⟩, fun hmem => ?_⟩
    · exact huready.sound.download.owned p' (hulog ▸ hmem)
    · exact (mem_piecesLeft.mp hmem).2 (htlogged p' hown)
  · intro q hq
    obtain ⟨hlt, hnot⟩ := mem_piecesLeft.mp hq
    exact mem_piecesLeft.mpr ⟨hlt, fun hmem => hnot (hmoves.log q (hvlog ▸ hmem))⟩

variable {fileSystem : FileSystem} {downloadPath : PathBuf} {start : TorrentSystem}
  {es : List SystemEvent}

/-- **A download never gets stuck.** When no two entries of the list of files lead to one file: in
every run in which no block changes what is still to be flushed of a verified buffer and no write
fails without being reported, from any state in which the disk actor runs, every active piece has a
live actor and no count exceeds the cap, whatever peers have sent before, a run without disk errors
that brings nothing but the requested blocks of a content with the digests of the torrent leads to a
state in which every piece is in the log and on disk.
SOURCE: torrent_manager.rs:113-364, piece_manager.rs:60-200, disk_manager.rs:59-112,
peer_protocol_state_machine.rs:105-148, peer_protocol_state_machine.rs:337-393 -/
theorem download_can_complete (hmeta : torrent.rawTorrent.Consistent)
    (hcount : torrent.rawTorrent.pieceCount ≤ 2 ^ 32)
    (hfiles : torrent.rawTorrent.localFiles = some torrent.files)
    (hseparate : Separate (entries fileSystem downloadPath torrent.files))
    (hstart : TorrentSystem.new torrent options fileSystem downloadPath = some start)
    (hes : AllSteps (systemStep sha1) Unharmed start es)
    (hs : run (systemStep sha1) start es = some s) (hruns : s.diskEnded = false)
    (halive : ∀ p mgr, s.manager.activePiecesManager.lookup p = some mgr →
      ∃ a, s.pieceActor mgr.send = some a)
    (hroomy : ∀ p count, s.manager.pieceConcurrencyCounts.lookup p = some count →
      count ≤ options.perPieceActivePeerCount)
    {content : Bytes} (hcontent : ContentOf sha1 torrent.rawTorrent content) :
    ∃ es' t, AllSteps (systemStep sha1) (FromSeeds torrent.rawTorrent content) s es' ∧
      run (systemStep sha1) s es' = some t ∧
      ∀ p < torrent.rawTorrent.pieceCount, p ∈ t.manager.downloadedPieceIndex ∧
        ∃ data, Verified sha1 torrent.rawTorrent p data ∧
          onDiskAt torrent.rawTorrent t.disk p = some data := by
  have hsized := hmeta.toWellSized
  have hsound := soundInv_run hsized hcount (soundInv_new hfiles hseparate hstart) hes hs
  have hready : Ready sha1 torrent options ∅ s :=
    ⟨hsound, hruns, halive, fun p count _ hlookup => hroomy p count hlookup⟩
  have hprogress : ∃ t, Leads (systemStep sha1) (FromSeeds torrent.rawTorrent content) s t ∧
      Ready sha1 torrent options ∅ t ∧
      ∀ p < torrent.rawTorrent.pieceCount, p ∈ t.manager.downloadedPieceIndex := by
    refine leads_of_progress (fun t => piecesLeft torrent.rawTorrent t)
      (Ready sha1 torrent options ∅) (fun v hv => Or.inr ?_) hready
    obtain ⟨u, hsettles, huready, husettled, hmoves, hlogged⟩ :=
      settles_ready content hsized hcount hv
    by_cases hall : ∀ p < torrent.rawTorrent.pieceCount, p ∈ u.manager.downloadedPieceIndex
    · exact ⟨u, hsettles, huready, Or.inl hall⟩
    · push Not at hall
      obtain ⟨p, hp, hnot⟩ := hall
      obtain ⟨t, hleads, htready, hfewer⟩ :=
        next_piece hmeta hcount hcontent huready husettled hlogged hp hnot
      refine ⟨t, hsettles.trans hleads, htready, Or.inr (hfewer.trans_subset fun q hq => ?_)⟩
      obtain ⟨hlt, hnot⟩ := mem_piecesLeft.mp hq
      exact mem_piecesLeft.mpr ⟨hlt, fun hmem => hnot (hmoves.log q hmem)⟩
  obtain ⟨t, ⟨es', hes', ht⟩, htready, hall⟩ := hprogress
  refine ⟨es', t, hes', ht, fun p hp => ⟨hall p hp, ?_⟩⟩
  obtain ⟨data, hverified, hcarries⟩ := htready.sound.download.kept p (hall p hp)
  exact ⟨data, hverified, onDiskAt_of_carries hverified.2.1 hcarries⟩

/-! ## A spoilt byte -/

/-- A peer that works on the piece sends a wrong byte, and the piece starts over. -/
def spoiltByteRun : List SystemEvent :=
  [.connect "first" .quiet, .recv (.addBitFeild "first" [true]) .quiet, .requestPiece 0 .quiet,
    .insertRequest 0, .piece 0 0 0 [9], .blockRecived 0]

/-- The state after that. -/
def spoiltByteState : TorrentSystem :=
  (run (systemStep toySha1) oneByteStart spoiltByteRun).get (by decide +kernel)

theorem contentOf_oneByte : ContentOf toySha1 oneByte.rawTorrent [1] :=
  ⟨by decide +kernel, by decide +kernel⟩

/-- The download can still be completed. -/
theorem download_can_complete_oneByte :
    ∃ es' t, AllSteps (systemStep toySha1) (FromSeeds oneByte.rawTorrent [1]) spoiltByteState es' ∧
      run (systemStep toySha1) spoiltByteState es' = some t ∧
      ∀ p < oneByte.rawTorrent.pieceCount, p ∈ t.manager.downloadedPieceIndex ∧
        ∃ data, Verified toySha1 oneByte.rawTorrent p data ∧
          onDiskAt oneByte.rawTorrent t.disk p = some data := by
  have halive : ∀ p mgr, spoiltByteState.manager.activePiecesManager.lookup p = some mgr →
      ∃ a, spoiltByteState.pieceActor mgr.send = some a := by
    intro p mgr hmgr
    have hactors : ∀ p ∈ spoiltByteState.manager.activePiecesManager.keys,
        ((spoiltByteState.manager.activePiecesManager.lookup p).bind fun mgr =>
          spoiltByteState.pieceActor mgr.send).isSome = true := by
      decide +kernel
    have hsome := hactors p (Finmap.mem_keys.mpr (Finmap.mem_of_lookup_eq_some hmgr))
    rw [hmgr] at hsome
    exact Option.isSome_iff_exists.mp hsome
  have hroomy : ∀ p count, spoiltByteState.manager.pieceConcurrencyCounts.lookup p = some count →
      count ≤ 5 := by
    intro p count hcount
    have hcounts : ∀ p ∈ spoiltByteState.manager.pieceConcurrencyCounts.keys,
        (spoiltByteState.manager.pieceConcurrencyCounts.lookup p).getD 0 ≤ 5 := by
      decide +kernel
    have hle := hcounts p (Finmap.mem_keys.mpr (Finmap.mem_of_lookup_eq_some hcount))
    rw [hcount] at hle
    exact hle
  have hes : AllSteps (systemStep toySha1) Unharmed oneByteStart spoiltByteRun := by
    decide +kernel
  exact download_can_complete (consistent_byteTorrent (by decide) (by decide)) (by decide)
    (by decide +kernel) separate_oneByte (Option.some_get _).symm hes (Option.some_get _).symm
    (by decide +kernel) halive hroomy contentOf_oneByte

end Fissure.Analysis
