import Fissure.Model.PeerCodec

/-!
# Frames on the wire

The codec of the peer messages as a decoder of a stream (`decoder`). What is at the front of the
buffer depends on the bytes of the first frame only (`decode_complete`), so the messages do not
depend on how the bytes arrive (`decoding_independent`). The messages that the client sends come out
again as they went in (`round_trip`). A frame of a known id whose length does not fit never gives an
error: it gives a message or stops the reader (`accepts_exactly_iff`).
-/

set_option autoImplicit false

namespace Fissure.Analysis

open Fissure.Library Fissure.Model

/-! ## Bytes and bits -/

theorem fromBeBytes_putU32 {n : ℕ} (h : n < 2 ^ 32) : fromBeBytes (putU32 n) = n := by
  simp only [fromBeBytes, putU32, List.foldl_cons, List.foldl_nil, UInt8.toNat_ofNat']
  omega

@[simp] theorem length_putU32 (n : ℕ) : (putU32 n).length = 4 := rfl

theorem ofByte_toByte (b : Bitfield) :
    Bitfield.ofByte (Bitfield.toByte b) = (List.range 8).map fun k => b.getD k false := by
  have hbits (x₀ x₁ x₂ x₃ x₄ x₅ x₆ x₇ : Bool) :
      Bitfield.ofByte (.ofNat ([x₀, x₁, x₂, x₃, x₄, x₅, x₆, x₇].foldl
        (fun n x => 2 * n + x.toNat) 0)) = [x₀, x₁, x₂, x₃, x₄, x₅, x₆, x₇] := by
    revert x₀ x₁ x₂ x₃ x₄ x₅ x₆ x₇
    decide +kernel
  exact hbits _ _ _ _ _ _ _ _

/-- The bits with zeros up to whole bytes. -/
def paddedBits (b : Bitfield) : Bitfield :=
  b ++ List.replicate (8 * ((b.length + 7) / 8) - b.length) false

theorem flatMap_bytes (b : Bitfield) (n : ℕ) :
    ((List.range n).flatMap fun i => (List.range 8).map fun k => (b.drop (8 * i)).getD k false) =
      (List.range (8 * n)).map fun j => b.getD j false := by
  induction n with
  | zero => rfl
  | succ n ih =>
    rw [List.range_succ (n := n), List.flatMap_append, ih, Nat.mul_succ, List.range_add,
      List.map_append]
    simp [List.getD_eq_getElem?_getD, List.getElem?_drop]

/-- INTERNAL: a bitfield that goes over the wire gets its last byte filled up.
SOURCE: peer_messages.rs:48-53, peer_messages.rs:136-142 -/
theorem fromVec_intoVec (b : Bitfield) : Bitfield.fromVec b.intoVec = paddedBits b := by
  have hbytes : Bitfield.fromVec b.intoVec =
      (List.range (8 * ((b.length + 7) / 8))).map fun j => b.getD j false := by
    rw [← flatMap_bytes]
    unfold Bitfield.fromVec Bitfield.intoVec
    rw [List.flatMap_map]
    simp only [ofByte_toByte]
  rw [hbytes]
  apply List.ext_getElem?
  intro j
  unfold paddedBits
  rw [List.getElem?_map, List.getElem?_append, List.getElem?_replicate]
  by_cases hj : j < b.length
  · rw [List.getElem?_range (by omega), if_pos hj]
    simp [hj]
  · rw [if_neg hj]
    by_cases hlt : j < 8 * ((b.length + 7) / 8)
    · rw [List.getElem?_range hlt, if_pos (by omega)]
      simp [hj]
    · rw [if_neg (by omega), List.getElem?_eq_none (by simpa using hlt)]
      rfl

/-- INTERNAL: bit `i` of a bitfield is in byte `i / 8`, from the most significant bit on. -/
theorem testBit_intoVec {b : Bitfield} {i : ℕ} (hi : i < b.length) :
    ((b.intoVec.getD (i / 8) 0).toNat.testBit (7 - i % 8)) = b.getD i false := by
  have hbyte : b.intoVec.getD (i / 8) 0 = Bitfield.toByte (b.drop (8 * (i / 8))) := by
    unfold Bitfield.intoVec
    rw [List.getD_eq_getElem?_getD, List.getElem?_map, List.getElem?_range (by omega)]
    rfl
  have hbits := congrArg (fun l => l.getD (i % 8) false) (ofByte_toByte (b.drop (8 * (i / 8))))
  have hmod : i % 8 < 8 := Nat.mod_lt _ (by decide)
  simp only [Bitfield.ofByte, List.getD_eq_getElem?_getD, List.getElem?_map,
    List.getElem?_range hmod, Option.map_some, Option.getD_some, List.getElem?_drop,
    Nat.div_add_mod] at hbits
  rw [hbyte, hbits, List.getD_eq_getElem?_getD]

/-! ## The first frame of a buffer -/

namespace PeerCodec

open Fissure.Model.PeerCodec

/-- The buffer begins with a complete frame. -/
def Complete (src : Bytes) : Prop := 4 ≤ src.length ∧ 4 + msgLen src ≤ src.length

/-- The first frame. -/
def frame (src : Bytes) : Bytes := src.take (4 + msgLen src)

/-- What the first frame carries. -/
def payload (src : Bytes) : Bytes := (frame src).drop 4

variable {src : Bytes}

theorem decode_incomplete (h : ¬ Complete src) : decode src = some (.ok none, src) := by
  unfold decode
  by_cases hshort : src.length < 4
  · rw [if_pos hshort]
  · have hlen : src.length < 4 + msgLen src := by
      by_contra hnot
      exact h ⟨by omega, by omega⟩
    rw [if_neg hshort]
    exact if_pos hlen

/-- INTERNAL: a complete frame is taken off the buffer, whatever follows it.
SOURCE: peer_messages.rs:95-110 -/
theorem decode_complete (h : Complete src) :
    decode src =
      (PeerMessage.decode (payload src)).map fun m => (.ok (some m), src.drop (4 + msgLen src)) := by
  unfold decode
  rw [if_neg (Nat.not_lt.mpr h.1), Option.map_eq_bind]
  exact if_neg (Nat.not_lt.mpr h.2)

theorem msgLen_append (h : 4 ≤ src.length) (more : Bytes) : msgLen (src ++ more) = msgLen src := by
  unfold msgLen
  rw [List.take_append_of_le_length h]

theorem Complete.append (h : Complete src) (more : Bytes) : Complete (src ++ more) := by
  unfold Complete
  rw [msgLen_append h.1, List.length_append]
  have := h.1
  have := h.2
  omega

theorem frame_append (h : Complete src) (more : Bytes) : frame (src ++ more) = frame src := by
  unfold frame
  rw [msgLen_append h.1, List.take_append_of_le_length h.2]

theorem payload_append (h : Complete src) (more : Bytes) :
    payload (src ++ more) = payload src := by
  unfold payload
  rw [frame_append h]

theorem length_payload (h : Complete src) : (payload src).length = msgLen src := by
  unfold payload frame
  rw [List.length_drop, List.length_take, Nat.min_eq_left h.2]
  omega

/-! ## The stream -/

/-- What one call of `decode` finds; a panic and an error end the reader at the first frame. -/
def next (src : Bytes) : Decoded UInt8 PeerMessage Bytes :=
  match decode src with
  | some (.ok none, _) => .pending
  | some (.ok (some m), rest) => .message m rest
  | some (.error _, _) => .failure (frame src)
  | none => .failure (frame src)

theorem next_incomplete (h : ¬ Complete src) : next src = .pending := by
  simp [next, decode_incomplete h]

/-- INTERNAL: a message is what a complete first frame carries. -/
theorem next_eq_message {m : PeerMessage} {rest : Bytes} :
    next src = .message m rest ↔
      Complete src ∧ PeerMessage.decode (payload src) = some m ∧
        rest = src.drop (4 + msgLen src) := by
  by_cases h : Complete src
  · unfold next
    rw [decode_complete h]
    cases PeerMessage.decode (payload src) <;> simp [h, eq_comm]
  · simp [next_incomplete h, h]

/-- INTERNAL: the reader ends at a complete first frame whose payload cannot be decoded. -/
theorem next_eq_failure {f : Bytes} :
    next src = .failure f ↔
      Complete src ∧ PeerMessage.decode (payload src) = none ∧ f = frame src := by
  by_cases h : Complete src
  · unfold next
    rw [decode_complete h]
    cases PeerMessage.decode (payload src) <;> simp [h, eq_comm]
  · simp [next_incomplete h, h]

/-- The codec as a decoder of the stream. -/
def decoder : StreamDecoder UInt8 PeerMessage Bytes where
  next := next
  next_nil := rfl
  length_lt := by
    intro buf m rest h
    obtain ⟨hcomplete, -, rfl⟩ := next_eq_message.mp h
    have := hcomplete.1
    rw [List.length_drop]
    omega
  message_append := by
    intro buf m rest h more
    obtain ⟨hcomplete, hm, rfl⟩ := next_eq_message.mp h
    refine next_eq_message.mpr ⟨hcomplete.append more, ?_, ?_⟩
    · rw [payload_append hcomplete, hm]
    · rw [msgLen_append hcomplete.1, List.drop_append_of_le_length hcomplete.2]
  failure_append := by
    intro buf f h more
    obtain ⟨hcomplete, hf, rfl⟩ := next_eq_failure.mp h
    refine next_eq_failure.mpr ⟨hcomplete.append more, ?_, ?_⟩
    · rw [payload_append hcomplete, hf]
    · rw [frame_append hcomplete]

end PeerCodec

open PeerCodec

/-- **Decoding does not depend on how the bytes arrive.** Two ways of cutting a stream into chunks
give the same messages from the same number of bytes, and then the same leftover bytes or the same
frame on which decoding stops. A call that returns `None` leaves the buffer as it is, and a call
that returns a message removes the four bytes of the length and as many as it says.
SOURCE: peer_messages.rs:90-111, peer_messages.rs:27-80 -/
theorem decoding_independent {chunks chunks' : List Bytes}
    (hsame : chunks.flatten = chunks'.flatten) :
    decoder.receiveAll chunks = decoder.receiveAll chunks' ∧
      ∀ src result rest, Model.PeerCodec.decode src = some (result, rest) →
        (result = .ok none → rest = src) ∧
        ∀ m, result = .ok (some m) →
          4 + Model.PeerCodec.msgLen src ≤ src.length ∧
            rest = src.drop (4 + Model.PeerCodec.msgLen src) := by
  constructor
  · rw [StreamDecoder.receiveAll_eq_drain, StreamDecoder.receiveAll_eq_drain, hsame]
  · intro src result rest h
    by_cases hcomplete : Complete src
    · rw [decode_complete hcomplete] at h
      obtain ⟨m, -, heq⟩ := Option.map_eq_some_iff.mp h
      cases heq
      exact ⟨nofun, fun _ _ => ⟨hcomplete.2, rfl⟩⟩
    · rw [decode_incomplete hcomplete] at h
      cases h
      exact ⟨fun _ => rfl, nofun⟩

/-- A `KeepAlive` and an `Unchoke`, once as a whole and once cut inside both lengths. -/
theorem decoding_independent_unchoke :
    decoder.receiveAll [[0, 0, 0, 0, 0, 0, 0, 1, 1]] =
      decoder.receiveAll [[0, 0], [0, 0, 0, 0, 0], [1, 1]] :=
  (decoding_independent (by decide)).1

/-! ## The messages that the client sends -/

/-- A message with an encoding, whose fields have 32 bits. -/
def Encodable : PeerMessage → Prop
  | .keepAlive | .interested => True
  | .request pieceIndex blockOffset length =>
    pieceIndex < 2 ^ 32 ∧ blockOffset < 2 ^ 32 ∧ length < 2 ^ 32
  | .bitfield b => 1 + b.intoVec.length < 2 ^ 32
  | .have pieceIndex => pieceIndex < 2 ^ 32
  | _ => False

instance : (m : PeerMessage) → Decidable (Encodable m)
  | .keepAlive | .interested => isTrue trivial
  | .request pieceIndex blockOffset length =>
    inferInstanceAs (Decidable (pieceIndex < 2 ^ 32 ∧ blockOffset < 2 ^ 32 ∧ length < 2 ^ 32))
  | .bitfield b => inferInstanceAs (Decidable (1 + b.intoVec.length < 2 ^ 32))
  | .have pieceIndex => inferInstanceAs (Decidable (pieceIndex < 2 ^ 32))
  | .choke | .unchoke | .notInterested | .piece .. | .cancel .. | .port => isFalse id

/-- What is decoded of a message: a bitfield comes in whole bytes. -/
def received : PeerMessage → PeerMessage
  | .bitfield b => .bitfield (paddedBits b)
  | m => m

/-- The messages are encoded one after the other into a buffer. -/
def encodeAll (msgs : List PeerMessage) : Bytes :=
  msgs.foldl (fun dst m => (Model.PeerCodec.encode m dst).2) []

/-- A frame: a length and as many bytes. -/
def IsFrame (f : Bytes) : Prop := 4 ≤ f.length ∧ f.length = 4 + Model.PeerCodec.msgLen f

/-- What the frame of a message carries. -/
def frameBody : PeerMessage → Bytes
  | .interested => [2]
  | .request pieceIndex blockOffset length =>
    6 :: (putU32 pieceIndex ++ putU32 blockOffset ++ putU32 length)
  | .bitfield b => 5 :: b.intoVec
  | .have pieceIndex => 4 :: putU32 pieceIndex
  | _ => []

theorem length_body_lt {m : PeerMessage} (h : Encodable m) : (frameBody m).length < 2 ^ 32 := by
  cases m with
  | bitfield b =>
    change b.intoVec.length + 1 < 2 ^ 32
    rw [Nat.add_comm]
    exact h
  | _ => simp [frameBody]

/-- INTERNAL: `encode` appends one frame.
SOURCE: peer_messages.rs:116-153 -/
theorem encode_eq {m : PeerMessage} (h : Encodable m) (dst : Bytes) :
    Model.PeerCodec.encode m dst = (.ok (), dst ++ (putU32 (frameBody m).length ++ frameBody m)) := by
  cases m with
  | bitfield b =>
    have hlength : 1 + b.intoVec.length % 2 ^ 32 = b.intoVec.length + 1 := by
      change 1 + b.intoVec.length < 2 ^ 32 at h
      rw [Nat.mod_eq_of_lt (by omega), Nat.add_comm]
    simp only [Model.PeerCodec.encode, frameBody, hlength, List.length_cons, List.append_assoc]
    rfl
  | keepAlive | interested | request | «have» => simp [Model.PeerCodec.encode, frameBody]
  | _ => exact h.elim

/-- INTERNAL: what a frame carries is decoded to the message.
SOURCE: peer_messages.rs:27-80 -/
theorem decode_body {m : PeerMessage} (h : Encodable m) :
    PeerMessage.decode (frameBody m) = some (received m) := by
  cases m with
  | keepAlive | interested => rfl
  | request pieceIndex blockOffset length =>
    obtain ⟨hpiece, hoffset, hlength⟩ := h
    change some (PeerMessage.request (fromBeBytes (putU32 pieceIndex))
      (fromBeBytes (putU32 blockOffset)) (fromBeBytes (putU32 length))) = _
    rw [fromBeBytes_putU32 hpiece, fromBeBytes_putU32 hoffset, fromBeBytes_putU32 hlength]
    rfl
  | bitfield b =>
    change (slice? (5 :: b.intoVec) 1 (5 :: b.intoVec).length).bind _ = _
    have hslice : slice? (5 :: b.intoVec) 1 (5 :: b.intoVec).length = some b.intoVec := by
      simp [slice?]
    rw [hslice, Option.bind_some, fromVec_intoVec]
    rfl
  | «have» pieceIndex =>
    change some (PeerMessage.have (fromBeBytes (putU32 pieceIndex))) = _
    rw [fromBeBytes_putU32 h]
    rfl
  | _ => exact h.elim

/-- INTERNAL: a frame is taken off the buffer as a message.
SOURCE: peer_messages.rs:95-110 -/
theorem next_frame {bytes : Bytes} {m : PeerMessage} (hlt : bytes.length < 2 ^ 32)
    (hm : PeerMessage.decode bytes = some m) (rest : Bytes) :
    next (putU32 bytes.length ++ bytes ++ rest) = .message m rest := by
  have hmsgLen (more : Bytes) : Model.PeerCodec.msgLen (putU32 bytes.length ++ more) =
      bytes.length := by
    unfold Model.PeerCodec.msgLen
    rw [List.take_left' (length_putU32 _), fromBeBytes_putU32 hlt]
  rw [List.append_assoc]
  refine next_eq_message.mpr ⟨⟨?_, ?_⟩, ?_, ?_⟩
  · simp
  · rw [hmsgLen]
    simp
  · unfold payload frame
    rw [hmsgLen, ← hm]
    congr 1
    rw [← List.append_assoc, List.take_left' (by simp), List.drop_left' (length_putU32 _)]
  · rw [hmsgLen, ← List.append_assoc, List.drop_left' (by simp)]

theorem encodeAll_eq {msgs : List PeerMessage} (h : ∀ m ∈ msgs, Encodable m) :
    encodeAll msgs = msgs.flatMap fun m => putU32 (frameBody m).length ++ frameBody m := by
  have hfold (dst : Bytes) : msgs.foldl (fun dst m => (Model.PeerCodec.encode m dst).2) dst =
      dst ++ msgs.flatMap fun m => putU32 (frameBody m).length ++ frameBody m := by
    induction msgs generalizing dst with
    | nil => simp
    | cons m msgs ih =>
      rw [List.forall_mem_cons] at h
      rw [List.foldl_cons, encode_eq h.1, ih h.2, List.flatMap_cons, List.append_assoc]
  exact hfold []

/-- INTERNAL: the beginning of a frame is no complete frame. -/
theorem not_complete_of_prefix {f tail : Bytes} (hframe : IsFrame f) (htail : tail <+: f)
    (hproper : tail ≠ f) : ¬ Complete tail := by
  rintro ⟨hfour, hlen⟩
  obtain ⟨more, rfl⟩ := htail
  have hmsgLen := msgLen_append hfour more
  have hlength := hframe.2
  rw [hmsgLen, List.length_append] at hlength
  have hmore : more = [] := List.length_eq_zero_iff.mp (by omega)
  rw [hmore, List.append_nil] at hproper
  exact hproper rfl

/-- INTERNAL: bit `i` of the bitfield in the frame of a `Bitfield`. -/
theorem testBit_frame {b : Bitfield} (h : Encodable (.bitfield b)) {i : ℕ} (hi : i < b.length) :
    ((Model.PeerCodec.encode (.bitfield b) []).2.getD (5 + i / 8) 0).toNat.testBit (7 - i % 8) =
      b.getD i false := by
  rw [encode_eq h, ← testBit_intoVec hi]
  congr 2
  rw [Nat.add_comm]
  rfl

/-- **The codec round-trips message streams.** Messages among `KeepAlive`, `Interested`, `Request`,
`Bitfield` and `Have` that are encoded one after the other, followed by a proper prefix of one more
frame, are decoded to the same messages, and the prefix stays in the buffer. A bitfield comes in
whole bytes, filled up with zeros, bit `i` at piece `i` from the most significant bit on.
SOURCE: peer_messages.rs:113-156, peer_messages.rs:90-111, peer_messages.rs:27-80 -/
theorem round_trip {msgs : List PeerMessage} (hmsgs : ∀ m ∈ msgs, Encodable m) {f tail : Bytes}
    (hframe : IsFrame f) (htail : tail <+: f) (hproper : tail ≠ f) :
    decoder.drain (encodeAll msgs ++ tail) =
        ⟨msgs.map received, (encodeAll msgs).length, .ok tail⟩ ∧
      Model.PeerCodec.decode tail = some (.ok none, tail) ∧
      ∀ b, .bitfield b ∈ msgs → ∀ i, i < b.length →
        ((Model.PeerCodec.encode (.bitfield b) []).2.getD (5 + i / 8) 0).toNat.testBit (7 - i % 8) =
          b.getD i false := by
  have hincomplete := not_complete_of_prefix hframe htail hproper
  refine ⟨?_, decode_incomplete hincomplete, fun b hb i hi => testBit_frame (hmsgs _ hb) hi⟩
  rw [encodeAll_eq hmsgs]
  apply StreamDecoder.drain_frames
  · intro m hm rest
    exact next_frame (length_body_lt (hmsgs m hm)) (decode_body (hmsgs m hm)) rest
  · exact next_incomplete hincomplete

/-- One message of each kind. -/
def oneOfEach : List PeerMessage :=
  [.keepAlive, .interested, .request 1 16384 16384, .bitfield [true, false, true], .have 7]

/-- The messages are followed by half of the length of one more. -/
theorem round_trip_each :
    decoder.drain (encodeAll oneOfEach ++ [0, 0]) =
      ⟨[.keepAlive, .interested, .request 1 16384 16384,
        .bitfield [true, false, true, false, false, false, false, false], .have 7], 41,
        .ok [0, 0]⟩ := by
  have hmsgs : ∀ m ∈ oneOfEach, Encodable m := by decide
  have hframe : IsFrame [0, 0, 0, 0] := ⟨by decide, by decide⟩
  have htail : ([0, 0] : Bytes) <+: [0, 0, 0, 0] := by decide
  rw [(round_trip hmsgs hframe htail (by decide)).1]
  rfl

/-! ## The outcome of encoding -/

/-- The messages that the client does not send yet. -/
def Stubbed : PeerMessage → Prop
  | .choke | .unchoke | .notInterested | .piece .. | .cancel .. | .port => True
  | _ => False

/-- `encode` reports an error and leaves the buffer as it was, or it reports success and has
appended one frame, which is decoded to the message. -/
def Delivers (m : PeerMessage) (dst : Bytes) : Prop :=
  (∃ e, Model.PeerCodec.encode m dst = (.error e, dst)) ∨
    ∃ f, Model.PeerCodec.encode m dst = (.ok (), dst ++ f) ∧ IsFrame f ∧
      PeerMessage.decode (f.drop 4) = some (received m)

/-- INTERNAL: the frame of a message.
SOURCE: peer_messages.rs:116-148 -/
theorem isFrame_frameBody {m : PeerMessage} (h : Encodable m) :
    IsFrame (putU32 (frameBody m).length ++ frameBody m) := by
  have hmsgLen : Model.PeerCodec.msgLen (putU32 (frameBody m).length ++ frameBody m) =
      (frameBody m).length := by
    unfold Model.PeerCodec.msgLen
    rw [List.take_left' (length_putU32 _), fromBeBytes_putU32 (length_body_lt h)]
  constructor
  · simp
  · simp [hmsgLen]

/-- **What the encoder reports is what it did.** `encode` never reports an error. A message with an
encoding whose numbers fit the 32 bits of the wire is appended as one frame that is decoded to the
same message. For the messages that the client does not send yet the buffer stays as it was.
SOURCE: peer_messages.rs:113-156, peer_messages.rs:27-80 -/
theorem encode_outcome (m : PeerMessage) (dst : Bytes) :
    (Model.PeerCodec.encode m dst).1 = .ok () ∧
      (Encodable m → Delivers m dst) ∧
      (Stubbed m → Model.PeerCodec.encode m dst = (.ok (), dst)) := by
  refine ⟨rfl, fun h => Or.inr ?_, fun h => ?_⟩
  · refine ⟨_, encode_eq h dst, isFrame_frameBody h, ?_⟩
    rw [List.drop_left' (length_putU32 _), decode_body h]
  · cases m with
    | choke | unchoke | notInterested | piece | cancel | port => rfl
    | _ => exact h.elim

/-- A `Piece` is reported as sent, and nothing is. -/
theorem piece_not_delivered :
    Model.PeerCodec.encode (.piece 0 0 [1]) [] = (.ok (), []) ∧ ¬ Delivers (.piece 0 0 [1]) [] := by
  refine ⟨rfl, ?_⟩
  rintro (⟨e, he⟩ | ⟨f, hf, hframe, -⟩)
  · cases he
  · have hnil : f = [] := (congrArg Prod.snd hf).symm
    have hfour := hframe.1
    simp [hnil] at hfour

/-! ## Frames of a known id -/

/-- The lengths that fit a message id. -/
def LengthFits (id length : ℕ) : Prop :=
  match id with
  | 0 | 1 | 2 | 3 => length = 1
  | 4 => length = 5
  | 5 => 1 ≤ length
  | 6 | 8 => length = 13
  | 7 => 9 ≤ length
  | _ => False

/-- The buffer begins with a complete frame of a known id whose length does not fit. -/
def Misfit (src : Bytes) : Prop :=
  Complete src ∧ ∃ id ∈ (payload src).head?, id.toNat ≤ 8 ∧
    ¬ LengthFits id.toNat (Model.PeerCodec.msgLen src)

/-- `decode` does not panic; a complete frame of a known id gives a message exactly if its length
fits, and an error if it does not. -/
def AcceptsExactly (src : Bytes) : Prop :=
  ∃ result rest, Model.PeerCodec.decode src = some (result, rest) ∧
    (Complete src → ∀ id ∈ (payload src).head?, id.toNat ≤ 8 →
      ((∃ m, result = .ok (some m)) ↔ LengthFits id.toNat (Model.PeerCodec.msgLen src)) ∧
      (¬ LengthFits id.toNat (Model.PeerCodec.msgLen src) → ∃ e, result = .error e))

/-- INTERNAL: a frame whose length fits is decoded, and so is one of an unknown id.
SOURCE: peer_messages.rs:36-79 -/
theorem decode_isSome {id : UInt8} {bytes : Bytes}
    (h : id.toNat ≤ 8 → LengthFits id.toNat (bytes.length + 1)) :
    ∃ m, PeerMessage.decode (id :: bytes) = some m := by
  have hslice {start stop : ℕ} (hle : start ≤ stop) (hstop : stop ≤ bytes.length + 1) :
      slice? (id :: bytes) start stop =
        some (((id :: bytes).drop start).take (stop - start)) := if_pos ⟨hle, hstop⟩
  simp only [PeerMessage.decode]
  generalize id.toNat = n at h ⊢
  revert h
  split <;> intro h
  · exact ⟨_, rfl⟩
  · exact ⟨_, rfl⟩
  · exact ⟨_, rfl⟩
  · exact ⟨_, rfl⟩
  · have hfits : bytes.length + 1 = 5 := h (by decide)
    rw [hslice (by decide) (by omega)]
    exact ⟨_, rfl⟩
  · rw [hslice (by simp) (by simp)]
    exact ⟨_, rfl⟩
  · have hfits : bytes.length + 1 = 13 := h (by decide)
    rw [hslice (by decide) (by omega), hslice (by decide) (by omega),
      hslice (by decide) (by omega)]
    exact ⟨_, rfl⟩
  · have hfits : 9 ≤ bytes.length + 1 := h (by decide)
    rw [hslice (by decide) (by omega), hslice (by decide) (by omega),
      hslice (by simpa using hfits) (by simp)]
    exact ⟨_, rfl⟩
  · have hfits : bytes.length + 1 = 13 := h (by decide)
    rw [hslice (by decide) (by omega), hslice (by decide) (by omega),
      hslice (by decide) (by omega)]
    exact ⟨_, rfl⟩
  · exact ⟨_, rfl⟩

/-- INTERNAL: no frame gives an error.
SOURCE: peer_messages.rs:109-110 -/
theorem result_of_complete {src : Bytes} (h : Complete src)
    {result : Except FissureErr (Option PeerMessage)} {rest : Bytes}
    (hdecode : Model.PeerCodec.decode src = some (result, rest)) : ∃ m, result = .ok (some m) := by
  rw [decode_complete h] at hdecode
  obtain ⟨m, -, heq⟩ := Option.map_eq_some_iff.mp hdecode
  cases heq
  exact ⟨m, rfl⟩

/-- **Exactly the frames that fit are handled as they should be.** `decode` does not panic, gives a
message for a complete frame of a known id exactly if its length fits and an error otherwise, on
those buffers that do not begin with a complete frame of a known id whose length does not fit.
SOURCE: peer_messages.rs:27-80, peer_messages.rs:90-111 -/
theorem accepts_exactly_iff (src : Bytes) : AcceptsExactly src ↔ ¬ Misfit src := by
  constructor
  · rintro ⟨result, rest, hdecode, haccepts⟩ ⟨hcomplete, id, hid, hknown, hmisfit⟩
    obtain ⟨hiff, -⟩ := haccepts hcomplete id hid hknown
    exact hmisfit (hiff.mp (result_of_complete hcomplete hdecode))
  · intro hfit
    by_cases hcomplete : Complete src
    · have hfits : ∀ id ∈ (payload src).head?, id.toNat ≤ 8 →
          LengthFits id.toNat (Model.PeerCodec.msgLen src) := by
        intro id hid hknown
        by_contra hnot
        exact hfit ⟨hcomplete, id, hid, hknown, hnot⟩
      have hdecode : ∃ m, PeerMessage.decode (payload src) = some m := by
        have hlength := length_payload hcomplete
        cases hpayload : payload src with
        | nil => exact ⟨.keepAlive, rfl⟩
        | cons id bytes =>
          rw [hpayload] at hfits hlength
          apply decode_isSome
          intro hknown
          rw [List.length_cons] at hlength
          rw [hlength]
          exact hfits id rfl hknown
      obtain ⟨m, hm⟩ := hdecode
      refine ⟨.ok (some m), src.drop (4 + Model.PeerCodec.msgLen src), ?_, ?_⟩
      · rw [decode_complete hcomplete, hm]
        rfl
      · intro _ id hid hknown
        have hfit := hfits id hid hknown
        exact ⟨iff_of_true ⟨m, rfl⟩ hfit, fun hnot => absurd hfit hnot⟩
    · exact ⟨.ok none, src, decode_incomplete hcomplete, fun h => absurd h hcomplete⟩

/-- A `Have` without its piece stops the reader, and a `Choke` with a byte too many is taken for
one. -/
theorem misfits_not_errors :
    Model.PeerCodec.decode [0, 0, 0, 1, 4] = none ∧
      Model.PeerCodec.decode [0, 0, 0, 2, 0, 0] = some (.ok (some .choke), []) ∧
      ¬ AcceptsExactly [0, 0, 0, 1, 4] ∧ ¬ AcceptsExactly [0, 0, 0, 2, 0, 0] := by
  have hhave : Model.PeerCodec.decode [0, 0, 0, 1, 4] = none := by
    have hpayload : PeerMessage.decode (payload [0, 0, 0, 1, 4]) = none := by decide +kernel
    rw [decode_complete ⟨by decide +kernel, by decide +kernel⟩, hpayload]
    rfl
  have hcomplete : Complete [0, 0, 0, 2, 0, 0] := ⟨by decide +kernel, by decide +kernel⟩
  have hmsgLen : Model.PeerCodec.msgLen [0, 0, 0, 2, 0, 0] = 2 := by decide +kernel
  have hid : (payload [0, 0, 0, 2, 0, 0]).head? = some 0 := by decide +kernel
  have hchoke : Model.PeerCodec.decode [0, 0, 0, 2, 0, 0] = some (.ok (some .choke), []) := by
    have hpayload : PeerMessage.decode (payload [0, 0, 0, 2, 0, 0]) = some .choke := by
      decide +kernel
    rw [decode_complete hcomplete, hpayload, hmsgLen]
    rfl
  refine ⟨hhave, hchoke, ?_, ?_⟩
  · rintro ⟨result, rest, hdecode, -⟩
    rw [hhave] at hdecode
    cases hdecode
  · rintro ⟨result, rest, hdecode, haccepts⟩
    rw [hchoke] at hdecode
    cases hdecode
    obtain ⟨hiff, -⟩ := haccepts hcomplete 0 hid (by decide)
    have hfits : Model.PeerCodec.msgLen [0, 0, 0, 2, 0, 0] = 1 := hiff.mp ⟨.choke, rfl⟩
    rw [hmsgLen] at hfits
    cases hfits

end Fissure.Analysis
