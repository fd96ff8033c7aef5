import Fissure.Model.Bits

/-!
# Peer messages

`models/peer_messages.rs`: the messages of the peer protocol and what
`PeerMessage::decode` makes of the payload of one frame. A slice out of range panics, which
is `none`.
-/

set_option autoImplicit false

namespace Fissure.Model

/-- `PeerMessage`. -/
inductive PeerMessage
  | keepAlive
  | choke
  | unchoke
  | interested
  | notInterested
  | have (pieceIndex : ℕ)
  | bitfield (bitfield : Bitfield)
  | request (pieceIndex blockOffset length : ℕ)
  | piece (pieceIndex blockOffset : ℕ) (data : Bytes)
  | cancel (pieceIndex blockOffset length : ℕ)
  | port
  deriving DecidableEq, Repr

/-- `data[start..stop]`. -/
def slice? (data : Bytes) (start stop : ℕ) : Option Bytes :=
  if start ≤ stop ∧ stop ≤ data.length then some ((data.drop start).take (stop - start)) else none

/-- `u32::from_be_bytes`. -/
def fromBeBytes (bytes : Bytes) : ℕ := bytes.foldl (fun n b => n * 256 + b.toNat) 0

/-- `PeerMessage::decode`. -/
def PeerMessage.decode (data : Bytes) : Option PeerMessage :=
  match data with
  | [] => some .keepAlive
  | messageId :: _ =>
    match messageId.toNat with
    | 0 => some .choke
    | 1 => some .unchoke
    | 2 => some .interested
    | 3 => some .notInterested
    | 4 => do
      let pieceIndex ← slice? data 1 5
      some (.have (fromBeBytes pieceIndex))
    | 5 => do
      let bitfieldBytes ← slice? data 1 data.length
      some (.bitfield (Bitfield.fromVec bitfieldBytes))
    | 6 => do
      let pieceIndex ← slice? data 1 5
      let blockOffset ← slice? data 5 9
      let length ← slice? data 9 13
      some (.request (fromBeBytes pieceIndex) (fromBeBytes blockOffset) (fromBeBytes length))
    | 7 => do
      let pieceIndex ← slice? data 1 5
      let blockOffset ← slice? data 5 9
      let block ← slice? data 9 data.length
      some (.piece (fromBeBytes pieceIndex) (fromBeBytes blockOffset) block)
    | 8 => do
      let pieceIndex ← slice? data 1 5
      let blockOffset ← slice? data 5 9
      let length ← slice? data 9 13
      some (.cancel (fromBeBytes pieceIndex) (fromBeBytes blockOffset) (fromBeBytes length))
    | _ => some .port

end Fissure.Model
