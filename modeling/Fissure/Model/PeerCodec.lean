import Fissure.Library.StreamDecoder
import Fissure.Model.BeeProcessor
import Fissure.Model.PeerMessages

/-!
# The codec of peer messages

`PeerCodec` in `models/peer_messages.rs`. A frame is a length in four bytes, most significant first,
and a payload of that length. `decode` takes the first frame off the buffer when all of it is there;
`encode` appends a frame for the messages that the client sends.
-/

set_option autoImplicit false

namespace Fissure.Model

open Fissure.Library

/-- `put_u32` of a number that is cast to `u32`. -/
def putU32 (n : ℕ) : Bytes :=
  [.ofNat (n / 2 ^ 24), .ofNat (n / 2 ^ 16), .ofNat (n / 2 ^ 8), .ofNat n]

namespace PeerCodec

/-- The length that a buffer of at least four bytes begins with. -/
def msgLen (src : Bytes) : ℕ := fromBeBytes (src.take 4)

/-- `decode`: the result and the buffer after it; `none` when `PeerMessage::decode` panics. -/
def decode (src : Bytes) : Option (Except FissureErr (Option PeerMessage) × Bytes) :=
  if src.length < 4 then some (.ok none, src)
  else
    let msgLen := msgLen src
    if src.length < 4 + msgLen then some (.ok none, src)
    else do
      let fullData := src.take (4 + msgLen)
      let msg ← PeerMessage.decode (fullData.drop 4)
      some (.ok (some msg), src.drop (4 + msgLen))

/-- `encode`: the result and the buffer after it. -/
def encode (item : PeerMessage) (dst : Bytes) : Except FissureErr Unit × Bytes :=
  (.ok (), match item with
  | .interested => dst ++ putU32 1 ++ [2]
  | .request pieceIndex blockOffset length =>
    dst ++ putU32 13 ++ [6] ++ putU32 pieceIndex ++ putU32 blockOffset ++ putU32 length
  | .keepAlive => dst ++ putU32 0
  | .bitfield bitfield =>
    let bitfieldBytes := bitfield.intoVec
    let messageLength := 1 + bitfieldBytes.length % 2 ^ 32
    dst ++ putU32 messageLength ++ [5] ++ bitfieldBytes
  | .have pieceIndex => dst ++ putU32 5 ++ [4] ++ putU32 pieceIndex
  | _ => dst)

end PeerCodec

end Fissure.Model
