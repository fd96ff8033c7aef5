import Fissure.Model.BeeProcessor
import Fissure.Model.PeerMessages

/-!
# The handshake with a peer

`protocols/peer_handshake.rs`: what the client sends first, what a connection takes from the bytes
that the remote side sends first, and how the twenty bytes of its peer id become a `String`. A
stream that ends too early, and a protocol string without length, lead to no connection, which is
`none`.
-/

set_option autoImplicit false

namespace Fissure.Model

/-! ## `String::from_utf8_lossy` -/

/-- A character of which the first bytes are read: their bits, how many bytes are still to come,
and the range of the next one. -/
structure Utf8Pending where
  bits : ℕ
  missing : ℕ
  low : ℕ
  high : ℕ

/-- U+FFFD, which stands for each part that is no character. -/
def replacementCharacter : Char := Char.ofNat 0xFFFD

/-- The first byte of a character: a character of its own, the start of a longer one, or neither
of them. -/
def utf8First (b : ℕ) : Char ⊕ Option Utf8Pending :=
  if b < 0x80 then .inl (Char.ofNat b)
  else if 0xC2 ≤ b ∧ b ≤ 0xDF then .inr (some ⟨b % 32, 1, 0x80, 0xBF⟩)
  else if b = 0xE0 then .inr (some ⟨0, 2, 0xA0, 0xBF⟩)
  else if b = 0xED then .inr (some ⟨13, 2, 0x80, 0x9F⟩)
  else if 0xE1 ≤ b ∧ b ≤ 0xEF then .inr (some ⟨b % 16, 2, 0x80, 0xBF⟩)
  else if b = 0xF0 then .inr (some ⟨0, 3, 0x90, 0xBF⟩)
  else if 0xF1 ≤ b ∧ b ≤ 0xF3 then .inr (some ⟨b % 8, 3, 0x80, 0xBF⟩)
  else if b = 0xF4 then .inr (some ⟨4, 3, 0x80, 0x8F⟩)
  else .inr none

/-- The characters of `bytes` after `pending`. A part that cannot be continued is replaced as a
whole, and the byte that does not continue it begins something new. -/
def lossyChars : Option Utf8Pending → Bytes → List Char
  | none, [] => []
  | some _, [] => [replacementCharacter]
  | pending, b :: bytes =>
    let begins (before : List Char) : List Char :=
      match utf8First b.toNat with
      | .inl c => before ++ c :: lossyChars none bytes
      | .inr none => before ++ replacementCharacter :: lossyChars none bytes
      | .inr (some next) => before ++ lossyChars (some next) bytes
    match pending with
    | none => begins []
    | some ⟨bits, missing, low, high⟩ =>
      if low ≤ b.toNat ∧ b.toNat ≤ high then
        let bits := bits * 64 + b.toNat % 64
        if missing ≤ 1 then Char.ofNat bits :: lossyChars none bytes
        else lossyChars (some ⟨bits, missing - 1, 0x80, 0xBF⟩) bytes
      else begins [replacementCharacter]

/-- `String::from_utf8_lossy`. -/
def fromUtf8Lossy (bytes : Bytes) : String := String.ofList (lossyChars none bytes)

/-! ## The two sides of the handshake -/

/-- What `PeerConnection::peer_connection_from_peer_meta` sends. -/
def handshake (infoHash : Bytes) (peerId : String) : Bytes :=
  [19] ++ utf8 "BitTorrent protocol" ++ List.replicate 8 0 ++ infoHash ++ utf8 peerId

/-- `PeerConnection::peer_connection_from_peer_meta` from where it reads: the peer id of the
connection that is made, given what the remote side sends. -/
def peerConnectionFromPeerMeta (received : Bytes) : Option String :=
  match received with
  | [] => none
  | pstrLen :: rest =>
    if pstrLen = 0 then none
    else if rest.length < pstrLen.toNat + 8 + 20 + 20 then none
    else
      let peerIdStart := pstrLen.toNat + 8 + 20
      (slice? rest peerIdStart (peerIdStart + 20)).map fromUtf8Lossy

end Fissure.Model
