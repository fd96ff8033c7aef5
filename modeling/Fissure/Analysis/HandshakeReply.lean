import Fissure.Analysis.OutgoingPackets

/-!
# The remote side's handshake

The reply of a peer is read by its first byte: that many bytes of a protocol string, then eight
reserved bytes, an info hash and a peer id. Nothing is compared with what the client has sent, so
the replies that are taken for a handshake of this torrent without being one are those that are long
enough and differ in the protocol string or the info hash (`accepts_ours_iff`).
-/

set_option autoImplicit false

namespace Fissure.Analysis

open Fissure.Library Fissure.Model

variable {infoHash received : Bytes}

/-- The reply is as long as its first byte says, which is not zero. -/
def LongEnough (received : Bytes) : Prop :=
  ∃ pstrLen rest, received = pstrLen :: rest ∧ pstrLen ≠ 0 ∧
    pstrLen.toNat + 8 + 20 + 20 ≤ rest.length

/-- The reply has the protocol string and the info hash of the torrent where a handshake has
them. -/
def NamesTorrent (infoHash received : Bytes) : Prop :=
  received.take 20 = 19 :: utf8 "BitTorrent protocol" ∧ (received.drop 28).take 20 = infoHash

/-- The reply begins with a handshake of the torrent from the peer with these twenty bytes. -/
def IsHandshake (infoHash received peerId : Bytes) : Prop :=
  ∃ reserved more, reserved.length = 8 ∧ peerId.length = 20 ∧
    received = 19 :: utf8 "BitTorrent protocol" ++ reserved ++ infoHash ++ peerId ++ more

/-- The slice with the peer id is in range whenever it is taken, and a connection is made only with
a peer that has answered with a handshake of the torrent, under the peer id in it. -/
def AcceptsOurs (infoHash received : Bytes) : Prop :=
  (∀ pstrLen rest, received = pstrLen :: rest → pstrLen.toNat + 8 + 20 + 20 ≤ rest.length →
    (slice? rest (pstrLen.toNat + 8 + 20) (pstrLen.toNat + 8 + 20 + 20)).isSome = true) ∧
  ∀ q, peerConnectionFromPeerMeta received = some q →
    ∃ peerId, IsHandshake infoHash received peerId ∧ q = fromUtf8Lossy peerId

/-- INTERNAL: when a connection is made, and under which peer id.
SOURCE: peer_handshake.rs:83-113 -/
theorem peerConnectionFromPeerMeta_eq_some {q : String} :
    peerConnectionFromPeerMeta received = some q ↔
      ∃ pstrLen rest, received = pstrLen :: rest ∧ pstrLen ≠ 0 ∧
        pstrLen.toNat + 8 + 20 + 20 ≤ rest.length ∧
        q = fromUtf8Lossy ((rest.drop (pstrLen.toNat + 8 + 20)).take 20) := by
  cases received with
  | nil => simp [peerConnectionFromPeerMeta]
  | cons pstrLen rest =>
    unfold peerConnectionFromPeerMeta
    by_cases hzero : pstrLen = 0
    · simp [hzero]
    by_cases hlong : pstrLen.toNat + 8 + 20 + 20 ≤ rest.length
    · have hslice : slice? rest (pstrLen.toNat + 8 + 20) (pstrLen.toNat + 8 + 20 + 20) =
          some ((rest.drop (pstrLen.toNat + 8 + 20)).take 20) := by
        rw [slice?, if_pos ⟨Nat.le_add_right _ _, hlong⟩, Nat.add_sub_cancel_left]
      simp [hzero, Nat.not_lt.mpr hlong, hslice, hlong, eq_comm]
    · simp [hzero, Nat.not_le.mp hlong, hlong]

/-- INTERNAL: a handshake of the torrent has its protocol string and info hash where they belong. -/
theorem IsHandshake.namesTorrent {peerId : Bytes} (h : IsHandshake infoHash received peerId)
    (hhash : infoHash.length = 20) : NamesTorrent infoHash received := by
  obtain ⟨reserved, more, hreserved, -, rfl⟩ := h
  have hpstr : (19 :: utf8 "BitTorrent protocol").length = 20 := by
    rw [List.length_cons, length_pstr]
  constructor
  · simp only [List.append_assoc]
    exact List.take_left' hpstr
  · have hbefore : (19 :: utf8 "BitTorrent protocol" ++ reserved).length = 28 := by
      rw [List.length_append, hpstr, hreserved]
    rw [List.append_assoc, List.append_assoc, List.drop_left' hbefore, List.take_left' hhash]

/-- INTERNAL: a reply that is long enough and names the torrent is a handshake from the peer whose
id is read. -/
theorem isHandshake_of_namesTorrent {pstrLen : UInt8} {rest : Bytes}
    (h : NamesTorrent infoHash (pstrLen :: rest))
    (hlong : pstrLen.toNat + 8 + 20 + 20 ≤ rest.length) :
    IsHandshake infoHash (pstrLen :: rest) ((rest.drop (pstrLen.toNat + 8 + 20)).take 20) := by
  obtain ⟨hpstr, hhash⟩ := h
  obtain ⟨rfl, hrest⟩ := List.cons.inj hpstr
  change 19 + 8 + 20 + 20 ≤ rest.length at hlong
  refine ⟨(rest.drop 19).take 8, rest.drop 67, ?_, ?_, ?_⟩
  · simp
    omega
  · change ((rest.drop 47).take 20).length = 20
    simp
    omega
  · change 19 :: rest = 19 :: _ ++ _ ++ _ ++ (rest.drop 47).take 20 ++ rest.drop 67
    have hsplit (n m : ℕ) : rest.drop n = (rest.drop n).take m ++ rest.drop (n + m) := by
      rw [← List.drop_drop, List.take_append_drop]
    rw [← hhash, ← hrest]
    simp only [List.cons_append, List.append_assoc, List.drop_succ_cons]
    rw [← hsplit 47 20, ← hsplit 27 20, ← hsplit 19 8]
    exact congrArg _ (List.take_append_drop 19 rest).symm

/-- **Which replies are told apart.** For every reply: the slice with the peer id is in range, and
a connection is made only if the reply is a whole handshake with the protocol string and the info
hash of the torrent, under the peer id in its last twenty bytes, exactly when the reply is too short
for its first byte, or that byte is zero, or the protocol string and the info hash are there.
SOURCE: peer_handshake.rs:55-114 -/
theorem accepts_ours_iff (hhash : infoHash.length = 20) (received : Bytes) :
    AcceptsOurs infoHash received ↔ ¬ LongEnough received ∨ NamesTorrent infoHash received := by
  constructor
  · rintro ⟨-, haccepts⟩
    by_cases hlong : LongEnough received
    · obtain ⟨pstrLen, rest, hreceived, hzero, hlength⟩ := hlong
      obtain ⟨peerId, hhandshake, -⟩ :=
        haccepts _ (peerConnectionFromPeerMeta_eq_some.mpr
          ⟨pstrLen, rest, hreceived, hzero, hlength, rfl⟩)
      exact Or.inr (hhandshake.namesTorrent hhash)
    · exact Or.inl hlong
  · intro h
    constructor
    · rintro pstrLen rest - hlength
      rw [slice?, if_pos ⟨Nat.le_add_right _ _, hlength⟩, Option.isSome_some]
    · intro q hq
      obtain ⟨pstrLen, rest, rfl, hzero, hlength, rfl⟩ := peerConnectionFromPeerMeta_eq_some.mp hq
      rcases h with hshort | hnames
      · exact absurd ⟨pstrLen, rest, rfl, hzero, hlength⟩ hshort
      · exact ⟨_, isHandshake_of_namesTorrent hnames hlength, rfl⟩

/-- The handshake of a client for the torrent, with the same info hash. -/
theorem accepts_ours_own :
    AcceptsOurs (List.replicate 20 9) (handshake (List.replicate 20 9) "FS0001aaaaaaaaaaaaaa") ↔
      ¬ LongEnough (handshake (List.replicate 20 9) "FS0001aaaaaaaaaaaaaa") ∨
        NamesTorrent (List.replicate 20 9)
          (handshake (List.replicate 20 9) "FS0001aaaaaaaaaaaaaa") :=
  accepts_ours_iff (by decide) _

/-- A peer that answers with the handshake of another torrent is taken for a peer of this one. -/
theorem other_torrent_accepted :
    peerConnectionFromPeerMeta (handshake (List.replicate 20 7) "FS0001aaaaaaaaaaaaaa") =
        some "FS0001aaaaaaaaaaaaaa" ∧
      ¬ AcceptsOurs (List.replicate 20 9)
        (handshake (List.replicate 20 7) "FS0001aaaaaaaaaaaaaa") := by
  have hconnected : peerConnectionFromPeerMeta
      (handshake (List.replicate 20 7) "FS0001aaaaaaaaaaaaaa") = some "FS0001aaaaaaaaaaaaaa" := by
    decide +kernel
  refine ⟨hconnected, ?_⟩
  rintro ⟨-, haccepts⟩
  obtain ⟨peerId, hhandshake, -⟩ := haccepts _ hconnected
  have hhash := (hhandshake.namesTorrent (by decide)).2
  revert hhash
  decide +kernel

end Fissure.Analysis
