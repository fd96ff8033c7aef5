import Fissure.Analysis.WireFormat
import Fissure.Library.Layout
import Fissure.Model.PeerHandshake
import Fissure.Model.Tracker

/-!
# The layout of the outgoing packets

The handshake and the packets for a UDP tracker are made by appending their fields. All of these
have a fixed width but the peer id, which has the version from the settings in it. So the handshake
and the announce have the layout of the protocols exactly when the version has four bytes
(`fixed_layout_iff`).
-/

set_option autoImplicit false

namespace Fissure.Analysis

open Fissure.Library Fissure.Model

/-! ## The peer id -/

@[simp] theorem length_utf8 (s : String) : (utf8 s).length = s.utf8ByteSize := by
  rw [utf8, Array.length_toList, String.toUTF8_eq_toByteArray]
  exact String.size_toByteArray

/-- INTERNAL: a letter or a digit of `Alphanumeric` is one byte. -/
theorem utf8Size_of_isAlphanum {c : Char} (h : c.isAlphanum = true) : c.utf8Size = 1 := by
  change (decide (c.val ≥ 'A'.val ∧ c.val ≤ 'Z'.val) || (c.val ≥ 'a'.val && c.val ≤ 'z'.val) ||
    (c.val ≥ '0'.val && c.val ≤ '9'.val)) = true at h
  simp only [Bool.or_eq_true, Bool.and_eq_true, decide_eq_true_eq, ge_iff_le,
    UInt32.le_iff_toNat_le] at h
  rw [Char.utf8Size_eq_one_iff, UInt32.le_iff_toNat_le]
  change c.val.toNat ≤ 127
  change ((65 ≤ c.val.toNat ∧ c.val.toNat ≤ 90) ∨ (97 ≤ c.val.toNat ∧ c.val.toNat ≤ 122)) ∨
    (48 ≤ c.val.toNat ∧ c.val.toNat ≤ 57) at h
  omega

theorem utf8ByteSize_alphanumeric {cs : List Char} (h : ∀ c ∈ cs, c.isAlphanum = true) :
    (String.ofList cs).utf8ByteSize = cs.length := by
  induction cs with
  | nil => simp
  | cons c cs ih =>
    rw [List.forall_mem_cons] at h
    have hcons : String.ofList (c :: cs) = String.singleton c ++ String.ofList cs := by
      rw [String.singleton_eq_ofList, ← String.ofList_append, List.singleton_append]
    rw [hcons, String.utf8ByteSize_append, String.utf8ByteSize_singleton,
      utf8Size_of_isAlphanum h.1, ih h.2, List.length_cons, Nat.add_comm]

/-- INTERNAL: the peer id has sixteen bytes besides the version.
SOURCE: helper.rs:10-20 -/
theorem length_generatePeerId (clientEnv : FissureClientOptions) (randString : RandString) :
    (utf8 (generatePeerId clientEnv randString)).length = (utf8 clientEnv.version).length + 16 := by
  have hrandom := utf8ByteSize_alphanumeric randString.alphanumeric
  have hprefix : "FS".utf8ByteSize = 2 := by decide
  rw [randString.length_eq] at hrandom
  simp only [generatePeerId, length_utf8, String.utf8ByteSize_append]
  omega

/-! ## The packets -/

@[simp] theorem length_putU64 (n : ℕ) : (putU64 n).length = 8 := rfl

@[simp] theorem length_putU16 (n : ℕ) : (putU16 n).length = 2 := rfl

/-- The fields of the handshake: offset, width and bytes. -/
def handshakeTable (infoHash peerId : Bytes) : List (ℕ × ℕ × Bytes) :=
  [(0, 1, [19]), (1, 19, utf8 "BitTorrent protocol"), (20, 8, List.replicate 8 0),
    (28, 20, infoHash), (48, 20, peerId)]

/-- The fields of the first packet to a UDP tracker. -/
def connectTable (tId : UInt32) : List (ℕ × ℕ × Bytes) :=
  [(0, 8, putU64 0x41727101980), (8, 4, putU32 0), (12, 4, putU32 tId.toNat)]

/-- What an announce over UDP carries. -/
structure Announce where
  cId : UInt64
  tId : UInt32
  key : UInt32
  infoHash : Bytes
  peerId : String
  port : ℕ
  stats : TorrentStats

/-- The fields of the announce, where `asBytes` makes bytes of megabytes. -/
def announceTableBy (asBytes : ℚ → ℕ) (a : Announce) : List (ℕ × ℕ × Bytes) :=
  [(0, 8, putU64 a.cId.toNat), (8, 4, putU32 1), (12, 4, putU32 a.tId.toNat), (16, 20, a.infoHash),
    (36, 20, utf8 a.peerId), (56, 8, putU64 (asBytes a.stats.downloaded)),
    (64, 8, putU64 (asBytes a.stats.left)), (72, 8, putU64 (asBytes a.stats.uploaded)),
    (80, 4, putU32 2), (84, 4, putU32 0), (88, 4, putU32 a.key.toNat),
    (92, 4, putU32 (2 ^ 32 - 1)), (96, 2, putU16 a.port)]

/-- The fields of the announce. -/
def announceTable (a : Announce) : List (ℕ × ℕ × Bytes) := announceTableBy inBytes a

theorem length_pstr : (utf8 "BitTorrent protocol").length = 19 := by decide +kernel

/-- INTERNAL: the fields of the handshake are appended.
SOURCE: peer_handshake.rs:62-67 -/
theorem handshake_eq (infoHash : Bytes) (peerId : String) :
    handshake infoHash peerId = appended (handshakeTable infoHash (utf8 peerId)) := by
  simp [handshake, handshakeTable, appended]

/-- INTERNAL: the fields of the announce are appended.
SOURCE: tracker.rs:106-125 -/
theorem secondRequestBuf_eq {ourPort : String} (asBytes : ℚ → ℕ) (a : Announce)
    (hport : parseU16 ourPort = some a.port) :
    secondRequestBuf asBytes a.cId a.tId a.key a.infoHash a.peerId ourPort a.stats =
      some (appended (announceTableBy asBytes a)) := by
  simp [secondRequestBuf, announceTableBy, appended, hport]

/-- INTERNAL: the fields of the announce are in place.
SOURCE: tracker.rs:106-125 -/
theorem announce_layout (asBytes : ℚ → ℕ) {a : Announce} (hhash : a.infoHash.length = 20)
    (hid : (utf8 a.peerId).length = 20) :
    HasFields 98 (announceTableBy asBytes a) (appended (announceTableBy asBytes a)) := by
  apply Consecutive.hasFields
  simp only [Consecutive, announceTableBy, hhash, hid]
  simp

/-- INTERNAL: the first packet to a UDP tracker has sixteen bytes, with its fields in place.
SOURCE: tracker.rs:74-80 -/
theorem connect_layout (tId : UInt32) : HasFields 16 (connectTable tId) (connectRequest tId) := by
  have hpacket : connectRequest tId = appended (connectTable tId) := by
    simp [connectRequest, connectTable, appended]
  rw [hpacket]
  apply Consecutive.hasFields
  simp [Consecutive, connectTable]

/-- INTERNAL: a number that was written as a `u32` is read back at its place. -/
theorem readU32_putU32 {before more : Bytes} {start : ℕ} (h : before.length = start) (n : UInt32) :
    readU32 (before ++ (putU32 n.toNat ++ more)) start = n.toNat := by
  unfold readU32
  rw [List.drop_left' h, List.take_left' (length_putU32 _), fromBeBytes_putU32 n.toNat_lt]

theorem fromBeBytes_putU64 {n : ℕ} (h : n < 2 ^ 64) : fromBeBytes (putU64 n) = n := by
  have hhigh := fromBeBytes_putU32 (n := n / 2 ^ 32) (by omega)
  have hlow : fromBeBytes (putU32 n) = n % 2 ^ 32 := by
    simp only [fromBeBytes, putU32, List.foldl_cons, List.foldl_nil, UInt8.toNat_ofNat']
    omega
  have happend (xs : Bytes) (m : ℕ) :
      (putU32 m).foldl (fun n b => n * 256 + b.toNat) (fromBeBytes xs) =
        fromBeBytes xs * 2 ^ 32 + fromBeBytes (putU32 m) := by
    simp only [fromBeBytes, putU32, List.foldl_cons, List.foldl_nil]
    omega
  change (putU64 n).foldl (fun n b => n * 256 + b.toNat) 0 = n
  rw [putU64, List.foldl_append]
  change (putU32 n).foldl (fun n b => n * 256 + b.toNat) (fromBeBytes (putU32 (n / 2 ^ 32))) = n
  rw [happend, hhigh, hlow]
  omega

/-- INTERNAL: the connection id that goes into the announce is the one that the tracker has
answered with.
SOURCE: tracker.rs:83-102 -/
theorem connectionId_reply (tId : UInt32) (cId : UInt64) :
    connectionId tId (.datagram (putU32 0 ++ (putU32 tId.toNat ++ putU64 cId.toNat))) =
      .ok cId.toNat := by
  have hbuffer : (recvInto 16 (putU32 0 ++ (putU32 tId.toNat ++ putU64 cId.toNat))).1 =
      putU32 0 ++ (putU32 tId.toNat ++ putU64 cId.toNat) := by
    simp [recvInto]
  have haction (more : Bytes) : readU32 (putU32 0 ++ more) 0 = 0 :=
    readU32_putU32 List.length_nil 0
  have htId (more : Bytes) : readU32 (putU32 0 ++ (putU32 tId.toNat ++ more)) 4 = tId.toNat :=
    readU32_putU32 (length_putU32 0) tId
  have hcId : ((putU32 0 ++ (putU32 tId.toNat ++ putU64 cId.toNat)).drop 8).take 8 =
      putU64 cId.toNat := by
    rw [← List.append_assoc, List.drop_left' (by simp), List.take_of_length_le (by simp)]
  simp only [connectionId, hbuffer, haction, htId, hcId, fromBeBytes_putU64 cId.toNat_lt]
  simp

/-- The client sends a handshake of 68 bytes and an announce of 98 bytes, with every field where the
protocols have it. -/
def FixedLayout (ourPort : String) (a : Announce) : Prop :=
  HasFields 68 (handshakeTable a.infoHash (utf8 a.peerId)) (handshake a.infoHash a.peerId) ∧
    ∃ request, announceRequest a.cId a.tId a.key a.infoHash a.peerId ourPort a.stats =
      some request ∧ HasFields 98 (announceTable a) request

/-- **When the outgoing packets have their layout.** For every settings with a port that a `u16` can
hold and every torrent and progress, the handshake has 68 bytes and the announce over UDP 98, with
every field in its place, exactly when the version in the settings has four bytes.
SOURCE: helper.rs:10-20, peer_handshake.rs:62-67, tracker.rs:104-127, client_manager.rs:52-70 -/
theorem fixed_layout_iff (clientEnv : FissureClientOptions) (randString : RandString) (a : Announce)
    (hid : a.peerId = generatePeerId clientEnv randString) (hhash : a.infoHash.length = 20)
    (hport : parseU16 clientEnv.port = some a.port) :
    FixedLayout clientEnv.port a ↔ (utf8 clientEnv.version).length = 4 := by
  have hlength := length_generatePeerId clientEnv randString
  rw [← hid] at hlength
  constructor
  · rintro ⟨⟨htotal, -⟩, -⟩
    rw [handshake_eq] at htotal
    simp only [appended, handshakeTable, List.flatMap_cons, List.flatMap_nil, List.length_append,
      List.length_replicate, List.length_singleton, List.length_nil, hhash, length_pstr] at htotal
    omega
  · intro hversion
    have hpeerId : (utf8 a.peerId).length = 20 := by omega
    refine ⟨?_, _, secondRequestBuf_eq inBytes a hport, announce_layout inBytes hhash hpeerId⟩
    rw [handshake_eq]
    apply Consecutive.hasFields
    simp only [Consecutive, handshakeTable, length_pstr, hhash, hpeerId]
    simp

/-- Fourteen times the same letter. -/
def sameLetters : RandString where
  chars := List.replicate 14 'a'
  length_eq := List.length_replicate
  alphanumeric := by
    intro c hc
    rw [List.eq_of_mem_replicate hc]
    decide

/-- The announce of a client with a version and the port 6001. -/
def announceOf (version : String) : Announce where
  cId := 1
  tId := 2
  key := 3
  infoHash := List.replicate 20 9
  peerId := generatePeerId { version := version } sameLetters
  port := 6001
  stats := ⟨0, 0, 1⟩

/-- The version of the default settings has four bytes. -/
theorem fixed_layout_default :
    FixedLayout "6001" (announceOf "0001") ↔ (utf8 "0001").length = 4 :=
  fixed_layout_iff {} sameLetters (announceOf "0001") rfl (by decide) (by decide +kernel)

/-- With a version of three bytes the handshake is a byte too short. -/
theorem short_version_shifts :
    (handshake (List.replicate 20 9) (announceOf "1.0").peerId).length = 67 ∧
      ¬ FixedLayout "6001" (announceOf "1.0") := by
  have hlength : (handshake (List.replicate 20 9) (announceOf "1.0").peerId).length = 67 := by
    decide +kernel
  refine ⟨hlength, ?_⟩
  rintro ⟨hlayout, -⟩
  have htotal := hlayout.length_eq
  change (handshake (List.replicate 20 9) (announceOf "1.0").peerId).length = 68 at htotal
  omega

end Fissure.Analysis
