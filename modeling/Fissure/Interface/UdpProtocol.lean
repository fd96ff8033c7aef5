import Fissure.Model.Tracker

/-!
# What the client takes for granted of a UDP tracker

The tracker is no part of the repository. This is what the datagrams of its protocol say: where the
fields of an announce are, how the answers are laid out, and that a tracker answers a request under
its transaction id and according to its action (`FollowsProtocol`). Whether it answers at all, how
often and with what is left open; that it can answer is a separate assumption (`CanAnswer`).
-/

set_option autoImplicit false

namespace Fissure.Interface

open Fissure.Model

/-! ## Requests -/

/-- `bytes[start..start + 8]` as a number. -/
def readU64At (buf : Bytes) (start : ℕ) : ℕ := fromBeBytes ((buf.drop start).take 8)

/-- The action of a request: zero to connect, one to announce. -/
def actionOf (request : Bytes) : ℕ := readU32 request 8

/-- The transaction id of a request. -/
def transactionOf (request : Bytes) : ℕ := readU32 request 12

/-- What an announce says. -/
structure AnnounceSeen where
  cId : ℕ
  tId : ℕ
  infoHash : Bytes
  peerId : Bytes
  downloaded : ℕ
  left : ℕ
  uploaded : ℕ
  port : ℕ
  deriving DecidableEq

/-- The fields of an announce. -/
def announceSeen (request : Bytes) : AnnounceSeen where
  cId := readU64At request 0
  tId := transactionOf request
  infoHash := (request.drop 16).take 20
  peerId := (request.drop 36).take 20
  downloaded := readU64At request 56
  left := readU64At request 64
  uploaded := readU64At request 72
  port := fromBeBytes ((request.drop 96).take 2)

/-! ## Answers -/

/-- What a tracker says in answer to an announce. -/
structure AnnounceAnswer where
  interval : UInt32
  leechers : UInt32
  seeders : UInt32
  peerBytes : Bytes
  deriving DecidableEq

/-- The datagram that connects. -/
def connectReply (tId : ℕ) (cId : UInt64) : Bytes := putU32 0 ++ (putU32 tId ++ putU64 cId.toNat)

/-- The datagram that answers an announce. -/
def announceReply (tId : ℕ) (answer : AnnounceAnswer) : Bytes :=
  putU32 1 ++ (putU32 tId ++ (putU32 answer.interval.toNat ++ (putU32 answer.leechers.toNat ++
    putU32 answer.seeders.toNat))) ++ answer.peerBytes

/-- The datagram that says what is wrong. -/
def errorReply (tId : ℕ) (text : String) : Bytes := putU32 3 ++ (putU32 tId ++ utf8 text)

/-- The datagrams that answer a request. -/
inductive AnswersTo (request : Bytes) : Bytes → Prop
  | connects (cId : UInt64) (haction : actionOf request = 0) :
    AnswersTo request (connectReply (transactionOf request) cId)
  | announces (answer : AnnounceAnswer) (haction : actionOf request = 1) :
    AnswersTo request (announceReply (transactionOf request) answer)
  | refuses (text : String) : AnswersTo request (errorReply (transactionOf request) text)

section

variable {τ κ : Type} (serve : κ → τ → Bytes → τ × List Bytes)

/-- The tracker sends nothing but answers to the request at hand. -/
structure FollowsProtocol : Prop where
  answers : ∀ choice tracker request, ∀ reply ∈ (serve choice tracker request).2,
    AnswersTo request reply

/-- The tracker can give out a connection id whenever it is asked for one, and can give the answer
to an announce under a connection id that it takes. -/
structure CanAnswer (takes : τ → UInt64 → Prop) (answer : AnnounceAnswer) : Prop where
  connects : ∀ tracker request, request.length = 16 → readU64At request 0 = 0x41727101980 →
    actionOf request = 0 → ∃ choice cId,
      connectReply (transactionOf request) cId ∈ (serve choice tracker request).2 ∧
        takes (serve choice tracker request).1 cId
  announces : ∀ tracker request cId, takes tracker cId → request.length = 98 →
    readU64At request 0 = cId.toNat → actionOf request = 1 → ∃ choice,
      announceReply (transactionOf request) answer ∈ (serve choice tracker request).2

end

end Fissure.Interface
