import Fissure.Analysis.CompactPeers
import Fissure.Analysis.TierRounds
import Fissure.Interface.UdpProtocol
import Fissure.Model.UdpExchange

/-!
# What a successful announce over UDP means

Datagrams get lost, are doubled and overtake each other, and some are strays. Still, when the call
succeeds, a tracker that follows the protocol has answered an announce of this torrent from this
client, with the progress that the manager has told, under a connection id that it had given out,
and the response is that answer (`udp_agreement`). As long as the client waits for an answer to what
it could send, the call can succeed with any answer that the tracker can give (`udp_can_succeed`).
-/

set_option autoImplicit false

namespace Fissure.Analysis

open Fissure.Library Fissure.Model Fissure.Interface

variable {τ κ : Type} {world : UdpWorld τ κ} {call : UdpCall} {strays : List Bytes}
  {told : TorrentStats → Prop} {out : Prop} {s t : UdpExchange τ}

/-! ## Reading datagrams -/

/-- The transaction id that a datagram answers. -/
def answeredId (datagram : Bytes) : ℕ := readU32 (recvInto 16 datagram).1 4

/-- INTERNAL: the first eight bytes do not depend on the size of the buffer. -/
theorem take_recvInto {size : ℕ} (hsize : 8 ≤ size) (datagram : Bytes) :
    (recvInto size datagram).1.take 8 = (datagram ++ List.replicate 8 0).take 8 := by
  simp only [recvInto, List.take_append, List.take_take, List.take_replicate, List.length_take]
  congr 2
  · omega
  · omega

theorem readU32_eq_take {buf : Bytes} {start : ℕ} (h : start + 4 ≤ 8) :
    readU32 buf start = readU32 (buf.take 8) start := by
  unfold readU32
  rw [List.drop_take, List.take_take, Nat.min_eq_left (by omega)]

/-- INTERNAL: both waits read the transaction id at the same place. -/
theorem readU32_recvInto (datagram : Bytes) {start : ℕ} (h : start + 4 ≤ 8) :
    readU32 (recvInto 1024 datagram).1 start = readU32 (recvInto 16 datagram).1 start := by
  have hsmall : (recvInto 16 datagram).1.take 8 = _ := take_recvInto (by decide) datagram
  rw [readU32_eq_take h, take_recvInto (by decide), ← hsmall, ← readU32_eq_take h]

/-- INTERNAL: a number among the first eight bytes of a datagram is read as it was written. -/
theorem readU32_recvInto_append {before : Bytes} {start : ℕ} (hstart : before.length = start)
    (hle : start + 4 ≤ 8) (n : UInt32) (more : Bytes) :
    readU32 (recvInto 16 (before ++ (putU32 n.toNat ++ more))).1 start = n.toNat := by
  rw [readU32_eq_take hle, take_recvInto (by decide), ← readU32_eq_take hle, List.append_assoc,
    List.append_assoc]
  exact readU32_putU32 hstart n

/-- INTERNAL: a connection id is taken from a datagram that says so under the transaction id.
SOURCE: tracker.rs:83-102 -/
theorem connectionId_eq_ok {tId : UInt32} {datagram : Bytes} {cId : ℕ}
    (h : connectionId tId (.datagram datagram) = .ok cId) :
    readU32 (recvInto 16 datagram).1 0 = 0 ∧ answeredId datagram = tId.toNat ∧
      cId = readU64At (recvInto 16 datagram).1 8 := by
  unfold connectionId at h
  dsimp only at h
  split_ifs at h with hwrong
  rw [not_or, not_not, not_not] at hwrong
  cases h
  exact ⟨hwrong.1, hwrong.2, rfl⟩

/-- INTERNAL: a response is taken from a datagram that says so under the transaction id.
SOURCE: tracker.rs:128-144 -/
theorem announceResponse_eq_ok {tId : UInt32} {datagram : Bytes} {response : TrackerResponse}
    (h : announceResponse tId (.datagram datagram) = some (.ok response)) :
    readU32 (recvInto 16 datagram).1 0 = 1 ∧ answeredId datagram = tId.toNat := by
  unfold announceResponse at h
  dsimp only at h
  split_ifs at h with hshort hwrong
  · cases h
  · cases h
  · rw [not_or, not_not, not_not, readU32_recvInto _ (by decide), readU32_recvInto _ (by decide)]
      at hwrong
    exact hwrong

/-- INTERNAL: the second wait ends with a result.
SOURCE: tracker.rs:128-153, tracker.rs:257-290 -/
theorem announceResponse_isSome (tId : UInt32) (reply : UdpReply) :
    ∃ result, announceResponse tId reply = some result := by
  cases reply with
  | datagram bytes =>
    unfold announceResponse
    dsimp only
    split_ifs with hshort hwrong
    · exact ⟨_, rfl⟩
    · exact ⟨_, rfl⟩
    · have hlength : 20 ≤ ((recvInto 1024 bytes).1.take (recvInto 1024 bytes).2).length := by
        simp only [recvInto, List.length_take, List.length_append, List.length_replicate]
        change ¬ min bytes.length 1024 < 20 at hshort
        omega
      rw [fromUdpBytes_eq hlength]
      exact ⟨_, rfl⟩
  | failed err => exact ⟨_, rfl⟩
  | timeout => exact ⟨_, rfl⟩

/-! ## The datagrams of the client -/

theorem fromBeBytes_putU16 {n : ℕ} (h : n < 2 ^ 16) : fromBeBytes (putU16 n) = n := by
  simp only [fromBeBytes, putU16, List.foldl_cons, List.foldl_nil, UInt8.toNat_ofNat']
  omega

theorem lt_of_parseU16 {text : String} {n : ℕ} (h : parseU16 text = some n) : n < 2 ^ 16 := by
  unfold parseU16 at h
  dsimp only at h
  split_ifs at h with hdigits hlt
  cases h
  exact hlt

/-- The datagram of an announce. -/
def announceOfClient (world : UdpWorld τ κ) (a : Announce) : Bytes :=
  appended (announceTableBy world.asBytes a)

/-- What a tracker reads in it. -/
def seenOf (world : UdpWorld τ κ) (a : Announce) : AnnounceSeen where
  cId := a.cId.toNat
  tId := a.tId.toNat
  infoHash := a.infoHash
  peerId := utf8 a.peerId
  downloaded := world.asBytes a.stats.downloaded
  left := world.asBytes a.stats.left
  uploaded := world.asBytes a.stats.uploaded
  port := a.port

section

variable {a : Announce} (hhash : a.infoHash.length = 20) (hid : (utf8 a.peerId).length = 20)

include hhash hid

theorem announceSeen_announceOfClient (hport : a.port < 2 ^ 16) :
    announceSeen (announceOfClient world a) = seenOf world a := by
  have hfield {offset width : ℕ} {field : Bytes}
      (hmem : (offset, width, field) ∈ announceTableBy world.asBytes a) :
      ((announceOfClient world a).drop offset).take width = field :=
    (announce_layout world.asBytes hhash hid).fields _ hmem
  have hu64 {offset n : ℕ} (hn : n < 2 ^ 64)
      (hmem : (offset, 8, putU64 n) ∈ announceTableBy world.asBytes a) :
      readU64At (announceOfClient world a) offset = n := by
    rw [readU64At, hfield hmem, fromBeBytes_putU64 hn]
  unfold announceSeen seenOf
  congr 1
  · exact hu64 a.cId.toNat_lt (by simp [announceTableBy])
  · have hmem : (12, 4, putU32 a.tId.toNat) ∈ announceTableBy world.asBytes a := by
      simp [announceTableBy]
    rw [transactionOf, readU32, hfield hmem, fromBeBytes_putU32 a.tId.toNat_lt]
  · exact hfield (by simp [announceTableBy])
  · exact hfield (by simp [announceTableBy])
  · exact hu64 (world.asBytes_lt _) (by simp [announceTableBy])
  · exact hu64 (world.asBytes_lt _) (by simp [announceTableBy])
  · exact hu64 (world.asBytes_lt _) (by simp [announceTableBy])
  · have hmem : (96, 2, putU16 a.port) ∈ announceTableBy world.asBytes a := by
      simp [announceTableBy]
    rw [hfield hmem, fromBeBytes_putU16 hport]

theorem actionOf_announceOfClient : actionOf (announceOfClient world a) = 1 := by
  have hfield := (announce_layout world.asBytes hhash hid).fields (8, 4, putU32 1)
    (by simp [announceTableBy])
  rw [actionOf, readU32, announceOfClient, hfield, fromBeBytes_putU32 (by decide)]

end

theorem connect_fields (tId : UInt32) :
    (connectRequest tId).length = 16 ∧ readU64At (connectRequest tId) 0 = 0x41727101980 ∧
      actionOf (connectRequest tId) = 0 ∧ transactionOf (connectRequest tId) = tId.toNat := by
  obtain ⟨hlength, hfields⟩ := connect_layout tId
  refine ⟨hlength, ?_, ?_, ?_⟩
  · rw [readU64At, hfields (0, 8, putU64 0x41727101980) (by simp [connectTable]),
      fromBeBytes_putU64 (by decide)]
  · rw [actionOf, readU32, hfields (8, 4, putU32 0) (by simp [connectTable]),
      fromBeBytes_putU32 (by decide)]
  · rw [transactionOf, readU32, hfields (12, 4, putU32 tId.toNat) (by simp [connectTable]),
      fromBeBytes_putU32 tId.toNat_lt]

/-! ## The datagrams of the tracker -/

/-- What the client makes of an answer to its announce. -/
def responseOf (answer : AnnounceAnswer) : TrackerResponse where
  interval := some answer.interval.toNat
  peers := some ((((chunksExact 6 answer.peerBytes).take 167).filter ValidEntry).map entryPeer)

theorem cId_connectReply (tId : ℕ) (cId : UInt64) :
    readU64At (connectReply tId cId) 8 = cId.toNat := by
  rw [readU64At, connectReply, ← List.append_assoc, List.drop_left' (by simp),
    List.take_of_length_le (by simp [putU64]), fromBeBytes_putU64 cId.toNat_lt]

theorem action_connectReply (tId : ℕ) (cId : UInt64) :
    readU32 (recvInto 16 (connectReply tId cId)).1 0 = 0 :=
  readU32_recvInto_append List.length_nil (by decide) 0 _

theorem action_announceReply (tId : ℕ) (answer : AnnounceAnswer) :
    readU32 (recvInto 16 (announceReply tId answer)).1 0 = 1 := by
  rw [announceReply, List.append_assoc]
  exact readU32_recvInto_append List.length_nil (by decide) 1 _

theorem action_errorReply (tId : ℕ) (text : String) :
    readU32 (recvInto 16 (errorReply tId text)).1 0 = 3 :=
  readU32_recvInto_append List.length_nil (by decide) 3 _

/-- INTERNAL: an answer whose action is zero connects. -/
theorem connects_of_action {request reply : Bytes} (h : AnswersTo request reply)
    (haction : readU32 (recvInto 16 reply).1 0 = 0) :
    ∃ cId, reply = connectReply (transactionOf request) cId ∧
      readU64At (recvInto 16 reply).1 8 = cId.toNat := by
  cases h with
  | connects cId =>
    refine ⟨cId, rfl, ?_⟩
    have hbuffer : (recvInto 16 (connectReply (transactionOf request) cId)).1 =
        connectReply (transactionOf request) cId := by
      simp [recvInto, connectReply, putU64]
    rw [hbuffer, cId_connectReply]
  | announces answer =>
    rw [action_announceReply] at haction
    cases haction
  | refuses text =>
    rw [action_errorReply] at haction
    cases haction

/-- INTERNAL: an answer whose action is one answers an announce. -/
theorem announces_of_action {request reply : Bytes} (h : AnswersTo request reply)
    (haction : readU32 (recvInto 16 reply).1 0 = 1) :
    actionOf request = 1 ∧ ∃ answer, reply = announceReply (transactionOf request) answer := by
  cases h with
  | connects cId =>
    rw [action_connectReply] at haction
    cases haction
  | announces answer hone => exact ⟨hone, answer, rfl⟩
  | refuses text =>
    rw [action_errorReply] at haction
    cases haction

/-! ## The invariant -/

/-- The announce is one of this call: of its torrent, from this client, with progress that the
manager has told. -/
structure Ours (call : UdpCall) (told : TorrentStats → Prop) (a : Announce) : Prop where
  infoHash_eq : a.infoHash = call.infoHash
  peerId_eq : a.peerId = call.ourPeerId
  port_eq : parseU16 call.ourPort = some a.port
  told : told a.stats

/-- The tracker has given out the connection id. -/
def Issued (s : UdpExchange τ) (cId : UInt64) : Prop :=
  ∃ request, (request, connectReply (transactionOf request) cId) ∈ s.answered

/-- The manager answers, and the random numbers are not those of the strays. -/
def Drawn (strays : List Bytes) (told : TorrentStats → Prop) : UdpEvent κ → Prop
  | .begin _ _ tId => ∀ d ∈ strays, answeredId d ≠ tId.toNat
  | .receive _ next =>
    (∃ stats, next.stats = some stats ∧ told stats) ∧ ∀ d ∈ strays, answeredId d ≠ next.tId.toNat
  | _ => True

/-- What the client sends in the step gets out. -/
def GetsOut : UdpEvent κ → Prop
  | .begin connects sends _ => connects = true ∧ sends = true
  | .receive _ next => next.sends = true
  | _ => True

/-- What a datagram of the client is. -/
def FromClient (world : UdpWorld τ κ) (call : UdpCall) (told : TorrentStats → Prop)
    (s : UdpExchange τ) (d : Bytes) : Prop :=
  (∃ tId, d = connectRequest tId) ∨
    ∃ a, Ours call told a ∧ Issued s a.cId ∧ d = announceOfClient world a

/-- Where the call stands, and, if everything gets `out`, what has been sent for it. -/
def Standing (world : UdpWorld τ κ) (call : UdpCall) (told : TorrentStats → Prop) (out : Prop)
    (s : UdpExchange τ) : UdpTask → Prop
  | .unsent => True
  | .connecting tId =>
    (∀ d ∈ s.strays, answeredId d ≠ tId.toNat) ∧
      (out → s.connected = true ∧ connectRequest tId ∈ s.toTracker)
  | .announcing tId =>
    (∀ d ∈ s.strays, answeredId d ≠ tId.toNat) ∧
      ∃ a, Ours call told a ∧ a.tId = tId ∧ Issued s a.cId ∧
        (out → announceOfClient world a ∈ s.toTracker)
  | .returned (.ok response) =>
    ∃ request ∈ s.toTracker, ∃ answer, actionOf request = 1 ∧
      (request, announceReply (transactionOf request) answer) ∈ s.answered ∧
      response = responseOf answer
  | .returned (.error _) => True
  | .panicked => False

/-- The invariant of the exchange. -/
structure ExchangeInv (world : UdpWorld τ κ) (call : UdpCall) (strays : List Bytes)
    (told : TorrentStats → Prop) (out : Prop) (s : UdpExchange τ) : Prop where
  strays_eq : s.strays = strays
  requests : ∀ d ∈ s.toTracker, FromClient world call told s d
  answers : ∀ request reply, (request, reply) ∈ s.answered →
    request ∈ s.toTracker ∧ AnswersTo request reply
  standing : Standing world call told out s s.task

theorem Issued.mono {cId : UInt64} (h : Issued s cId) (hanswered : s.answered ⊆ t.answered) :
    Issued t cId := by
  obtain ⟨request, hmem⟩ := h
  exact ⟨request, hanswered hmem⟩

theorem FromClient.mono {d : Bytes} (h : FromClient world call told s d)
    (hanswered : s.answered ⊆ t.answered) : FromClient world call told t d := by
  refine h.imp_right ?_
  rintro ⟨a, hours, hissued, rfl⟩
  exact ⟨a, hours, hissued.mono hanswered, rfl⟩

theorem Standing.mono {task : UdpTask} (h : Standing world call told out s task)
    (hstrays : t.strays = s.strays) (hconnected : t.connected = s.connected)
    (hrequests : s.toTracker ⊆ t.toTracker) (hanswered : s.answered ⊆ t.answered) :
    Standing world call told out t task := by
  cases task with
  | unsent => trivial
  | connecting tId =>
    unfold Standing
    rw [hstrays, hconnected]
    exact ⟨h.1, fun hout => ⟨(h.2 hout).1, hrequests (h.2 hout).2⟩⟩
  | announcing tId =>
    obtain ⟨hfresh, a, hours, htId, hissued, hmem⟩ := h
    unfold Standing
    rw [hstrays]
    exact ⟨hfresh, a, hours, htId, hissued.mono hanswered, fun hout => hrequests (hmem hout)⟩
  | returned result =>
    cases result with
    | ok response =>
      obtain ⟨request, hmem, answer, haction, hentry, hresponse⟩ := h
      exact ⟨request, hrequests hmem, answer, haction, hanswered hentry, hresponse⟩
    | error err => trivial
  | panicked => exact h

/-- INTERNAL: an announce is one of the call, and is read as it was written. -/
theorem FromClient.announce {d : Bytes} (hhash : call.infoHash.length = 20)
    (hid : (utf8 call.ourPeerId).length = 20) (h : FromClient world call told s d)
    (haction : actionOf d = 1) :
    ∃ a, Ours call told a ∧ Issued s a.cId ∧ announceSeen d = seenOf world a := by
  rcases h with ⟨tId, rfl⟩ | ⟨a, hours, hissued, rfl⟩
  · rw [(connect_fields tId).2.2.1] at haction
    cases haction
  · exact ⟨a, hours, hissued, announceSeen_announceOfClient (by rw [hours.infoHash_eq, hhash])
      (by rw [hours.peerId_eq, hid]) (lt_of_parseU16 hours.port_eq)⟩

theorem mem_toClient {d : Bytes} :
    d ∈ s.toClient ↔ d ∈ s.strays ∨ ∃ request, (request, d) ∈ s.answered := by
  simp [UdpExchange.toClient]

/-! ## Steps -/

@[simp] theorem strays_send (sends : Bool) (datagrams : List Bytes) :
    (s.send sends datagrams).strays = s.strays := by
  unfold UdpExchange.send
  split_ifs <;> rfl

@[simp] theorem answered_send (sends : Bool) (datagrams : List Bytes) :
    (s.send sends datagrams).answered = s.answered := by
  unfold UdpExchange.send
  split_ifs <;> rfl

@[simp] theorem tracker_send (sends : Bool) (datagrams : List Bytes) :
    (s.send sends datagrams).tracker = s.tracker := by
  unfold UdpExchange.send
  split_ifs <;> rfl

@[simp] theorem task_send (sends : Bool) (datagrams : List Bytes) :
    (s.send sends datagrams).task = s.task := by
  unfold UdpExchange.send
  split_ifs <;> rfl

@[simp] theorem connected_send (sends : Bool) (datagrams : List Bytes) :
    (s.send sends datagrams).connected = s.connected := by
  unfold UdpExchange.send
  split_ifs <;> rfl

theorem toTracker_send (sends : Bool) (datagrams : List Bytes) :
    (s.send sends datagrams).toTracker = s.toTracker ∨
      (s.send sends datagrams).toTracker = s.toTracker ++ datagrams := by
  unfold UdpExchange.send
  split_ifs
  · exact Or.inr rfl
  · exact Or.inl rfl

theorem mem_toTracker_send {sends : Bool} {datagrams : List Bytes} {d : Bytes}
    (h : d ∈ (s.send sends datagrams).toTracker) : d ∈ s.toTracker ∨ d ∈ datagrams := by
  rcases toTracker_send sends datagrams with heq | heq
  · rw [heq] at h
    exact Or.inl h
  · rw [heq] at h
    exact List.mem_append.mp h

theorem toTracker_subset_send {sends : Bool} {datagrams : List Bytes} :
    s.toTracker ⊆ (s.send sends datagrams).toTracker := by
  rcases toTracker_send sends datagrams with heq | heq
  · rw [heq]
    exact List.Subset.refl _
  · rw [heq]
    exact List.subset_append_left _ _

theorem mem_send {sends : Bool} {datagrams : List Bytes} {d : Bytes} (h : s.connected = true)
    (hsends : sends = true) (hd : d ∈ datagrams) : d ∈ (s.send sends datagrams).toTracker := by
  unfold UdpExchange.send
  rw [if_pos (by rw [h, hsends]; rfl)]
  exact List.mem_append_right _ hd

/-- INTERNAL: a step of the tracker. -/
theorem exchangeInv_serve {request : Bytes} {choice : κ} (hprotocol : FollowsProtocol world.serve)
    (h : ExchangeInv world call strays told out s) (hstep : s.serve world request choice = some t) :
    ExchangeInv world call strays told out t := by
  unfold UdpExchange.serve at hstep
  split_ifs at hstep with hmem
  cases hstep
  have hanswered : s.answered ⊆ s.answered ++
      (world.serve choice s.tracker request).2.map fun reply => (request, reply) :=
    List.subset_append_left _ _
  refine ⟨h.strays_eq, fun d hd => (h.requests d hd).mono hanswered, ?_,
    h.standing.mono rfl rfl (List.Subset.refl _) hanswered⟩
  intro request' reply hentry
  rcases List.mem_append.mp hentry with hold | hnew
  · exact h.answers request' reply hold
  · obtain ⟨reply, hreply, heq⟩ := List.mem_map.mp hnew
    cases heq
    exact ⟨hmem, hprotocol.answers choice s.tracker request reply hreply⟩

/-- INTERNAL: what is sent are datagrams of the client. -/
theorem ExchangeInv.send {u : UdpExchange τ} {sends : Bool} {datagrams : List Bytes}
    (h : ExchangeInv world call strays told out s) (hstrays : u.strays = s.strays)
    (hrequests : u.toTracker = s.toTracker) (hanswered : u.answered = s.answered)
    (hfrom : ∀ d ∈ datagrams, FromClient world call told s d)
    (hstanding : Standing world call told out (u.send sends datagrams) u.task) :
    ExchangeInv world call strays told out (u.send sends datagrams) := by
  refine ⟨by rw [strays_send, hstrays, h.strays_eq], ?_, ?_, by rwa [task_send]⟩
  · intro d hd
    apply FromClient.mono (s := s) ?_ (by rw [answered_send, hanswered]; exact List.Subset.refl _)
    rcases mem_toTracker_send hd with hold | hnew
    · exact h.requests d (hrequests ▸ hold)
    · exact hfrom d hnew
  · rw [answered_send, hanswered]
    intro request reply hentry
    obtain ⟨hmem, hanswers⟩ := h.answers request reply hentry
    exact ⟨toTracker_subset_send (hrequests ▸ hmem), hanswers⟩

/-- INTERNAL: the first request.
SOURCE: tracker.rs:70-85 -/
theorem exchangeInv_begin {connects sends : Bool} {tId : UInt32}
    (hhost : (extractTrackerHostPort world.parseUrl call.url).isSome = true)
    (hretry : call.retry ≤ 60) (h : ExchangeInv world call strays told out s)
    (hfresh : ∀ d ∈ strays, answeredId d ≠ tId.toNat) (hout : out → connects = true ∧ sends = true)
    (hstep : s.begin world call connects sends tId = some t) :
    ExchangeInv world call strays told out t := by
  unfold UdpExchange.begin at hstep
  split at hstep
  · rw [if_neg (by simp [Option.isSome_iff_ne_none.mp hhost]),
      if_pos (udpTimeout_isSome_iff.mpr hretry)] at hstep
    cases hstep
    refine h.send rfl rfl rfl ?_ ⟨?_, fun ho => ⟨?_, ?_⟩⟩
    · intro d hd
      exact Or.inl ⟨tId, List.mem_singleton.mp hd⟩
    · rwa [strays_send, h.strays_eq]
    · rw [connected_send]
      exact (hout ho).1
    · exact mem_send (hout ho).1 (hout ho).2 (List.mem_singleton_self _)
  · cases hstep

/-- INTERNAL: the first wait ends: the announce goes out under a connection id of the tracker.
SOURCE: tracker.rs:83-127 -/
theorem exchangeInv_connecting {tId : UInt32} {reply : UdpReply} {next : SecondRequest} {port : ℕ}
    (hport : parseU16 call.ourPort = some port) (h : ExchangeInv world call strays told out s)
    (htask : s.task = .connecting tId)
    (hreply : ∀ d, reply = .datagram d → d ∈ s.toClient ∧
      Drawn strays told (.receive d next : UdpEvent κ) ∧ (out → next.sends = true))
    (hreceive : s.receive world call reply next = some t) :
    ExchangeInv world call strays told out t := by
  have hstanding := h.standing
  rw [htask] at hstanding
  simp only [UdpExchange.receive, htask, UdpTask.receives] at hreceive
  cases hc : connectionId tId reply with
  | error err =>
    rw [hc] at hreceive
    cases hreceive
    exact h.send rfl rfl rfl (by simp) trivial
  | ok cId =>
    cases reply with
    | failed err => cases hc
    | timeout => cases hc
    | datagram d =>
      obtain ⟨haction, hid, rfl⟩ := connectionId_eq_ok hc
      obtain ⟨hmem, ⟨⟨stats, hstats, htold⟩, hfresh⟩, hsends⟩ := hreply d rfl
      rcases mem_toClient.mp hmem with hstray | ⟨request, hentry⟩
      · exact absurd hid (hstanding.1 d hstray)
      obtain ⟨c, rfl, hread⟩ := connects_of_action (h.answers _ _ hentry).2 haction
      let a : Announce := ⟨c, next.tId, next.key, call.infoHash, call.ourPeerId, port, stats⟩
      have hours : Ours call told a := ⟨rfl, rfl, hport, htold⟩
      have hissued : Issued s a.cId := ⟨request, hentry⟩
      have hrequest : secondRequestBuf world.asBytes c next.tId next.key call.infoHash
          call.ourPeerId call.ourPort stats = some (announceOfClient world a) :=
        secondRequestBuf_eq world.asBytes a hport
      simp only [hc, hread, UInt64.ofNat_toNat, hstats, Option.bind_some, hrequest,
        Option.bind_eq_bind, Option.some.injEq] at hreceive
      subst hreceive
      refine h.send rfl rfl rfl ?_ ⟨?_, a, hours, rfl, hissued.mono (by simp), fun ho => ?_⟩
      · intro d hd
        exact Or.inr ⟨a, hours, hissued, List.mem_singleton.mp hd⟩
      · rwa [strays_send, h.strays_eq]
      · exact mem_send (hstanding.2 ho).1 (hsends ho) (List.mem_singleton_self _)

/-- INTERNAL: the second wait ends: a response is the answer to an announce.
SOURCE: tracker.rs:128-153 -/
theorem exchangeInv_announcing {tId : UInt32} {reply : UdpReply} {next : SecondRequest}
    (hhash : call.infoHash.length = 20) (hid : (utf8 call.ourPeerId).length = 20)
    (h : ExchangeInv world call strays told out s) (htask : s.task = .announcing tId)
    (hreply : ∀ d, reply = .datagram d → d ∈ s.toClient)
    (hreceive : s.receive world call reply next = some t) :
    ExchangeInv world call strays told out t := by
  have hstanding := h.standing
  rw [htask] at hstanding
  obtain ⟨result, hresult⟩ := announceResponse_isSome tId reply
  simp only [UdpExchange.receive, htask, UdpTask.receives, hresult, Option.bind_eq_bind,
    Option.bind_some, Option.some.injEq] at hreceive
  subst hreceive
  refine h.send rfl rfl rfl (by simp) ?_
  cases result with
  | error err => trivial
  | ok response =>
    cases reply with
    | failed err => cases hresult
    | timeout => cases hresult
    | datagram d =>
      obtain ⟨haction, hanswered⟩ := announceResponse_eq_ok hresult
      rcases mem_toClient.mp (hreply d rfl) with hstray | ⟨request, hentry⟩
      · exact absurd hanswered (hstanding.1 d hstray)
      obtain ⟨hmem, hanswers⟩ := h.answers _ _ hentry
      obtain ⟨hone, answer, rfl⟩ := announces_of_action hanswers haction
      obtain ⟨a, -, -, hseen⟩ := (h.requests request hmem).announce hhash hid hone
      have htId : transactionOf request = a.tId.toNat := congrArg AnnounceSeen.tId hseen
      have hread : answeredId (announceReply (transactionOf request) answer) = a.tId.toNat := by
        rw [answeredId, htId, announceReply, List.append_assoc, List.append_assoc]
        exact readU32_recvInto_append (length_putU32 _) (by decide) a.tId _
      have heq : a.tId = tId := UInt32.toNat_inj.mp (hread.symm.trans hanswered)
      have hdecoded := announceResponse_reply tId answer.interval answer.leechers answer.seeders
        answer.peerBytes
      change announceResponse tId (.datagram (announceReply tId.toNat answer)) = _ at hdecoded
      rw [← heq, ← htId, heq, hresult] at hdecoded
      refine ⟨request, toTracker_subset_send hmem, answer, hone, by rwa [answered_send], ?_⟩
      cases hdecoded
      rfl

/-- INTERNAL: the end of a wait. Only a task that waits receives something. -/
theorem exchangeInv_receive {reply : UdpReply} {next : SecondRequest} {port : ℕ}
    (hhash : call.infoHash.length = 20) (hid : (utf8 call.ourPeerId).length = 20)
    (hport : parseU16 call.ourPort = some port) (h : ExchangeInv world call strays told out s)
    (hreply : ∀ d, reply = .datagram d → d ∈ s.toClient ∧
      Drawn strays told (.receive d next : UdpEvent κ) ∧ (out → next.sends = true))
    (hreceive : s.receive world call reply next = some t) :
    ExchangeInv world call strays told out t := by
  cases htask : s.task with
  | connecting tId => exact exchangeInv_connecting hport h htask hreply hreceive
  | announcing tId =>
    exact exchangeInv_announcing hhash hid h htask (fun d hd => (hreply d hd).1) hreceive
  | unsent | returned | panicked =>
    simp only [UdpExchange.receive, htask, UdpTask.receives] at hreceive
    cases hreceive

/-- INTERNAL: every step keeps the invariant. -/
theorem exchangeInv_step {port : ℕ} {e : UdpEvent κ} {r : Unit}
    (hprotocol : FollowsProtocol world.serve) (hhash : call.infoHash.length = 20)
    (hid : (utf8 call.ourPeerId).length = 20)
    (hhost : (extractTrackerHostPort world.parseUrl call.url).isSome = true)
    (hport : parseU16 call.ourPort = some port) (hretry : call.retry ≤ 60)
    (h : ExchangeInv world call strays told out s) (he : Drawn strays told e ∧ (out → GetsOut e))
    (hstep : udpStep world call s e = some (t, r)) :
    ExchangeInv world call strays told out t := by
  obtain ⟨u, hu, heq⟩ := Option.map_eq_some_iff.mp hstep
  cases heq
  cases e with
  | bindFails err =>
    change s.bindFails err = some t at hu
    unfold UdpExchange.bindFails at hu
    split at hu
    · cases hu
      exact ⟨h.strays_eq, fun d hd => (h.requests d hd).mono (List.Subset.refl _), h.answers,
        trivial⟩
    · cases hu
  | begin connects sends tId => exact exchangeInv_begin hhost hretry h he.1 he.2 hu
  | serve request choice => exact exchangeInv_serve hprotocol h hu
  | receive d next =>
    dsimp only at hu
    split_ifs at hu with hmem
    apply exchangeInv_receive hhash hid hport h ?_ hu
    intro d' hd'
    cases hd'
    exact ⟨hmem, he⟩
  | recvFails err => exact exchangeInv_receive hhash hid hport h (by rintro d ⟨⟩) hu
  | timesOut => exact exchangeInv_receive hhash hid hport h (by rintro d ⟨⟩) hu

theorem exchangeInv_new (world : UdpWorld τ κ) (call : UdpCall) (told : TorrentStats → Prop)
    (out : Prop) (tracker : τ) (strays : List Bytes) :
    ExchangeInv world call strays told out (UdpExchange.new tracker strays) :=
  ⟨rfl, by simp [UdpExchange.new], by simp [UdpExchange.new], trivial⟩

/-! ## Agreement -/

section

variable {tracker : τ} {port : ℕ} {es : List (UdpEvent κ)}

/-- **What a successful announce over UDP means.** Let the URL have a host, the port be a `u16`, the
own id have 20 bytes and at most 60 trackers have failed before; let the tracker follow the
protocol, the manager answer, and no stray have a transaction id of the call. However datagrams are
lost, doubled and reordered, and whatever fails to be sent: the call does not panic, every announce
that it sends is of its torrent and client, with progress that the manager has told and under a
connection id that the tracker has given out, and a response that it returns is the tracker's answer
to one.
SOURCE: tracker.rs:63-153, tracker.rs:257-290 -/
theorem udp_agreement (hprotocol : FollowsProtocol world.serve) (hhash : call.infoHash.length = 20)
    (hid : (utf8 call.ourPeerId).length = 20)
    (hhost : (extractTrackerHostPort world.parseUrl call.url).isSome = true)
    (hport : parseU16 call.ourPort = some port) (hretry : call.retry ≤ 60)
    (hdrawn : ∀ e ∈ es, Drawn strays told e)
    (hrun : run (udpStep world call) (UdpExchange.new tracker strays) es = some s) :
    s.task ≠ .panicked ∧
      (∀ request ∈ s.toTracker, actionOf request = 1 → ∃ a, Ours call told a ∧ Issued s a.cId ∧
        announceSeen request = seenOf world a) ∧
      ∀ response, s.task = .returned (.ok response) →
        ∃ request ∈ s.toTracker, ∃ answer, actionOf request = 1 ∧
          (request, announceReply (transactionOf request) answer) ∈ s.answered ∧
          response = responseOf answer := by
  have hinv := run_invariant_of_forall (ExchangeInv world call strays told False)
    (fun _ _ _ _ h he hstep => exchangeInv_step hprotocol hhash hid hhost hport hretry h he hstep)
    (exchangeInv_new world call told False tracker strays)
    (fun e he => ⟨hdrawn e he, False.elim⟩) hrun
  have hstanding := hinv.standing
  refine ⟨?_, ?_, ?_⟩
  · intro htask
    rw [htask] at hstanding
    exact hstanding
  · intro request hmem haction
    exact (hinv.requests request hmem).announce hhash hid haction
  · intro response htask
    rw [htask] at hstanding
    exact hstanding

/-- INTERNAL: a request that was sent can arrive at the tracker, and what it sends back at the
client. -/
theorem tracker_serves (world : UdpWorld τ κ) (call : UdpCall) {request : Bytes}
    (hmem : request ∈ s.toTracker) (choice : κ) :
    ∃ u, udpStep world call s (.serve request choice) = some (u, ()) ∧ u.task = s.task ∧
      u.connected = s.connected ∧ u.tracker = (world.serve choice s.tracker request).1 ∧
      ∀ reply ∈ (world.serve choice s.tracker request).2, reply ∈ u.toClient := by
  refine ⟨{ s with
    tracker := (world.serve choice s.tracker request).1
    answered := s.answered ++
      (world.serve choice s.tracker request).2.map fun reply => (request, reply) },
    ?_, rfl, rfl, rfl, ?_⟩
  · simp only [udpStep, UdpExchange.serve, if_pos hmem, Option.map_some]
  · intro reply hreply
    exact mem_toClient.mpr (Or.inr ⟨request, List.mem_append_right _ (List.mem_map_of_mem hreply)⟩)

/-- INTERNAL: the tracker answers an announce of the call, and the client takes its answer. -/
theorem announcing_succeeds {takes : τ → UInt64 → Prop} {answer : AnnounceAnswer} {a : Announce}
    (hcan : CanAnswer world.serve takes answer) (hhash : call.infoHash.length = 20)
    (hid : (utf8 call.ourPeerId).length = 20) (hours : Ours call told a)
    (htask : s.task = .announcing a.tId) (htakes : takes s.tracker a.cId)
    (hmem : announceOfClient world a ∈ s.toTracker) :
    ∃ es t, run (udpStep world call) s es = some t ∧
      t.task = .returned (.ok (responseOf answer)) := by
  have hhash' : a.infoHash.length = 20 := by rw [hours.infoHash_eq, hhash]
  have hid' : (utf8 a.peerId).length = 20 := by rw [hours.peerId_eq, hid]
  have hseen : announceSeen (announceOfClient world a) = seenOf world a :=
    announceSeen_announceOfClient hhash' hid' (lt_of_parseU16 hours.port_eq)
  have htId : transactionOf (announceOfClient world a) = a.tId.toNat :=
    congrArg AnnounceSeen.tId hseen
  obtain ⟨choice, hreply⟩ := hcan.announces s.tracker (announceOfClient world a) a.cId htakes
    (announce_layout world.asBytes hhash' hid').length_eq (congrArg AnnounceSeen.cId hseen)
    (actionOf_announceOfClient hhash' hid')
  rw [htId] at hreply
  have hdecoded : announceResponse a.tId (.datagram (announceReply a.tId.toNat answer)) =
      some (.ok (responseOf answer)) :=
    announceResponse_reply a.tId answer.interval answer.leechers answer.seeders answer.peerBytes
  obtain ⟨u, hu, htask', -, -, harrives⟩ := tracker_serves world call hmem choice
  rw [htask] at htask'
  have hreceive : udpStep world call u
      (.receive (announceReply a.tId.toNat answer) ⟨none, 0, 0, true⟩) =
        some ({ u with task := .returned (.ok (responseOf answer)) }.send true [], ()) := by
    simp only [udpStep, if_pos (harrives _ hreply), UdpExchange.receive, htask', UdpTask.receives,
      hdecoded, Option.bind_eq_bind, Option.bind_some, Option.map_some]
  exact ⟨_, _, (run_cons_some _ hu).trans (run_cons_some [] hreceive), task_send _ _⟩

/-- **As long as the client waits, the call can succeed.** After any run as above in which what the
client sent got out, if it waits for an answer and the tracker still takes the connection ids that
it gave out, then the steps that are still to come can be such that the call returns any answer that
the tracker can give.
SOURCE: tracker.rs:63-153, tracker.rs:257-290 -/
theorem udp_can_succeed {takes : τ → UInt64 → Prop} {answer : AnnounceAnswer}
    (hprotocol : FollowsProtocol world.serve) (hcan : CanAnswer world.serve takes answer)
    (hhash : call.infoHash.length = 20) (hid : (utf8 call.ourPeerId).length = 20)
    (hhost : (extractTrackerHostPort world.parseUrl call.url).isSome = true)
    (hport : parseU16 call.ourPort = some port) (hretry : call.retry ≤ 60)
    (hdrawn : ∀ e ∈ es, Drawn strays told e) (hout : ∀ e ∈ es, GetsOut e)
    (hrun : run (udpStep world call) (UdpExchange.new tracker strays) es = some s) {tId : UInt32}
    (hwaits : s.task = .connecting tId ∨ s.task = .announcing tId)
    (htakes : ∀ cId, Issued s cId → takes s.tracker cId) {stats : TorrentStats}
    (htold : told stats) :
    ∃ more t, run (udpStep world call) s more = some t ∧
      t.task = .returned (.ok (responseOf answer)) := by
  have hinv := run_invariant_of_forall (ExchangeInv world call strays told True)
    (fun _ _ _ _ h he hstep => exchangeInv_step hprotocol hhash hid hhost hport hretry h he hstep)
    (exchangeInv_new world call told True tracker strays)
    (fun e he => ⟨hdrawn e he, fun _ => hout e he⟩) hrun
  have hstanding := hinv.standing
  rcases hwaits with htask | htask
  · -- the tracker gives out a connection id, and the client announces under it
    rw [htask] at hstanding
    obtain ⟨hconnected, hmem⟩ := hstanding.2 trivial
    obtain ⟨hlength, hmagic, haction, htId⟩ := connect_fields tId
    obtain ⟨choice, cId, hreply, hnew⟩ := hcan.connects s.tracker (connectRequest tId) hlength
      hmagic haction
    rw [htId] at hreply
    let a : Announce := ⟨cId, 0, 0, call.infoHash, call.ourPeerId, port, stats⟩
    have hours : Ours call told a := ⟨rfl, rfl, hport, htold⟩
    obtain ⟨u, hu, htask', hconnected', htracker, harrives⟩ :=
      tracker_serves world call hmem choice
    rw [htask] at htask'
    rw [hconnected] at hconnected'
    rw [← htracker] at hnew
    have hconnection : connectionId tId (.datagram (connectReply tId.toNat cId)) =
        .ok cId.toNat := connectionId_reply tId cId
    have hrequest : secondRequestBuf world.asBytes cId 0 0 call.infoHash call.ourPeerId
        call.ourPort stats = some (announceOfClient world a) :=
      secondRequestBuf_eq world.asBytes a hport
    have hreceive : udpStep world call u
        (.receive (connectReply tId.toNat cId) ⟨some stats, 0, 0, true⟩) =
          some ({ u with task := .announcing 0 }.send true [announceOfClient world a], ()) := by
      simp only [udpStep, if_pos (harrives _ hreply), UdpExchange.receive, htask', UdpTask.receives,
        hconnection, UInt64.ofNat_toNat, hrequest, Option.bind_eq_bind, Option.bind_some,
        Option.map_some]
    obtain ⟨more, t, hmore, ht⟩ := announcing_succeeds (a := a)
      (s := { u with task := .announcing 0 }.send true [announceOfClient world a]) hcan hhash hid
      hours (task_send _ _) (by rwa [tracker_send])
      (mem_send (s := { u with task := .announcing 0 }) hconnected' rfl (List.mem_singleton_self _))
    exact ⟨_, t, (run_cons_some _ hu).trans ((run_cons_some more hreceive).trans hmore), ht⟩
  · rw [htask] at hstanding
    obtain ⟨-, a, hours, rfl, hissued, hmem⟩ := hstanding
    exact announcing_succeeds hcan hhash hid hours htask (htakes a.cId hissued) (hmem trivial)

end

/-! ## An exchange with doubled and stray datagrams -/

/-- What a tracker draws and says. -/
structure Serving where
  cId : UInt64
  answer : AnnounceAnswer

/-- A tracker that remembers the connection ids that it has given out, and refuses what it does not
understand. -/
def rememberingTracker (serving : Serving) (issued : List UInt64) (request : Bytes) :
    List UInt64 × List Bytes :=
  if request.length = 16 ∧ readU64At request 0 = 0x41727101980 ∧ actionOf request = 0 then
    (serving.cId :: issued, [connectReply (transactionOf request) serving.cId])
  else if 98 ≤ request.length ∧ readU64At request 0 ∈ issued.map UInt64.toNat ∧
      actionOf request = 1 then
    (issued, [announceReply (transactionOf request) serving.answer])
  else (issued, [errorReply (transactionOf request) "invalid request"])

theorem followsProtocol_rememberingTracker : FollowsProtocol rememberingTracker where
  answers serving issued request reply hreply := by
    unfold rememberingTracker at hreply
    split_ifs at hreply with hconnect hannounce
    · rw [List.mem_singleton.mp hreply]
      exact .connects _ hconnect.2.2
    · rw [List.mem_singleton.mp hreply]
      exact .announces _ hannounce.2.2
    · rw [List.mem_singleton.mp hreply]
      exact .refuses _

theorem canAnswer_rememberingTracker (answer : AnnounceAnswer) :
    CanAnswer rememberingTracker (fun issued cId => cId ∈ issued) answer where
  connects issued request hlength hmagic haction := by
    refine ⟨⟨0, answer⟩, 0, ?_⟩
    unfold rememberingTracker
    rw [if_pos ⟨hlength, hmagic, haction⟩]
    exact ⟨List.mem_singleton_self _, List.mem_cons_self⟩
  announces issued request cId htakes hlength hcId haction := by
    refine ⟨⟨0, answer⟩, ?_⟩
    have hknown : readU64At request 0 ∈ issued.map UInt64.toNat := by
      rw [hcId]
      exact List.mem_map_of_mem htakes
    unfold rememberingTracker
    rw [if_neg (by omega), if_pos ⟨hlength.ge, hknown, haction⟩]
    exact List.mem_singleton_self _

theorem inBytes_lt (x : ℚ) : inBytes x < 2 ^ 64 :=
  (Nat.min_le_right _ _).trans_lt (by decide)

/-- A world with this tracker, whose URLs all have the host `t`. -/
def oneWorld : UdpWorld (List UInt64) Serving :=
  ⟨fun _ => some ⟨"udp", some "t", some 80⟩, inBytes, inBytes_lt, rememberingTracker⟩

/-- A call for a torrent. -/
def oneCall : UdpCall := ⟨"udp://t:80", List.replicate 20 9, "FS0001aaaaaaaaaaaaaa", "6001", 0⟩

/-- What the manager tells. -/
def oneByteLeft : TorrentStats := ⟨0, 0, 1⟩

/-- The announce of the call under the second connection id. -/
def oneAnnounce : Announce :=
  ⟨8, 2, 3, oneCall.infoHash, oneCall.ourPeerId, 6001, oneByteLeft⟩

/-- The answer: one peer. -/
def onePeerAnswer : AnnounceAnswer := ⟨1800, 0, 1, [10, 0, 0, 1, 26, 225]⟩

/-- The answer to an earlier connect request. -/
def leftOver : List Bytes := [connectReply 5 6]

/-- Before the call. -/
def beforeCall : UdpExchange (List UInt64) := UdpExchange.new [] leftOver

/-- The connect request arrives twice and the first answer never. -/
def untilAnnounce : List (UdpEvent Serving) :=
  [.begin true true 1, .serve (connectRequest 1) ⟨7, onePeerAnswer⟩,
    .serve (connectRequest 1) ⟨8, onePeerAnswer⟩,
    .receive (connectReply 1 8) ⟨some oneByteLeft, 2, 3, true⟩]

/-- The announce is answered. -/
def answeredRun : List (UdpEvent Serving) :=
  untilAnnounce ++ [.serve (announceOfClient oneWorld oneAnnounce) ⟨9, onePeerAnswer⟩,
    .receive (announceReply 2 onePeerAnswer) ⟨some oneByteLeft, 4, 5, true⟩]

/-- The state when the client waits for the second answer. -/
def atAnnounce : UdpExchange (List UInt64) :=
  (run (udpStep oneWorld oneCall) beforeCall untilAnnounce).get (by decide +kernel)

/-- The state at the end. -/
def afterAnswer : UdpExchange (List UInt64) :=
  (run (udpStep oneWorld oneCall) beforeCall answeredRun).get (by decide +kernel)

theorem port_oneCall : parseU16 oneCall.ourPort = some 6001 := by decide +kernel

theorem drawn_answeredRun :
    ∀ e ∈ answeredRun, Drawn leftOver (fun stats => stats = oneByteLeft) e := by
  have hfresh : ∀ tId ∈ [1, 2, 4], ∀ d ∈ leftOver, answeredId d ≠ tId := by decide +kernel
  simp only [List.forall_mem_cons] at hfresh
  simpa [answeredRun, untilAnnounce, Drawn] using hfresh

/-- The peer of the answer is what the call returns. -/
theorem udp_agreement_doubled :
    afterAnswer.task ≠ .panicked ∧
      (∀ request ∈ afterAnswer.toTracker, actionOf request = 1 →
        ∃ a, Ours oneCall (fun stats => stats = oneByteLeft) a ∧ Issued afterAnswer a.cId ∧
          announceSeen request = seenOf oneWorld a) ∧
      ∀ response, afterAnswer.task = .returned (.ok response) →
        ∃ request ∈ afterAnswer.toTracker, ∃ answer, actionOf request = 1 ∧
          (request, announceReply (transactionOf request) answer) ∈ afterAnswer.answered ∧
          response = responseOf answer :=
  udp_agreement followsProtocol_rememberingTracker (by decide) (by decide +kernel) rfl port_oneCall
    (by decide) drawn_answeredRun (Option.some_get _).symm

/-- The client waits for the second answer. -/
theorem udp_can_succeed_announced :
    ∃ more t, run (udpStep oneWorld oneCall) atAnnounce more = some t ∧
      t.task = .returned (.ok (responseOf onePeerAnswer)) := by
  have hdrawn : ∀ e ∈ untilAnnounce, Drawn leftOver (fun stats => stats = oneByteLeft) e :=
    fun e he => drawn_answeredRun e (List.mem_append_left _ he)
  have hout : ∀ e ∈ untilAnnounce, GetsOut e := by simp [untilAnnounce, GetsOut]
  have htask : atAnnounce.task = .announcing 2 := rfl
  have htakes : ∀ cId, Issued atAnnounce cId → cId ∈ atAnnounce.tracker := by
    have hanswered : atAnnounce.answered =
        [(connectRequest 1, connectReply 1 7), (connectRequest 1, connectReply 1 8)] := by
      decide +kernel
    have htracker : atAnnounce.tracker = [8, 7] := by decide +kernel
    rintro cId ⟨request, hmem⟩
    have hread := cId_connectReply (transactionOf request) cId
    rw [hanswered] at hmem
    rw [htracker]
    simp only [List.mem_cons, Prod.mk.injEq, List.not_mem_nil, or_false] at hmem ⊢
    rcases hmem with ⟨-, hreply⟩ | ⟨-, hreply⟩
    · rw [hreply, cId_connectReply] at hread
      exact Or.inr (UInt64.toNat_inj.mp hread.symm)
    · rw [hreply, cId_connectReply] at hread
      exact Or.inl (UInt64.toNat_inj.mp hread.symm)
  exact udp_can_succeed followsProtocol_rememberingTracker
    (canAnswer_rememberingTracker onePeerAnswer) (by decide) (by decide +kernel) rfl port_oneCall
    (by decide) hdrawn hout (Option.some_get _).symm (Or.inr htask) htakes rfl

end Fissure.Analysis
