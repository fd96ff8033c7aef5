import Fissure.Analysis.HandshakeReply
import Fissure.Analysis.LegalRequests
import Fissure.Analysis.WireFormat

/-!
# What a connection writes

The client writes its handshake and then one frame after the other. A reader like its own takes its
peer id from the handshake, because `String::from_utf8_lossy` keeps every string
(`fromUtf8Lossy_utf8`), and from the rest the messages that were sent and no others, however much of
the stream has arrived and in whatever pieces. The messages follow a script (`Scripted`): the
bitfield of the torrent first, then legal requests and `Interested` once at most
(`connection_stream`).
-/

set_option autoImplicit false

namespace Fissure.Analysis

open Fissure.Library Fissure.Model

/-! ## Reading a string back -/

section

variable {b : UInt8} {bytes : Bytes}

theorem lossyChars_char {c : Char} (h : utf8First b.toNat = .inl c) :
    lossyChars none (b :: bytes) = c :: lossyChars none bytes := by
  rw [lossyChars, h]
  rfl

theorem lossyChars_first {next : Utf8Pending} (h : utf8First b.toNat = .inr (some next)) :
    lossyChars none (b :: bytes) = lossyChars (some next) bytes := by
  rw [lossyChars, h]
  rfl

theorem lossyChars_next {bits missing low high : ℕ} (hlow : low ≤ b.toNat) (hhigh : b.toNat ≤ high)
    (hmissing : 1 < missing) :
    lossyChars (some ⟨bits, missing, low, high⟩) (b :: bytes) =
      lossyChars (some ⟨bits * 64 + b.toNat % 64, missing - 1, 0x80, 0xBF⟩) bytes := by
  rw [lossyChars]
  simp only [if_pos (And.intro hlow hhigh), if_neg (Nat.not_le.mpr hmissing)]

theorem lossyChars_last {bits low high : ℕ} (hlow : low ≤ b.toNat) (hhigh : b.toNat ≤ high) :
    lossyChars (some ⟨bits, 1, low, high⟩) (b :: bytes) =
      Char.ofNat (bits * 64 + b.toNat % 64) :: lossyChars none bytes := by
  rw [lossyChars]
  simp only [if_pos (And.intro hlow hhigh), Nat.le_refl, if_true]

end

theorem toNat_ofNat_of_lt {n : ℕ} (h : n < 256) : (UInt8.ofNat n).toNat = n := by
  rw [UInt8.toNat_ofNat']
  exact Nat.mod_eq_of_lt h

/-- INTERNAL: the second byte of a character of three bytes is in the range that the first one
leaves. The cases are the first bytes that narrow it. -/
theorem utf8First_three {v : ℕ} (hlow : 0x7FF < v) (hhigh : v ≤ 0xFFFF)
    (hvalid : v < 0xD800 ∨ 0xDFFF < v) :
    ∃ low high, utf8First (v / 4096 % 16 + 0xE0) = .inr (some ⟨v / 4096 % 16, 2, low, high⟩) ∧
      low ≤ v / 64 % 64 + 0x80 ∧ v / 64 % 64 + 0x80 ≤ high := by
  have hbits : (v / 4096 % 16 + 0xE0) % 16 = v / 4096 % 16 := by omega
  unfold utf8First
  rw [if_neg (by omega), if_neg (by omega)]
  split_ifs with hE0 hED hE
  · exact ⟨0xA0, 0xBF, by rw [show v / 4096 % 16 = 0 by omega], by omega, by omega⟩
  · exact ⟨0x80, 0x9F, by rw [show v / 4096 % 16 = 13 by omega], by omega, by omega⟩
  · exact ⟨0x80, 0xBF, by rw [hbits], by omega, by omega⟩
  all_goals omega

/-- INTERNAL: the same for a character of four bytes. -/
theorem utf8First_four {v : ℕ} (hlow : 0xFFFF < v) (hhigh : v < 0x110000) :
    ∃ low high, utf8First (v / 262144 % 8 + 0xF0) = .inr (some ⟨v / 262144 % 8, 3, low, high⟩) ∧
      low ≤ v / 4096 % 64 + 0x80 ∧ v / 4096 % 64 + 0x80 ≤ high := by
  have hbits : (v / 262144 % 8 + 0xF0) % 8 = v / 262144 % 8 := by omega
  unfold utf8First
  rw [if_neg (by omega), if_neg (by omega), if_neg (by omega), if_neg (by omega),
    if_neg (by omega)]
  split_ifs with hF0 hF hF4
  · exact ⟨0x90, 0xBF, by rw [show v / 262144 % 8 = 0 by omega], by omega, by omega⟩
  · exact ⟨0x80, 0xBF, by rw [hbits], by omega, by omega⟩
  · exact ⟨0x80, 0x8F, by rw [show v / 262144 % 8 = 4 by omega], by omega, by omega⟩
  all_goals omega

/-- INTERNAL: the bytes of a character are read as that character. The cases are the lengths of the
encoding. -/
theorem lossyChars_utf8EncodeChar (c : Char) (bytes : Bytes) :
    lossyChars none (String.utf8EncodeChar c ++ bytes) = c :: lossyChars none bytes := by
  have hvalid : c.val.toNat < 0xD800 ∨ 0xDFFF < c.val.toNat ∧ c.val.toNat < 0x110000 := c.valid
  have hc : Char.ofNat c.val.toNat = c := Char.ofNat_toNat c
  unfold String.utf8EncodeChar
  generalize c.val.toNat = v at hvalid hc
  dsimp only
  have hnext (n : ℕ) : (UInt8.ofNat (n % 64 + 0x80)).toNat = n % 64 + 0x80 :=
    toNat_ofNat_of_lt (by omega)
  split_ifs with h1 h2 h3
  · rw [List.cons_append, List.nil_append, lossyChars_char]
    rw [toNat_ofNat_of_lt (by omega), ← hc]
    unfold utf8First
    rw [if_pos (by omega)]
  · have hfirst : (UInt8.ofNat (v / 64 % 32 + 0xC0)).toNat = v / 64 % 32 + 0xC0 :=
      toNat_ofNat_of_lt (by omega)
    have hread : utf8First (UInt8.ofNat (v / 64 % 32 + 0xC0)).toNat =
        .inr (some ⟨(v / 64 % 32 + 0xC0) % 32, 1, 0x80, 0xBF⟩) := by
      rw [hfirst, utf8First, if_neg (by omega), if_pos (by omega)]
    simp only [List.cons_append, List.nil_append]
    rw [lossyChars_first hread, lossyChars_last (by rw [hnext]; omega) (by rw [hnext]; omega),
      hnext, ← hc]
    congr 2
    omega
  · have hthree : v < 0xD800 ∨ 0xDFFF < v := by omega
    obtain ⟨low, high, hread, hlow, hhigh⟩ := utf8First_three (by omega) h3 hthree
    rw [← toNat_ofNat_of_lt (by omega : v / 4096 % 16 + 0xE0 < 256)] at hread
    rw [← hnext] at hlow hhigh
    simp only [List.cons_append, List.nil_append]
    rw [lossyChars_first hread, lossyChars_next hlow hhigh (by decide),
      lossyChars_last (by rw [hnext]; omega) (by rw [hnext]; omega), hnext, hnext, ← hc]
    congr 2
    omega
  · obtain ⟨low, high, hread, hlow, hhigh⟩ := utf8First_four (by omega : 0xFFFF < v) (by omega)
    rw [← toNat_ofNat_of_lt (by omega : v / 262144 % 8 + 0xF0 < 256)] at hread
    rw [← hnext] at hlow hhigh
    simp only [List.cons_append, List.nil_append]
    rw [lossyChars_first hread, lossyChars_next hlow hhigh (by decide),
      lossyChars_next (by rw [hnext]; omega) (by rw [hnext]; omega) (by decide),
      lossyChars_last (by rw [hnext]; omega) (by rw [hnext]; omega), hnext, hnext, hnext, ← hc]
    congr 2
    omega

theorem utf8_eq_flatMap (s : String) : utf8 s = s.toList.flatMap String.utf8EncodeChar := by
  unfold utf8
  rw [String.toUTF8, ← String.utf8Encode_toList]
  simp [List.utf8Encode]

/-- **A string is read back from its bytes.** -/
theorem fromUtf8Lossy_utf8 (s : String) : fromUtf8Lossy (utf8 s) = s := by
  have hread (l : List Char) : lossyChars none (l.flatMap String.utf8EncodeChar) = l := by
    induction l with
    | nil => rfl
    | cons c l ih => rw [List.flatMap_cons, lossyChars_utf8EncodeChar, ih]
  rw [fromUtf8Lossy, utf8_eq_flatMap, hread, String.ofList_toList]

/-- **A client takes over the peer id that another one sends.** Whatever follows the handshake.
SOURCE: peer_handshake.rs:60-66, peer_handshake.rs:83-104 -/
theorem peerConnectionFromPeerMeta_handshake {infoHash : Bytes} {peerId : String}
    (hhash : infoHash.length = 20) (hid : (utf8 peerId).length = 20) (more : Bytes) :
    peerConnectionFromPeerMeta (handshake infoHash peerId ++ more) = some peerId := by
  have hlength : (utf8 "BitTorrent protocol" ++ List.replicate 8 0 ++ infoHash).length = 47 := by
    rw [List.length_append, List.length_append, length_pstr, List.length_replicate, hhash]
  apply peerConnectionFromPeerMeta_eq_some.mpr
  refine ⟨19, utf8 "BitTorrent protocol" ++ List.replicate 8 0 ++ infoHash ++ utf8 peerId ++ more,
    ?_, by decide, ?_, ?_⟩
  · simp [handshake]
  · rw [List.length_append, List.length_append, hlength, hid]
    exact Nat.le_add_right _ _
  · change peerId = fromUtf8Lossy ((List.drop 47 _).take 20)
    rw [List.append_assoc, List.drop_left' hlength, List.take_left' hid, fromUtf8Lossy_utf8]

/-! ## The script of the writer -/

section

variable {torrent : ClientTorrentMetaInfo} {options : PeerOptions} {peerId : String}
variable {sha1 : Bytes → Bytes} {s t : PeerFsm} {m : MetaInfo}

/-- The first message is the bitfield of the torrent, and `Interested` and requests follow. -/
def BitfieldFirst (m : MetaInfo) (sent : List PeerMessage) : Prop :=
  ∃ owned rest, sent = .bitfield owned :: rest ∧ owned.length = m.pieceCount ∧
    ∀ msg ∈ rest, msg = .interested ∨ ∃ i off len, msg = .request i off len

/-- What has been sent when the writer stands there. -/
def SentBefore (m : MetaInfo) : WriterTask → List PeerMessage → Prop
  | .unregistered, sent | .registering, sent => sent = []
  | .starting b, sent => sent = [] ∧ b.length = m.pieceCount
  | .ended, sent => sent = [] ∨ BitfieldFirst m sent
  | _, sent => BitfieldFirst m sent

/-- The writer stands after the sending of `Interested` and before the recording of it. -/
def sendsInterest : WriterTask → Bool
  | .interested _ => true
  | _ => false

/-- The messages follow the script. -/
structure Scripted (m : MetaInfo) (s : PeerFsm) : Prop where
  order : SentBefore m s.writer s.sent
  interest : s.sent.count .interested = (s.amInterested || sendsInterest s.writer).toNat
  undecided : ∀ isChoked, s.writer = .interesting isChoked → s.amInterested = false

/-- The writer is in its loop and not about to send or record its interest. -/
def InLoop : WriterTask → Prop
  | .unregistered | .registering | .starting _ | .interesting _ | .interested _ | .ended => False
  | _ => True

theorem inLoop_returns (pass : TopOff) (progressed : Bool) : InLoop (pass.returns progressed) := by
  unfold TopOff.returns
  split_ifs <;> trivial

theorem inLoop_tryNext (pass : TopOff) (availableWindow : ℕ)
    (candidates : List PieceRequestManager) :
    InLoop (pass.tryNext availableWindow candidates) := by
  cases candidates with
  | nil => exact inLoop_returns _ _
  | cons c candidates => trivial

theorem inLoop_sendNext (pass : TopOff) (c : PieceRequestManager) (reqPieces : List (ℕ × ℕ)) :
    InLoop (pass.sendNext c reqPieces) := by
  cases reqPieces with
  | nil => exact inLoop_returns _ _
  | cons p reqPieces => trivial

theorem sentBefore_of_inLoop {task : WriterTask} (h : InLoop task) {sent : List PeerMessage} :
    SentBefore m task sent ↔ BitfieldFirst m sent := by
  cases task <;> first | exact h.elim | exact Iff.rfl

theorem sendsInterest_of_inLoop {task : WriterTask} (h : InLoop task) :
    sendsInterest task = false := by
  cases task <;> first | exact h.elim | rfl

/-- INTERNAL: a step within the loop that sends nothing. -/
theorem Scripted.loops {task : WriterTask} (h : Scripted m s) (hs : InLoop s.writer)
    (ht : InLoop task) (hsent : t.sent = s.sent) (hinterested : t.amInterested = s.amInterested)
    (hwriter : t.writer = task) : Scripted m t := by
  obtain ⟨horder, hinterest, -⟩ := h
  rw [sentBefore_of_inLoop hs] at horder
  rw [sendsInterest_of_inLoop hs] at hinterest
  refine ⟨?_, ?_, ?_⟩
  · rw [hwriter, sentBefore_of_inLoop ht, hsent]
    exact horder
  · rw [hwriter, sendsInterest_of_inLoop ht, hsent, hinterested]
    exact hinterest
  · intro isChoked hw
    rw [← hwriter, hw] at ht
    exact ht.elim

theorem BitfieldFirst.append {sent : List PeerMessage} (h : BitfieldFirst m sent)
    {msg : PeerMessage} (hmsg : msg = .interested ∨ ∃ i off len, msg = .request i off len) :
    BitfieldFirst m (sent ++ [msg]) := by
  obtain ⟨owned, rest, rfl, howned, hrest⟩ := h
  refine ⟨owned, rest ++ [msg], rfl, howned, ?_⟩
  intro other hother
  rcases List.mem_append.mp hother with hold | hnew
  · exact hrest other hold
  · rw [List.mem_singleton.mp hnew]
    exact hmsg

/-- INTERNAL: a step of the writer keeps to the script.
SOURCE: peer_protocol_state_machine.rs:30-148, peer_protocol_state_machine.rs:223-242 -/
theorem scripted_writer {a : WriterAct} (h : Scripted m s) (hmove : WriterTaskMove s a t) :
    Scripted m t := by
  have horder := h.order
  have hinterest := h.interest
  cases hmove with
  | @sendBitfield b hw =>
    rw [hw] at horder hinterest
    obtain ⟨hnothing, hlength⟩ := horder
    refine ⟨⟨b, [], by rw [hnothing]; rfl, hlength, by simp⟩, ?_, nofun⟩
    rw [List.count_append, hinterest]
    rfl
  | fails hfails =>
    refine ⟨?_, ?_, nofun⟩
    · rcases hfails with ⟨-, b, hw⟩ | ⟨-, isChoked, hw⟩ | ⟨-, pass, c, reqPieces, hw⟩ <;>
        rw [hw] at horder
      · exact Or.inl horder.1
      · exact Or.inr horder
      · exact Or.inr horder
    · rcases hfails with ⟨-, b, hw⟩ | ⟨-, isChoked, hw⟩ | ⟨-, pass, c, reqPieces, hw⟩ <;>
        rw [hw] at hinterest <;> exact hinterest
  | interest hw huseful hnot =>
    rw [hw] at horder hinterest
    exact ⟨horder, hinterest, fun _ _ => hnot⟩
  | @sendInterested isChoked hw =>
    have hnot := h.undecided isChoked hw
    rw [hw] at horder hinterest
    rw [hnot] at hinterest
    refine ⟨BitfieldFirst.append horder (Or.inl rfl), ?_, nofun⟩
    rw [List.count_append, hinterest, hnot]
    rfl
  | setInterested hw =>
    rw [hw] at horder hinterest
    refine ⟨horder, ?_, nofun⟩
    rw [hinterest]
    simp [sendsInterest]
  | @sendRequest pass c p reqPieces hw =>
    rw [hw] at horder hinterest
    refine ⟨BitfieldFirst.append horder (Or.inr ⟨_, _, _, rfl⟩), ?_, nofun⟩
    rw [List.count_append, hinterest]
    rfl
  | beginPass hw | beginTopOff hw | noInterest hw | asks hw | skips hw | insertRequest hw
  | countPiece hw | windowOpen hw | blocks hw =>
    exact h.loops (by rw [hw]; trivial) (by trivial) rfl rfl rfl
  | windowShut hw => exact h.loops (by rw [hw]; trivial) (inLoop_returns _ _) rfl rfl rfl
  | pick hw | noBlocks hw | gone hw =>
    exact h.loops (by rw [hw]; trivial) (inLoop_tryNext _ _ _) rfl rfl rfl
  | countRequest hw => exact h.loops (by rw [hw]; trivial) (inLoop_sendNext _ _ _) rfl rfl rfl

/-- INTERNAL: an answer of the manager keeps to the script; the one to the registration is the
bitfield of the torrent.
SOURCE: peer_protocol_state_machine.rs:170, torrent_manager.rs:351-377 -/
theorem scripted_receives {sender : Sender} {reply : TorrentManagerReply} (h : Scripted m s)
    (howned : ∀ b, reply = .bitfield b → b.length = m.pieceCount)
    (hsent : t.sent = s.sent) (hinterested : t.amInterested = s.amInterested)
    (hwriter : t.writer = s.writer.receives sender reply) : Scripted m t := by
  unfold WriterTask.receives at hwriter
  split at hwriter
  · next hw =>
    have horder := h.order
    have hinterest := h.interest
    rw [hw] at horder hinterest
    refine ⟨?_, ?_, ?_⟩ <;> rw [hwriter]
    · exact ⟨hsent.trans horder, howned _ rfl⟩
    · rw [hsent, hinterested, hinterest]
      rfl
    · nofun
  · next hw => exact h.loops (by rw [hw]; trivial) (by trivial) hsent hinterested hwriter
  · next hw => exact h.loops (by rw [hw]; trivial) (by trivial) hsent hinterested hwriter
  · obtain ⟨horder, hinterest, hundecided⟩ := h
    rw [← hwriter] at horder hinterest hundecided
    rw [← hsent] at horder hinterest
    rw [← hinterested] at hinterest hundecided
    exact ⟨horder, hinterest, hundecided⟩

/-- INTERNAL: the bitfield that the manager answers a registration with is that of the torrent. -/
theorem length_bitfield_reply {before after : TorrentManagerActor} {msg : TorrentManagerMessage}
    {env : Env} {b : Bitfield} (hmeta : torrent.rawTorrent.WellSized)
    (h : ManagerInv torrent options before)
    (hmanager : managerStep before (msg, env) = some (after, .bitfield b)) :
    b.length = torrent.rawTorrent.pieceCount := by
  cases msg with
  | addPeer q bitfield =>
    cases managerEffect hmanager with
    | registered => rw [h.rarity.length_local, h.length_frequency hmeta]
    | unchanged hmsg => exact absurd rfl (hmsg q bitfield 0).1
  | _ => simp [managerStep] at hmanager

/-- INTERNAL: every step keeps to the script. -/
theorem scripted_step {e : FsmEvent} {r : Unit} (hmeta : torrent.rawTorrent.WellSized)
    (hmanager : ManagerInv torrent options s.manager) (h : Scripted torrent.rawTorrent s)
    (hstep : fsmStep sha1 s e = some (t, r)) : Scripted torrent.rawTorrent t := by
  have hsame (hwriter : t.writer = s.writer) (hsent : t.sent = s.sent)
      (hinterested : t.amInterested = s.amInterested) : Scripted torrent.rawTorrent t := by
    obtain ⟨horder, hinterest, hundecided⟩ := h
    rw [← hwriter] at horder hinterest hundecided
    rw [← hsent] at horder hinterest
    rw [← hinterested] at hinterest hundecided
    exact ⟨horder, hinterest, hundecided⟩
  cases fsmMove hstep with
  | register hw =>
    have horder := h.order
    have hinterest := h.interest
    rw [hw] at horder hinterest
    exact ⟨horder, hinterest, nofun⟩
  | handle hmail hreply =>
    refine scripted_receives h ?_ rfl rfl rfl
    rintro b rfl
    exact length_bitfield_reply hmeta hmanager hreply
  | writer hmove => exact scripted_writer h hmove
  | elsewhere | pieceActor => exact hsame rfl rfl rfl
  | reader hmove => cases hmove <;> exact hsame rfl rfl rfl
  | watchdog hmove => cases hmove <;> exact hsame rfl rfl rfl

theorem scripted_new (h : PeerFsm.new torrent options peerId = some s) : Scripted m s := by
  obtain ⟨manager, -, rfl⟩ := fsm_new_eq_some h
  exact ⟨rfl, rfl, nofun⟩

/-! ## The stream -/

theorem LegalRequest.encodable {i off len : ℕ} (h : LegalRequest m i off len)
    (hmeta : m.WellSized) (hlength : m.info.pieceLength ≤ 2 ^ 32)
    (hnumber : m.pieceCount ≤ 2 ^ 32) : Encodable (.request i off len) := by
  obtain ⟨pieceLength, hpiece, hinside⟩ := h.inside
  rw [MetaInfo.getPieceLength_eq hmeta h.index_lt] at hpiece
  cases hpiece
  have hle : m.pieceLen i ≤ m.info.pieceLength := Nat.min_le_left _ _
  have hpos := h.length_pos
  have hlen := h.length_le
  exact ⟨h.index_lt.trans_le hnumber, by omega, by omega⟩

theorem encodable_bitfield {b : Bitfield} (h : b.length ≤ 2 ^ 32) :
    Encodable (.bitfield b) := by
  change 1 + ((List.range ((b.length + 7) / 8)).map _).length < 2 ^ 32
  rw [List.length_map, List.length_range]
  omega

/-- What the messages of a connection look like: nothing yet, or first the bitfield of the torrent
and then legal requests and `Interested` once at most. -/
def Script (m : MetaInfo) (sent : List PeerMessage) : Prop :=
  sent = [] ∨ ∃ owned rest, sent = .bitfield owned :: rest ∧ owned.length = m.pieceCount ∧
    rest.count .interested ≤ 1 ∧
    ∀ msg ∈ rest, msg = .interested ∨
      ∃ i off len, msg = .request i off len ∧ LegalRequest m i off len

/-- A `Have`. -/
def isHave : PeerMessage → Bool
  | .have _ => true
  | _ => false

/-- INTERNAL: what has been sent at any time. -/
theorem Scripted.script (h : Scripted m s)
    (hlegal : ∀ i off len, .request i off len ∈ s.sent → LegalRequest m i off len) :
    Script m s.sent := by
  obtain ⟨horder, hinterest, -⟩ := h
  have hfirst : s.sent = [] ∨ BitfieldFirst m s.sent := by
    unfold SentBefore at horder
    split at horder
    · exact Or.inl horder
    · exact Or.inl horder
    · exact Or.inl horder.1
    · exact horder
    · exact Or.inr horder
  refine hfirst.imp_right ?_
  rintro ⟨owned, rest, hsent, howned, hrest⟩
  refine ⟨owned, rest, hsent, howned, ?_, ?_⟩
  · have hcount : s.sent.count .interested = rest.count .interested := by
      rw [hsent, List.count_cons_of_ne (by simp)]
    rw [← hcount, hinterest]
    exact Bool.toNat_le _
  · intro msg hmsg
    refine (hrest msg hmsg).imp_right ?_
    rintro ⟨i, off, len, rfl⟩
    exact ⟨i, off, len, rfl, hlegal i off len (by rw [hsent]; exact List.mem_cons_of_mem _ hmsg)⟩

/-- The invariant of what a connection sends. -/
def SentInv (torrent : ClientTorrentMetaInfo) (options : PeerOptions) (peerId : String)
    (s : PeerFsm) : Prop :=
  (∃ H, RequestsInv torrent options peerId H s) ∧ Scripted torrent.rawTorrent s

/-- INTERNAL: in every run the messages that are sent follow the script. -/
theorem script_of_run (hmeta : torrent.rawTorrent.Consistent) {start : PeerFsm}
    (hstart : PeerFsm.new torrent options peerId = some start) {es : List FsmEvent}
    (hrun : run (fsmStep sha1) start es = some s) : Script torrent.rawTorrent s.sent := by
  have hstep : ∀ u e t r, SentInv torrent options peerId u →
      fsmStep sha1 u e = some (t, r) → SentInv torrent options peerId t := by
    rintro u e t r ⟨⟨H, hrequests⟩, hscripted⟩ hstep
    exact ⟨⟨_, requestsInv_step hmeta hrequests hstep⟩,
      scripted_step hmeta.toWellSized hrequests.manager hscripted hstep⟩
  obtain ⟨⟨H, hrequests⟩, hscripted⟩ :=
    run_invariant hstep ⟨⟨_, requestsInv_new hstart⟩, scripted_new hstart⟩ hrun
  exact hscripted.script fun i off len hmem =>
    (hrequests.legal i off len (List.mem_append_left _ hmem)).2

/-- INTERNAL: every message of a connection is encoded as it is. -/
theorem Script.encodable (h : Script m s.sent) (hmeta : m.WellSized)
    (hlength : m.info.pieceLength ≤ 2 ^ 32) (hnumber : m.pieceCount ≤ 2 ^ 32) :
    ∀ msg ∈ s.sent, Encodable msg := by
  rcases h with hnothing | ⟨owned, rest, hsent, howned, -, hrest⟩
  · simp [hnothing]
  · rw [hsent, List.forall_mem_cons]
    refine ⟨encodable_bitfield (by rw [howned]; exact hnumber), ?_⟩
    intro msg hmsg
    rcases hrest msg hmsg with rfl | ⟨i, off, len, rfl, hlegal⟩
    · trivial
    · exact hlegal.encodable hmeta hlength hnumber

/-- **What a connection writes is read back.** Let the metainfo be consistent, with a piece length
and a number of pieces of at most `2 ^ 32`. In every run of a connection the messages that are sent
follow the script. Put after the handshake and encoded one after the other, with any `Have` messages
among them, they are read like this: the peer id of the handshake is the client's own, and from any
part of the stream that has arrived, in whatever chunks, a beginning of the messages is decoded,
without a failure, and all of them from all of the stream.
SOURCE: peer_handshake.rs:60-66, peer_handshake.rs:83-113, peer_protocol_state_machine.rs:30-148,
peer_protocol_state_machine.rs:219-281, peer_messages.rs:90-156 -/
theorem connection_stream (hmeta : torrent.rawTorrent.Consistent)
    (hlength : torrent.rawTorrent.info.pieceLength ≤ 2 ^ 32)
    (hnumber : torrent.rawTorrent.pieceCount ≤ 2 ^ 32) {start : PeerFsm}
    (hstart : PeerFsm.new torrent options peerId = some start) {es : List FsmEvent}
    (hrun : run (fsmStep sha1) start es = some s) {infoHash : Bytes}
    {ownId : String} (hhash : infoHash.length = 20) (hid : (utf8 ownId).length = 20)
    {msgs : List PeerMessage} (hmsgs : msgs.filter (fun msg => !isHave msg) = s.sent)
    (hhaves : ∀ p, .have p ∈ msgs → p < torrent.rawTorrent.pieceCount) {chunks : List Bytes}
    (harrived : chunks.flatten <+: encodeAll msgs) :
    Script torrent.rawTorrent s.sent ∧
      peerConnectionFromPeerMeta (handshake infoHash ownId ++ encodeAll msgs) = some ownId ∧
      (∃ buffered, (PeerCodec.decoder.receiveAll chunks).outcome = .ok buffered) ∧
      (PeerCodec.decoder.receiveAll chunks).messages <+: msgs.map received ∧
      (chunks.flatten = encodeAll msgs →
        (PeerCodec.decoder.receiveAll chunks).messages = msgs.map received) := by
  have hscript := script_of_run hmeta hstart hrun
  have hencodable : ∀ msg ∈ msgs, Encodable msg := by
    intro msg hmsg
    cases hkind : isHave msg with
    | true =>
      cases msg with
      | «have» p => exact (hhaves p hmsg).trans_le hnumber
      | _ => cases hkind
    | false =>
      apply hscript.encodable hmeta.toWellSized hlength hnumber
      rw [← hmsgs]
      exact List.mem_filter.mpr ⟨hmsg, by rw [hkind]; rfl⟩
  have hall : PeerCodec.decoder.drain (encodeAll msgs) =
      ⟨msgs.map received, (encodeAll msgs).length, .ok []⟩ := by
    have hframe : ∀ msg ∈ msgs, ∀ rest,
        PeerCodec.decoder.next (putU32 (frameBody msg).length ++ frameBody msg ++ rest) =
          .message (received msg) rest := fun msg hmsg =>
      next_frame (length_body_lt (hencodable msg hmsg)) (decode_body (hencodable msg hmsg))
    have hframes := StreamDecoder.drain_frames hframe PeerCodec.decoder.next_nil
    rw [List.append_nil, ← encodeAll_eq hencodable] at hframes
    exact hframes
  rw [StreamDecoder.receiveAll_eq_drain]
  obtain ⟨more, hmore⟩ := harrived
  refine ⟨hscript, peerConnectionFromPeerMeta_handshake hhash hid _, ?_, ?_, ?_⟩
  · have hok : (PeerCodec.decoder.drain (chunks.flatten ++ more)).outcome = .ok [] := by
      rw [hmore, hall]
    exact StreamDecoder.exists_ok_of_append hok
  · have hprefix := PeerCodec.decoder.messages_prefix chunks.flatten more
    rwa [hmore, hall] at hprefix
  · intro heq
    rw [heq, hall]

end

/-- The messages up to the `Request` for the one block, with a `Have` before it. -/
def requestWithHave : List PeerMessage :=
  [.bitfield [false], .interested, .have 0, .request 0 0 1]

/-- All of the stream has arrived, in two chunks. -/
theorem connection_stream_one_request :
    Script (byteTorrent 1 (List.replicate 20 0)).rawTorrent requestSent.sent ∧
      peerConnectionFromPeerMeta
          (handshake (List.replicate 20 9) "FS0001aaaaaaaaaaaaaa" ++ encodeAll requestWithHave) =
        some "FS0001aaaaaaaaaaaaaa" ∧
      (∃ buffered, (PeerCodec.decoder.receiveAll
        [(encodeAll requestWithHave).take 8, (encodeAll requestWithHave).drop 8]).outcome =
          .ok buffered) ∧
      (PeerCodec.decoder.receiveAll
        [(encodeAll requestWithHave).take 8, (encodeAll requestWithHave).drop 8]).messages <+:
          requestWithHave.map received ∧
      ([(encodeAll requestWithHave).take 8, (encodeAll requestWithHave).drop 8].flatten =
          encodeAll requestWithHave →
        (PeerCodec.decoder.receiveAll
          [(encodeAll requestWithHave).take 8, (encodeAll requestWithHave).drop 8]).messages =
            requestWithHave.map received) := by
  have hrun : run (fsmStep fun _ => []) fsmStart requestRun = some requestSent :=
    (Option.some_get _).symm
  have hmsgs : requestWithHave.filter (fun msg => !isHave msg) = requestSent.sent := by
    decide +kernel
  have hhaves : ∀ p, .have p ∈ requestWithHave →
      p < (byteTorrent 1 (List.replicate 20 0)).rawTorrent.pieceCount := by
    intro p hp
    obtain rfl : p = 0 := by simpa [requestWithHave] using hp
    decide +kernel
  exact connection_stream (consistent_byteTorrent (by decide) (by decide)) (by decide)
    (by decide +kernel) new_fsmStart hrun (by decide) (by decide +kernel) hmsgs hhaves
    (by decide +kernel)

end Fissure.Analysis
