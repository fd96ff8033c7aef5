import Fissure.Analysis.FullPass

/-!
# Interest follows usefulness

A full pass sends `Interested` when the flag `has_useful_pieces` is set and `Interested` was not
sent before. The flag starts set and is computed again when a `Bitfield` was handled, but not when a
`Have` was. `UsefulnessKept` names the steps that leave it behind what the manager records;
`interest_follows_usefulness` says that no other step does, and `have_without_interest` is a run in
which a `Have` did.
-/

set_option autoImplicit false

namespace Fissure.Analysis

open Fissure.Library Fissure.Model

variable {torrent : ClientTorrentMetaInfo} {options : PeerOptions} {peerId q : String}
variable {sha1 : Bytes → Bytes} {s t : PeerFsm}

/-! ## When the flag keeps up -/

/-- The bitfield that is recorded for the peer contains a piece that is not owned. -/
def HasWanted (m : TorrentManagerActor) (q : String) : Prop := ∃ p, Holds m q p ∧ ¬ Owned m p

/-- The message announces pieces of peer `q`. -/
def announcesPieces (q : String) : TorrentManagerMessage → Bool
  | .addPeer q' b => q' == q && !b.isEmpty
  | .addBitFeild q' _ | .updateBitField q' _ => q' == q
  | _ => false

/-- `Interested` is about to be sent; a writer that has ended makes no further pass. -/
def decidesInterest : WriterTask → Bool
  | .interesting _ | .interested _ | .ended => true
  | _ => false

/-- `Interested` was sent, or is about to be. -/
def interestDecided (s : PeerFsm) : Bool := s.amInterested || decidesInterest s.writer

/-- The reader handles a `Bitfield`, at the end of which the flag is set anew. -/
def handlesBitfield : ReaderTask → Bool
  | .recorded _ | .askingUseful _ | .useful _ => true
  | _ => false

/-- The flag is set, or it is not needed any more. -/
def flagCounts (s : PeerFsm) : Bool := s.hasUsefulPieces || interestDecided s

/-- The piece of the peer's `Have` that the manager handles. -/
def handledHave (s : PeerFsm) : FsmEvent → Option ℕ
  | .handle _ =>
    match s.mailbox with
    | ⟨_, .updateBitField q p⟩ :: _ => if q = s.peerId then some p else none
    | _ => none
  | _ => none

/-- A round of a full pass reads the flag. -/
def readsFlag : FsmEvent → Bool
  | .writer .sample => true
  | _ => false

/-- The message that someone else sends to the manager. -/
def sentElsewhere : FsmEvent → Option TorrentManagerMessage
  | .elsewhere msg => some msg
  | _ => none

/-- The step does not leave the flag behind: a `Have` that is handled while the flag is cleared
brings no piece that is wanted, unless a `Bitfield` follows; the flag is not read while a useful
`Bitfield` is handled, unless it is set; and nobody else announces pieces of this peer. -/
structure UsefulnessKept (s : PeerFsm) (e : FsmEvent) : Prop where
  haves : ∀ p ∈ handledHave s e, flagCounts s = true ∨ handlesBitfield s.reader = true ∨
    Owned s.manager p ∨ Holds s.manager s.peerId p
  reads : readsFlag e = true → handlesBitfield s.reader = true →
    flagCounts s = true ∨ ¬ HasWanted s.manager s.peerId
  others : ∀ msg ∈ sentElsewhere e, announcesPieces s.peerId msg = false

/-- Interest follows usefulness: when a full pass that read the flags in `s` has succeeded in `t`, a
piece that is recorded for the peer in `s` and not owned in `t` means that `Interested` was sent. -/
def InterestFollows (sha1 : Bytes → Bytes) (start : PeerFsm) (es : List FsmEvent) : Prop :=
  ∀ xs ys s t, es = xs ++ .writer .sample :: ys → run (fsmStep sha1) start xs = some s →
    run (fsmStep sha1) s (.writer .sample :: ys) = some t → t.writer = .waiting →
      ∀ p, Holds s.manager s.peerId p → ¬ Owned t.manager p → .interested ∈ t.sent

/-! ## What the manager records -/

theorem announcesPieces_addPeer_nil (q q' : String) :
    announcesPieces q (.addPeer q' []) = false := by
  simp [announcesPieces]

/-- INTERNAL: a message that announces no pieces of the peer brings none.
SOURCE: torrent_manager.rs:113-364 -/
theorem HasWanted.of_step {m m' : TorrentManagerActor} {msg : TorrentManagerMessage} {env : Env}
    {r : TorrentManagerReply} (hmsg : announcesPieces q msg = false)
    (hstep : managerStep m (msg, env) = some (m', r)) (h : HasWanted m' q) : HasWanted m q := by
  obtain ⟨p, hheld, hwanted⟩ := h
  have hnot : ¬ Owned m p := fun howned => hwanted (owned_of_step hstep howned)
  refine ⟨p, ?_, hnot⟩
  have hrecord {q' : String} {b : Bitfield} {freq : List ℕ} {bucket : Fin 256 → Finset ℕ}
      {work : HashMap String (List (ℕ × Instant))}
      (hne : (q' == q) = true → b.getD p false = false)
      (hheld : Holds (record m q' b freq bucket work) q p) : Holds m q p := by
    obtain ⟨b', hb', hbit⟩ := hheld
    change (m.peerBitfields.insert q' b).lookup q = some b' at hb'
    rw [HashMap.lookup_insert_eq] at hb'
    split_ifs at hb' with heq
    · cases hb'
      rw [hne (by simp [heq])] at hbit
      cases hbit
    · exact ⟨b', hb', hbit⟩
  cases managerEffect hstep with
  | @registered q' b =>
    refine hrecord (fun heq => ?_) hheld
    have hempty : b = [] := by simpa [announcesPieces, heq] using hmsg
    rw [hempty]
    rfl
  | announced | had =>
    refine hrecord (fun heq => ?_) hheld
    rw [announcesPieces, heq] at hmsg
    cases hmsg
  | _ => exact hheld

/-- INTERNAL: a `Have` brings its piece.
SOURCE: torrent_manager.rs:96-112 -/
theorem HasWanted.of_updateBitField {m m' : TorrentManagerActor} {p : ℕ} {env : Env}
    {r : TorrentManagerReply} (hknown : Owned m p ∨ Holds m q p)
    (hstep : managerStep m (.updateBitField q p, env) = some (m', r)) (h : HasWanted m' q) :
    HasWanted m q := by
  obtain ⟨i, hheld, hwanted⟩ := h
  have hnot : ¬ Owned m i := fun howned => hwanted (owned_of_step hstep howned)
  refine ⟨i, ?_, hnot⟩
  cases managerEffect hstep with
  | @had _ _ b freq bucket hb hi =>
    obtain ⟨b', hb', hbit⟩ := hheld
    change (m.peerBitfields.insert q (b.set p true)).lookup q = some b' at hb'
    rw [Finmap.lookup_insert] at hb'
    cases hb'
    by_cases hpi : p = i
    · subst hpi
      exact hknown.resolve_left hnot
    · rw [Bitfield.getD_set hi, if_neg hpi] at hbit
      exact ⟨b, hb, hbit⟩
  | unchanged => exact hheld

/-- INTERNAL: the manager answers whether it has recorded a wanted piece for the peer.
SOURCE: torrent_manager.rs:313-324 -/
theorem useful_answer {m m' : TorrentManagerActor} {env : Env} {b : Bool}
    (hm : ManagerInv torrent options m)
    (hstep : managerStep m (.hasUsefulPieces q, env) = some (m', .useful b)) :
    m' = m ∧ (b = true ∨ ¬ HasWanted m q) := by
  obtain ⟨b', hb', heq⟩ := Option.map_eq_some_iff.mp hstep
  cases heq
  refine ⟨rfl, ?_⟩
  unfold TorrentManagerActor.hasUsefulPieces at hb'
  simp only [Option.bind_eq_bind, Option.bind_eq_some_iff, Option.some.injEq] at hb'
  obtain ⟨peerBf, hpeerBf, rfl⟩ := hb'
  rw [decide_eq_true_eq, Bitfield.countOnes_pos_iff, or_iff_not_imp_right, not_not]
  rintro ⟨p, hheld, hwanted⟩
  refine ⟨p, (Bitfield.getD_and_not _ _ _).mpr ⟨?_, eq_false_of_ne_true hwanted, ?_⟩⟩
  · rw [hm.rarity.length_local]
    exact hm.rarity.held_lt q p hheld
  · obtain ⟨c, hc, hbit⟩ := hheld
    rw [hpeerBf] at hc
    cases hc
    exact hbit

theorem msg_of_useful {m m' : TorrentManagerActor} {msg : TorrentManagerMessage} {env : Env}
    {b : Bool} (hstep : managerStep m (msg, env) = some (m', .useful b)) :
    ∃ q, msg = .hasUsefulPieces q := by
  cases msg with
  | hasUsefulPieces q => exact ⟨q, rfl⟩
  | removePeer | getTorrentStats | getActivePeers | getDataWithLength | getPieceManager =>
    cases hstep
  | _ =>
    obtain ⟨u, -, heq⟩ := Option.map_eq_some_iff.mp hstep
    cases heq

/-! ## The reader's messages -/

/-- The message replaces the bitfield of peer `q` by one that may hold pieces. -/
def replacesBitfield (q : String) : TorrentManagerMessage → Bool
  | .addPeer q' b => q' == q && !b.isEmpty
  | .addBitFeild q' _ => q' == q
  | _ => false

/-- The reader asks whether the peer is useful. -/
def asksUseful (mail : Mail) : Bool :=
  match mail with
  | ⟨.reader, .hasUsefulPieces _⟩ => true
  | _ => false

/-- The message neither announces pieces of the peer nor is the reader's question. -/
def Unrelated (q : String) (mail : Mail) : Prop :=
  asksUseful mail = false ∧ announcesPieces q mail.msg = false

/-- What is in the manager's channel, by where the reader stands: while it handles a `Bitfield`, it
sends nothing but the bitfield and its two questions. -/
def ReaderMail (q : String) (mailbox : List Mail) : ReaderTask → Prop
  | .recorded false => ∀ mail ∈ mailbox, asksUseful mail = false
  | .askingUseful again =>
    ∃ earlier later, mailbox = earlier ++ ⟨.reader, .hasUsefulPieces q⟩ :: later ∧
      (∀ mail ∈ earlier, asksUseful mail = false ∧
        (again = true → announcesPieces q mail.msg = false)) ∧
      ∀ mail ∈ later, Unrelated q mail
  | .recorded true | .useful _ => ∀ mail ∈ mailbox, Unrelated q mail
  | _ => ∀ mail ∈ mailbox, asksUseful mail = false ∧ replacesBitfield q mail.msg = false

theorem replacesBitfield_of_unrelated {mail : Mail} (h : Unrelated q mail) :
    asksUseful mail = false ∧ replacesBitfield q mail.msg = false := by
  obtain ⟨hasks, hannounces⟩ := h
  refine ⟨hasks, ?_⟩
  cases hmsg : mail.msg with
  | addPeer | addBitFeild =>
    rw [hmsg] at hannounces
    exact hannounces
  | _ => rfl

theorem forall_mem_concat {P : Mail → Prop} {l : List Mail} {new : Mail}
    (hl : ∀ mail ∈ l, P mail) (hnew : P new) : ∀ mail ∈ l ++ [new], P mail :=
  List.forall_mem_append.mpr ⟨hl, List.forall_mem_singleton.mpr hnew⟩

/-- INTERNAL: an unrelated message changes nothing, wherever the reader stands. -/
theorem ReaderMail.append {mailbox : List Mail} {new : Mail} {reader : ReaderTask}
    (h : ReaderMail q mailbox reader) (hnew : Unrelated q new) :
    ReaderMail q (mailbox ++ [new]) reader := by
  cases reader with
  | recorded again =>
    cases again with
    | false => exact forall_mem_concat h hnew.1
    | true => exact forall_mem_concat h hnew
  | askingUseful again =>
    obtain ⟨earlier, later, rfl, hearlier, hlater⟩ := h
    exact ⟨earlier, later ++ [new], by simp, hearlier, forall_mem_concat hlater hnew⟩
  | useful => exact forall_mem_concat h hnew
  | _ => exact forall_mem_concat h (replacesBitfield_of_unrelated hnew)

theorem readerMail_iff {mailbox : List Mail} {reader : ReaderTask}
    (h : handlesBitfield reader = false) :
    ReaderMail q mailbox reader ↔
      ∀ mail ∈ mailbox, asksUseful mail = false ∧ replacesBitfield q mail.msg = false := by
  cases reader with
  | recorded | askingUseful | useful => cases h
  | _ => rfl

/-- INTERNAL: the manager's answers take the reader on in the order of its questions.
SOURCE: torrent_manager.rs:494-512 -/
theorem ReaderMail.handle {mailbox : List Mail} {sender : Sender} {msg : TorrentManagerMessage}
    {m m' : TorrentManagerActor} {env : Env} {reply : TorrentManagerReply} {reader : ReaderTask}
    (h : ReaderMail q (⟨sender, msg⟩ :: mailbox) reader)
    (hstep : managerStep m (msg, env) = some (m', reply)) :
    ReaderMail q mailbox (reader.receives sender reply) := by
  cases reader with
  | recorded again =>
    cases again with
    | false => exact (List.forall_mem_cons.mp h).2
    | true => exact (List.forall_mem_cons.mp h).2
  | useful => exact (List.forall_mem_cons.mp h).2
  | askingUseful again =>
    obtain ⟨earlier, later, hbox, hearlier, hlater⟩ := h
    cases earlier with
    | nil =>
      cases hbox
      obtain ⟨b, -, heq⟩ := Option.map_eq_some_iff.mp hstep
      cases heq
      cases again with
      | false => exact hlater
      | true => exact hlater
    | cons mail earlier =>
      obtain ⟨rfl, rfl⟩ := List.cons.inj hbox
      rw [List.forall_mem_cons] at hearlier
      have hsame : (ReaderTask.askingUseful again).receives sender reply = .askingUseful again := by
        cases sender with
        | reader =>
          cases reply with
          | useful b =>
            obtain ⟨q', rfl⟩ := msg_of_useful hstep
            exact absurd hearlier.1.1 (by simp [asksUseful])
          | _ => cases again <;> rfl
        | _ => cases again <;> rfl
      rw [hsame]
      exact ⟨earlier, later, rfl, hearlier.2, hlater⟩
  | unstarted | asking =>
    have hrest := (List.forall_mem_cons.mp h).2
    unfold ReaderTask.receives
    split
    · exact hrest
    · next heq => cases heq
    · next heq => cases heq
    · exact hrest
    · exact hrest
    · exact hrest
  | _ => exact (List.forall_mem_cons.mp h).2

theorem not_handlesBitfield_afterBlock {a : PieceRequestManagerActor} {i off : ℕ} {data : Bytes}
    {tracked : Bool} {a' : Option PieceRequestManagerActor} {reader : ReaderTask}
    (h : PeerFsm.afterBlock sha1 a i off data tracked = (a', reader)) :
    handlesBitfield reader = false := by
  unfold PeerFsm.afterBlock at h
  split at h <;> cases h <;> rfl

/-- What a step of the reader does about the flag: it begins to handle a `Bitfield`, asks whether
the peer is useful, sets the flag, or has nothing to do with it. -/
inductive FlagMove (s : PeerFsm) : PeerFsm → Prop
  | begins {b : Bitfield} (hr : s.reader = .idle) :
      FlagMove s
        { s with
          reader := .recorded false
          mailbox := s.mailbox ++ [⟨.reader, .addBitFeild s.peerId b⟩] }
  | asks {again : Bool} (hr : s.reader = .recorded again) :
      FlagMove s
        { s with
          reader := .askingUseful again
          mailbox := s.mailbox ++ [⟨.reader, .hasUsefulPieces s.peerId⟩] }
  | sets {hasUseful : Bool} (hr : s.reader = .useful hasUseful) :
      FlagMove s { s with reader := .idle, hasUsefulPieces := hasUseful }
  | outside {t : PeerFsm} (hbefore : handlesBitfield s.reader = false)
      (hafter : handlesBitfield t.reader = false) (hflag : t.hasUsefulPieces = s.hasUsefulPieces)
      (hmail : ∃ new, t.mailbox = s.mailbox ++ new ∧
        ∀ mail ∈ new, asksUseful mail = false ∧ replacesBitfield s.peerId mail.msg = false) :
      FlagMove s t

/-- INTERNAL: everything a step of the reader does about the flag.
SOURCE: peer_protocol_state_machine.rs:298-395 -/
theorem flagMove {a : ReaderAct} (hmove : ReaderTaskMove sha1 s a t) : FlagMove s t := by
  have hnothing : ∃ new, s.mailbox = s.mailbox ++ new ∧
      ∀ mail ∈ new, asksUseful mail = false ∧ replacesBitfield s.peerId mail.msg = false :=
    ⟨[], (List.append_nil _).symm, nofun⟩
  have hone {new : Mail}
      (hnew : asksUseful new = false ∧ replacesBitfield s.peerId new.msg = false) :
      ∃ news, s.mailbox ++ [new] = s.mailbox ++ news ∧
        ∀ mail ∈ news, asksUseful mail = false ∧ replacesBitfield s.peerId mail.msg = false :=
    ⟨[new], rfl, List.forall_mem_singleton.mpr hnew⟩
  cases hmove with
  | bitfield hr => exact .begins hr
  | askUseful hr => exact .asks hr
  | setUseful hr => exact .sets hr
  | had hr => exact .outside (by rw [hr]; rfl) (by rw [hr]; rfl) rfl (hone ⟨rfl, rfl⟩)
  | untracked hr => exact .outside (by rw [hr]; rfl) rfl rfl (hone ⟨rfl, rfl⟩)
  | @pieceFinish i tracked hr =>
    exact .outside (by rw [hr]; rfl) (by cases tracked <;> rfl) rfl (hone ⟨rfl, rfl⟩)
  | unchoke hr | peerInterest hr | ignored hr =>
    exact .outside (by rw [hr]; rfl) (by rw [hr]; rfl) rfl hnothing
  | delivered hr ha hafter =>
    exact .outside (by rw [hr]; rfl) (not_handlesBitfield_afterBlock hafter) rfl hnothing
  | _ hr => exact .outside (by rw [hr]; rfl) rfl rfl hnothing

/-- INTERNAL: a step of the reader keeps the order of its messages.
SOURCE: peer_protocol_state_machine.rs:321-332 -/
theorem ReaderMail.reader (h : ReaderMail s.peerId s.mailbox s.reader) (hmove : FlagMove s t) :
    ReaderMail s.peerId t.mailbox t.reader := by
  cases hmove with
  | begins hr =>
    rw [hr] at h
    exact forall_mem_concat (fun mail hmail => (h mail hmail).1) rfl
  | @asks again hr =>
    rw [hr] at h
    cases again with
    | false => exact ⟨s.mailbox, [], rfl, fun mail hmail => ⟨h mail hmail, nofun⟩, nofun⟩
    | true =>
      exact ⟨s.mailbox, [], rfl, fun mail hmail => ⟨(h mail hmail).1, fun _ => (h mail hmail).2⟩,
        nofun⟩
  | sets hr =>
    rw [hr] at h
    exact fun mail hmail => replacesBitfield_of_unrelated (h mail hmail)
  | outside hbefore hafter hflag hmail =>
    obtain ⟨new, hmail, hnew⟩ := hmail
    rw [readerMail_iff hbefore] at h
    rw [readerMail_iff hafter, hmail]
    exact List.forall_mem_append.mpr ⟨h, hnew⟩

/-- INTERNAL: every step that keeps the flag up keeps the order of the reader's messages. -/
theorem readerMail_step {e : FsmEvent} {r : Unit} (h : ReaderMail s.peerId s.mailbox s.reader)
    (he : UsefulnessKept s e) (hstep : fsmStep sha1 s e = some (t, r)) :
    t.peerId = s.peerId ∧ ReaderMail t.peerId t.mailbox t.reader := by
  cases fsmMove hstep with
  | register => exact ⟨rfl, h.append ⟨rfl, announcesPieces_addPeer_nil _ _⟩⟩
  | handle hmail hmanager =>
    rw [hmail] at h
    exact ⟨rfl, h.handle hmanager⟩
  | elsewhere => exact ⟨rfl, h.append ⟨rfl, he.others _ rfl⟩⟩
  | pieceActor => exact ⟨rfl, h⟩
  | writer hmove =>
    cases hmove with
    | asks => exact ⟨rfl, h.append ⟨rfl, rfl⟩⟩
    | _ => exact ⟨rfl, h⟩
  | reader hmove =>
    have hpeer : t.peerId = s.peerId := by cases hmove <;> rfl
    rw [hpeer]
    exact ⟨rfl, h.reader (flagMove hmove)⟩
  | watchdog hmove =>
    cases hmove with
    | tick => exact ⟨rfl, h.append ⟨rfl, rfl⟩⟩
    | _ => exact ⟨rfl, h⟩

/-! ## The flag -/

/-- The flag keeps up with what the manager records, except while a `Bitfield` is handled; and the
answer that it is about to be set to is right. -/
structure FlagInv (torrent : ClientTorrentMetaInfo) (options : PeerOptions) (s : PeerFsm) :
    Prop where
  manager : ManagerInv torrent options s.manager
  mail : ReaderMail s.peerId s.mailbox s.reader
  flag : flagCounts s = true ∨ handlesBitfield s.reader = true ∨ ¬ HasWanted s.manager s.peerId
  answer : ∀ hasUseful, s.reader = .useful hasUseful →
    hasUseful = true ∨ ¬ HasWanted s.manager s.peerId
  sent : s.amInterested = true ∨ (∃ isChoked, s.writer = .interested isChoked) →
    .interested ∈ s.sent

theorem flagCounts_iff : flagCounts s = true ↔
    s.hasUsefulPieces = true ∨ s.amInterested = true ∨ decidesInterest s.writer = true := by
  simp [flagCounts, interestDecided]

/-- INTERNAL: what is decided stays decided, and the writer leaves the flag alone.
SOURCE: peer_protocol_state_machine.rs:113-125 -/
theorem flagCounts_writer {a : WriterAct} (h : flagCounts s = true)
    (hmove : WriterTaskMove s a t) : flagCounts t = true := by
  rw [flagCounts_iff] at h ⊢
  cases hmove with
  | interest | sendInterested | fails => exact Or.inr (Or.inr rfl)
  | setInterested => exact Or.inr (Or.inl rfl)
  | _ hw =>
    rw [hw] at h
    exact h.imp_right fun h => Or.inl (h.resolve_right Bool.false_ne_true)

theorem decidesInterest_receives (task : WriterTask) (sender : Sender)
    (reply : TorrentManagerReply) :
    decidesInterest (task.receives sender reply) = decidesInterest task := by
  unfold WriterTask.receives
  split <;> rfl

/-- INTERNAL: a message that the manager handles does not leave the flag behind.
SOURCE: torrent_manager.rs:113-364 -/
theorem flag_handle {env env' : Env} {sender : Sender} {msg : TorrentManagerMessage}
    {mailbox : List Mail} {m' : TorrentManagerActor} {reply : TorrentManagerReply}
    (h : FlagInv torrent options s) (hkept : UsefulnessKept s (.handle env))
    (hmail : s.mailbox = ⟨sender, msg⟩ :: mailbox)
    (hstep : managerStep s.manager (msg, env') = some (m', reply)) :
    flagCounts s = true ∨ handlesBitfield s.reader = true ∨ ¬ HasWanted m' s.peerId := by
  cases hreader : handlesBitfield s.reader with
  | true => exact Or.inr (Or.inl rfl)
  | false =>
    have hbox := (readerMail_iff hreader).mp h.mail
    rw [hmail] at hbox
    have hreplaces := (hbox _ List.mem_cons_self).2
    have hold := h.flag
    rw [hreader] at hold
    by_cases hannounces : announcesPieces s.peerId msg = false
    · refine hold.imp_right fun hnot => Or.inr fun hwanted => ?_
      exact (hnot.resolve_left Bool.false_ne_true) (hwanted.of_step hannounces hstep)
    · cases msg with
      | updateBitField q p =>
        obtain rfl : q = s.peerId := by simpa [announcesPieces] using hannounces
        have hbrings : flagCounts s = true ∨ Owned s.manager p ∨ Holds s.manager s.peerId p := by
          have hhave := hkept.haves p (by simp [handledHave, hmail])
          rw [hreader] at hhave
          exact hhave.imp_right fun h => h.resolve_left Bool.false_ne_true
        rcases hbrings with hcounts | hknown
        · exact Or.inl hcounts
        · refine hold.imp_right fun hnot => Or.inr fun hwanted => ?_
          exact (hnot.resolve_left Bool.false_ne_true) (hwanted.of_updateBitField hknown hstep)
      | addPeer | addBitFeild => exact absurd hreplaces hannounces
      | _ => exact absurd rfl hannounces

/-- INTERNAL: the answer that the flag is set to is right when it comes, and stays right.
SOURCE: torrent_manager.rs:313-324, peer_protocol_state_machine.rs:324-328 -/
theorem answer_handle {env : Env} {sender : Sender} {msg : TorrentManagerMessage}
    {mailbox : List Mail} {m' : TorrentManagerActor} {reply : TorrentManagerReply}
    {hasUseful : Bool} (h : FlagInv torrent options s)
    (hmail : s.mailbox = ⟨sender, msg⟩ :: mailbox)
    (hstep : managerStep s.manager (msg, env) = some (m', reply))
    (hreader : s.reader.receives sender reply = .useful hasUseful) :
    hasUseful = true ∨ ¬ HasWanted m' s.peerId := by
  have hbox := h.mail
  rw [hmail] at hbox
  unfold ReaderTask.receives at hreader
  split at hreader
  · cases hreader
  · cases hreader
  · next hasks =>
    cases hreader
    obtain ⟨q, rfl⟩ := msg_of_useful hstep
    rw [hasks] at hbox
    obtain ⟨earlier, later, hbox, hearlier, -⟩ := hbox
    cases earlier with
    | nil =>
      cases hbox
      obtain ⟨rfl, hanswer⟩ := useful_answer h.manager hstep
      exact hanswer
    | cons mail earlier =>
      cases hbox
      exact absurd (hearlier _ List.mem_cons_self).1 (by simp [asksUseful])
  · cases hreader
  · cases hreader
  · rw [hreader] at hbox
    refine (h.answer hasUseful hreader).imp_right fun hnot hwanted => hnot ?_
    exact hwanted.of_step (hbox _ List.mem_cons_self).2 hstep

theorem handlesBitfield_receives {task : ReaderTask} (sender : Sender)
    (reply : TorrentManagerReply) (h : handlesBitfield task = true) :
    handlesBitfield (task.receives sender reply) = true := by
  unfold ReaderTask.receives
  split
  · cases h
  · rfl
  · rfl
  · cases h
  · cases h
  · exact h

/-- INTERNAL: `am_interested` is set once `Interested` is sent.
SOURCE: peer_protocol_state_machine.rs:118-125 -/
theorem interested_writer {a : WriterAct}
    (h : s.amInterested = true ∨ (∃ isChoked, s.writer = .interested isChoked) →
      .interested ∈ s.sent) (hmove : WriterTaskMove s a t)
    (ht : t.amInterested = true ∨ ∃ isChoked, t.writer = .interested isChoked) :
    .interested ∈ t.sent := by
  have hhead {task : WriterTask} (htask : atHead task = true) :
      ¬ ∃ isChoked, task = .interested isChoked := by
    rintro ⟨isChoked, rfl⟩
    cases htask
  cases hmove with
  | sendInterested => exact List.mem_append_right _ (List.mem_singleton_self _)
  | setInterested hw => exact h (Or.inr ⟨_, hw⟩)
  | sendBitfield | sendRequest =>
    exact List.mem_append_left _ (h (Or.inl (ht.resolve_right nofun)))
  | windowShut => exact h (Or.inl (ht.resolve_right (hhead (atHead_returns _ _))))
  | pick | noBlocks | gone => exact h (Or.inl (ht.resolve_right (hhead (atHead_tryNext _ _ _))))
  | countRequest => exact h (Or.inl (ht.resolve_right (hhead (atHead_sendNext _ _ _))))
  | _ => exact h (Or.inl (ht.resolve_right nofun))

/-- INTERNAL: the reader neither sends nor decides. -/
theorem interest_reader {a : ReaderAct} (hmove : ReaderTaskMove sha1 s a t) :
    t.amInterested = s.amInterested ∧ t.peerId = s.peerId := by
  cases hmove <;> exact ⟨rfl, rfl⟩

/-- INTERNAL: every step that keeps the flag up keeps that it is. -/
theorem flagInv_step {e : FsmEvent} {r : Unit} (h : FlagInv torrent options s)
    (he : UsefulnessKept s e) (hstep : fsmStep sha1 s e = some (t, r)) :
    FlagInv torrent options t := by
  obtain ⟨-, hmail⟩ := readerMail_step h.mail he hstep
  cases fsmMove hstep with
  | register hw =>
    refine ⟨h.manager, hmail, h.flag.imp_left fun hcounts => ?_, h.answer, ?_⟩
    · rw [flagCounts_iff, hw] at hcounts
      exact flagCounts_iff.mpr hcounts
    · exact fun ht => h.sent (Or.inl (ht.resolve_right nofun))
  | elsewhere | pieceActor => exact ⟨h.manager, hmail, h.flag, h.answer, h.sent⟩
  | @handle env sender msg mailbox manager reply hbox hmanager =>
    refine ⟨managerInv_step h.manager hmanager, hmail, ?_, ?_, ?_⟩
    · rcases flag_handle h he hbox hmanager with hcounts | hhandles | hnot
      · rw [flagCounts_iff, ← decidesInterest_receives s.writer sender reply] at hcounts
        exact Or.inl (flagCounts_iff.mpr hcounts)
      · exact Or.inr (Or.inl (handlesBitfield_receives sender reply hhandles))
      · exact Or.inr (Or.inr hnot)
    · intro hasUseful hreader
      change hasUseful = true ∨ ¬ HasWanted manager s.peerId
      exact answer_handle h hbox hmanager hreader
    · rintro (hinterested | ⟨isChoked, hw⟩)
      · exact h.sent (Or.inl hinterested)
      · exact h.sent (Or.inr ⟨isChoked, eq_of_receives hw nofun nofun nofun⟩)
  | writer hmove =>
    have hrest : t.manager = s.manager ∧ t.reader = s.reader ∧ t.peerId = s.peerId := by
      cases hmove <;> exact ⟨rfl, rfl, rfl⟩
    obtain ⟨hmanager, hreader, hpeer⟩ := hrest
    refine ⟨hmanager ▸ h.manager, hmail, ?_, ?_, interested_writer h.sent hmove⟩
    · rw [hmanager, hreader, hpeer]
      exact h.flag.imp_left fun hcounts => flagCounts_writer hcounts hmove
    · rw [hmanager, hreader, hpeer]
      exact h.answer
  | reader hmove =>
    obtain ⟨hmanager, hwriter, hsent⟩ := rest_reader hmove
    obtain ⟨hinterested, hpeer⟩ := interest_reader hmove
    refine ⟨hmanager ▸ h.manager, hmail, ?_, ?_, ?_⟩
    · rw [hmanager, hpeer]
      cases flagMove hmove with
      | begins | asks => exact Or.inr (Or.inl rfl)
      | sets hr =>
        exact (h.answer _ hr).imp (fun huseful => flagCounts_iff.mpr (Or.inl huseful)) Or.inr
      | outside hbefore hafter hflag =>
        have hold := h.flag
        rw [hbefore] at hold
        rw [flagCounts_iff, hflag, hinterested, hwriter, ← flagCounts_iff]
        exact hold.imp_right fun hnot => Or.inr (hnot.resolve_left Bool.false_ne_true)
    · rw [hmanager, hpeer]
      cases flagMove hmove with
      | outside hbefore hafter =>
        intro hasUseful hr
        rw [hr] at hafter
        cases hafter
      | _ => exact nofun
    · rw [hinterested, hwriter, hsent]
      exact h.sent
  | watchdog hmove => cases hmove <;> exact ⟨h.manager, hmail, h.flag, h.answer, h.sent⟩

theorem flagInv_new (h : PeerFsm.new torrent options peerId = some s) :
    FlagInv torrent options s := by
  obtain ⟨manager, hmanager, rfl⟩ := fsm_new_eq_some h
  exact ⟨managerInv_new hmanager, nofun, Or.inl rfl, nofun, fun h => absurd h (by simp)⟩

/-- INTERNAL: the invariant holds wherever a run that keeps usefulness comes. -/
theorem flagInv_run {start : PeerFsm} (hstart : PeerFsm.new torrent options peerId = some start)
    {es : List FsmEvent} (hes : AllSteps (fsmStep sha1) UsefulnessKept start es)
    (hrun : run (fsmStep sha1) start es = some t) : FlagInv torrent options t :=
  (allStates_of_invariant (FlagInv torrent options)
    (fun _ _ _ _ h he hstep => flagInv_step h he hstep) (fun _ h => h) (flagInv_new hstart)
    hes).last hrun

/-! ## The result -/

theorem owned_fsmStep {e : FsmEvent} {r : Unit} {p : ℕ} (h : Owned s.manager p)
    (hstep : fsmStep sha1 s e = some (t, r)) : Owned t.manager p := by
  cases fsmMove hstep with
  | handle hmail hmanager => exact owned_of_step hmanager h
  | writer hmove => exact manager_writer hmove ▸ h
  | reader hmove => exact (rest_reader hmove).1 ▸ h
  | watchdog hmove => exact (rest_watchdog hmove).1 ▸ h
  | _ => exact h

/-- INTERNAL: what is decided stays decided. -/
theorem interestDecided_step {e : FsmEvent} {r : Unit} (h : interestDecided s = true)
    (hstep : fsmStep sha1 s e = some (t, r)) : interestDecided t = true := by
  have hiff (u : PeerFsm) : interestDecided u = true ↔
      u.amInterested = true ∨ decidesInterest u.writer = true := by
    simp [interestDecided]
  rw [hiff] at h ⊢
  cases fsmMove hstep with
  | register hw =>
    rw [hw] at h
    exact Or.inl (h.resolve_right Bool.false_ne_true)
  | @handle env sender msg mailbox manager reply =>
    rw [← decidesInterest_receives s.writer sender reply] at h
    exact h
  | writer hmove =>
    cases hmove with
    | interest | sendInterested | fails => exact Or.inr rfl
    | setInterested => exact Or.inl rfl
    | _ hw =>
      rw [hw] at h
      exact Or.inl (h.resolve_right Bool.false_ne_true)
  | reader hmove =>
    rw [(interest_reader hmove).1, (rest_reader hmove).2.1]
    exact h
  | watchdog hmove => cases hmove <;> exact h
  | _ => exact h

/-- INTERNAL: a pass that reads the flag set decides.
SOURCE: peer_protocol_state_machine.rs:113-125 -/
theorem decided_sample {r : Unit} (h : flagCounts s = true)
    (hstep : fsmStep sha1 s (.writer .sample) = some (t, r)) : interestDecided t = true := by
  cases fsmMove hstep with
  | writer hmove =>
    cases hmove with
    | interest => simp [interestDecided, decidesInterest]
    | noInterest hw hnot =>
      rw [flagCounts_iff, hw] at h
      have hinterested : s.amInterested = true := by
        rcases h with huseful | hinterested | hdecides
        · exact hnot.resolve_left (by simp [huseful])
        · exact hinterested
        · cases hdecides
      simp [interestDecided, hinterested]
    | fails hfails => rcases hfails with ⟨ha, -⟩ | ⟨ha, -⟩ | ⟨ha, -⟩ <;> cases ha

/-- **Interest follows usefulness when the flag keeps up.** In every run in which no `Have` brings a
wanted piece while the flag is cleared and `Interested` is not decided, the flag is not read while a
useful `Bitfield` is handled, and nobody else announces pieces of the peer: when a full pass has
succeeded and the bitfield that was recorded for the peer when the pass began contains a piece that
is not owned, `Interested` was sent.
SOURCE: peer_protocol_state_machine.rs:105-125, peer_protocol_state_machine.rs:318-332,
torrent_manager.rs:313-324, peer_handshake.rs:39-53 -/
theorem interest_follows_usefulness {start : PeerFsm}
    (hstart : PeerFsm.new torrent options peerId = some start) {es : List FsmEvent}
    (hes : AllSteps (fsmStep sha1) UsefulnessKept start es) : InterestFollows sha1 start es := by
  rintro xs ys s t rfl hs ht hreturned p hheld hwanted
  have hinv := flagInv_run hstart hes.left hs
  have hkept := hes.at_split hs
  obtain ⟨u, r, hsample, hrun⟩ := run_cons_eq_some.mp ht
  have howned (hnot : ¬ HasWanted s.manager s.peerId) : False := by
    have hown : Owned s.manager p := by
      by_contra hmissing
      exact hnot ⟨p, hheld, hmissing⟩
    exact hwanted (run_invariant (fun _ _ _ _ h hstep => owned_fsmStep h hstep) hown ht)
  have hcounts : flagCounts s = true := by
    rcases hinv.flag with hcounts | hhandles | hnot
    · exact hcounts
    · exact (hkept.reads rfl hhandles).resolve_right howned
    · exact (howned hnot).elim
  have hdecided := decided_sample hcounts hsample
  have hend : interestDecided t = true :=
    run_invariant (fun _ _ _ _ h hstep => interestDecided_step h hstep) hdecided hrun
  have hinvEnd : FlagInv torrent options t :=
    flagInv_run hstart hes (run_append.mpr ⟨s, hs, ht⟩)
  refine hinvEnd.sent (Or.inl ?_)
  simpa [interestDecided, hreturned, decidesInterest] using hend

instance (m : TorrentManagerActor) (q : String) : Decidable (HasWanted m q) :=
  match h : m.peerBitfields.lookup q with
  | none => isFalse fun ⟨_, ⟨_, hb, _⟩, _⟩ => nomatch h.symm.trans hb
  | some b => decidable_of_iff (∃ p ∈ b.iterOnes, ¬ Owned m p) <| by
      simp [HasWanted, Holds, h, Bitfield.mem_iterOnes]

instance (s : PeerFsm) (e : FsmEvent) : Decidable (UsefulnessKept s e) :=
  decidable_of_iff
    ((∀ p ∈ handledHave s e, flagCounts s = true ∨ handlesBitfield s.reader = true ∨
        Owned s.manager p ∨ Holds s.manager s.peerId p) ∧
      (readsFlag e = true → handlesBitfield s.reader = true →
        flagCounts s = true ∨ ¬ HasWanted s.manager s.peerId) ∧
      ∀ msg ∈ sentElsewhere e, announcesPieces s.peerId msg = false)
    ⟨fun h => ⟨h.1, h.2.1, h.2.2⟩, fun h => ⟨h.haves, h.reads, h.others⟩⟩

/-- The reader handles the peer's `Bitfield`, by which it has no piece. -/
def emptyBitfield : List FsmEvent :=
  [.reader (.take (.bitfield [false])), .handle .quiet, .reader .askUseful, .handle .quiet,
    .reader .askUseful, .handle .quiet, .reader .setUseful]

/-- The peer has obtained the piece. -/
def haveFollows : List FsmEvent := [.reader (.take (.have 0)), .handle .quiet]

/-- A full pass of a choked connection that reads the flag cleared or has sent `Interested`. -/
def chokedPass : List FsmEvent := [.writer .sample, .writer .loadCount, .writer .loadInflight]

/-- The start-up pass sends `Interested` before the `Bitfield` is handled. -/
def interestFirst : List FsmEvent :=
  [.register, .handle .quiet, .writer (.sendBitfield true), .writer .sample,
    .writer (.sendInterested true), .writer .setInterested, .writer .loadCount,
    .writer .loadInflight] ++ emptyBitfield ++ haveFollows ++ [.writer .beginPass] ++ chokedPass

/-- The run goes through, and every pass leaves the connection interested. -/
theorem interest_follows_usefulness_first :
    (run (fsmStep fun _ => []) fsmStart interestFirst).isSome = true ∧
      InterestFollows (fun _ => []) fsmStart interestFirst :=
  ⟨by decide +kernel, interest_follows_usefulness new_fsmStart (by decide +kernel)⟩

/-- The `Bitfield` and the `Have` are handled before the start-up pass. -/
def bitfieldFirst : List FsmEvent :=
  [.register, .handle .quiet] ++ emptyBitfield ++ haveFollows ++ [.writer (.sendBitfield true)]

/-- The state in which the start-up pass begins. -/
def beforeStartUp : PeerFsm :=
  (run (fsmStep fun _ => []) fsmStart bitfieldFirst).get (by decide +kernel)

/-- The state after the start-up pass. -/
def afterStartUp : PeerFsm :=
  (run (fsmStep fun _ => []) beforeStartUp chokedPass).get (by decide +kernel)

/-- The peer announces the piece, and the start-up pass ends without `Interested`. -/
theorem have_without_interest :
    afterStartUp.sent = [.bitfield [false]] ∧
      ¬ InterestFollows (fun _ => []) fsmStart (bitfieldFirst ++ chokedPass) := by
  have hsent : afterStartUp.sent = [.bitfield [false]] := by decide +kernel
  refine ⟨hsent, fun h => ?_⟩
  have hmem := h bitfieldFirst [.writer .loadCount, .writer .loadInflight] beforeStartUp
    afterStartUp rfl (Option.some_get _).symm (Option.some_get _).symm (by decide +kernel) 0
    (by decide +kernel) (by decide +kernel)
  rw [hsent] at hmem
  revert hmem
  decide +kernel

end Fissure.Analysis
