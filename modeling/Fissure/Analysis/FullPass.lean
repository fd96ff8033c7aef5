import Mathlib.Data.Prod.Lex
import Fissure.Analysis.LegalRequests

/-!
# A full pass of the writer

A full pass looks at the request window once it has asked the manager for work. With the window open
and a requestable block in an active piece, the loop over the candidates ends at one that gives it
blocks, whatever the order in which they are tried. `PassState` says where such a pass can be, and
from it follow both halves of `PassSends`: no pass comes back to `select!` without a `Request`, and
some pass gets as far as one, unless the manager is down.
-/

set_option autoImplicit false

namespace Fissure.Analysis

open Fissure.Library Fissure.Model
open Fissure.Model.PieceRequestManagerActor

variable {torrent : ClientTorrentMetaInfo} {options : PeerOptions} {peerId : String}
variable {sha1 : Bytes → Bytes} {s t : PeerFsm}

/-! ## The managers that a connection holds -/

/-- INTERNAL: a manager that is held stays current: only a finished piece gives its manager up.
SOURCE: torrent_manager.rs:113-364 -/
theorem Current.of_managerStep {m m' : TorrentManagerActor} {mgr : PieceRequestManager}
    {msg : TorrentManagerMessage} {env : Env} {r : TorrentManagerReply} (h : Current m mgr)
    (hstep : managerStep m (msg, env) = some (m', r)) : Current m' mgr := by
  rcases h with howned | hactive
  · exact Or.inl (owned_of_step hstep howned)
  · cases managerEffect hstep with
    | unchanged => exact Or.inr hactive
    | @finished q p notifier stats log hlt =>
      by_cases hp : mgr.index = p
      · exact Or.inl ((owned_claim hlt _).mpr (Or.inl hp))
      · right
        change (m.activePiecesManager.erase p).lookup mgr.index = some mgr
        rw [HashMap.lookup_erase_eq, if_neg hp]
        exact hactive
    | _ => exact Or.inr ((active_of_not_pieceFinish hstep rfl).lookup hactive)

/-- INTERNAL: the manager of the piece that is granted is current, and nobody holds another one.
SOURCE: torrent_manager.rs:197-206 -/
theorem current_of_work {m m' : TorrentManagerActor} {req : PieceRequestManager}
    {msg : TorrentManagerMessage} {env : Env} (hm : ManagerInv torrent options m)
    (hstep : managerStep m (msg, env) = some (m', .work (some req))) :
    Current m' req ∧ ∀ mgr, Current m mgr → mgr.index = req.index → req = mgr := by
  cases managerEffect hstep with
  | unchanged _ _ hr => exact absurd rfl (hr req)
  | @assigned q b p count work _ hb hfind hcount hwork hof =>
    have hindex : req.index = p := (hm.managesPiece hof).index_eq
    have hunowned := (selectable_iff.mp (List.find?_some hfind)).unowned
    unfold Current
    rw [hindex]
    refine ⟨Or.inr (Finmap.lookup_insert _), ?_⟩
    rintro mgr hmgr rfl
    have hactive := hmgr.resolve_left (ne_true_of_eq_false hunowned)
    unfold ManagerOf at hof
    rw [hactive] at hof
    exact hof

/-- The connection holds current managers, each under its piece, and the writer's only message to
the manager is its `RequestWork`. -/
structure CurrentInv (torrent : ClientTorrentMetaInfo) (options : PeerOptions) (s : PeerFsm) :
    Prop where
  manager : ManagerInv torrent options s.manager
  mail : ∀ mail ∈ s.mailbox, mail.sender = .writer → mail.msg = .requestWork s.peerId
  requests : ∀ p mgr, s.activeRequests.lookup p = some mgr → mgr.index = p ∧ Current s.manager mgr
  granted : ∀ isChoked req, s.writer = .granted isChoked req → Current s.manager req

/-- INTERNAL: the writer is granted a piece in the answer to its own message. -/
theorem granted_receives {task : WriterTask} {sender : Sender} {reply : TorrentManagerReply}
    {isChoked : Bool} {req : PieceRequestManager}
    (h : task.receives sender reply = .granted isChoked req) :
    task = .granted isChoked req ∨ reply = .work (some req) := by
  unfold WriterTask.receives at h
  split at h
  · cases h
  · cases h
    exact Or.inr rfl
  · cases h
  · exact Or.inl h

theorem granted_writer {a : WriterAct} {isChoked : Bool} {req : PieceRequestManager}
    (hmove : WriterTaskMove s a t) : t.writer ≠ .granted isChoked req := by
  have hhead {task : WriterTask} (h : atHead task = true) : task ≠ .granted isChoked req := by
    rintro rfl
    cases h
  cases hmove with
  | windowShut => exact hhead (atHead_returns _ _)
  | pick | noBlocks | gone => exact hhead (atHead_tryNext _ _ _)
  | countRequest => exact hhead (atHead_sendNext _ _ _)
  | _ => exact nofun

theorem currentInv_step {e : FsmEvent} {r : Unit} (h : CurrentInv torrent options s)
    (hstep : fsmStep sha1 s e = some (t, r)) : CurrentInv torrent options t := by
  obtain ⟨hpeer, hmail⟩ := mail_step hstep h.mail
  rw [← hpeer] at hmail
  have hrequests (p : ℕ) (mgr : PieceRequestManager)
      (hmgr : t.activeRequests.lookup p = some mgr) : mgr.index = p ∧ Current s.manager mgr := by
    rcases requests_step hstep hmgr with hmgr | ⟨rfl, isChoked, hw⟩
    · exact h.requests p mgr hmgr
    · exact ⟨rfl, h.granted isChoked mgr hw⟩
  have hsame (hmanager : t.manager = s.manager)
      (hwriter : ∀ isChoked req, t.writer = .granted isChoked req →
        s.writer = .granted isChoked req) : CurrentInv torrent options t := by
    refine ⟨hmanager ▸ h.manager, hmail, ?_, ?_⟩
    · rw [hmanager]
      exact hrequests
    · intro isChoked req hw
      rw [hmanager]
      exact h.granted isChoked req (hwriter isChoked req hw)
  cases fsmMove hstep with
  | register => exact hsame rfl nofun
  | elsewhere | pieceActor => exact hsame rfl fun _ _ hw => hw
  | handle hhead hmanager =>
    refine ⟨managerInv_step h.manager hmanager, hmail, ?_, ?_⟩
    · intro p mgr hmgr
      exact (hrequests p mgr hmgr).imp_right fun hcurrent => hcurrent.of_managerStep hmanager
    · intro isChoked req hw
      rcases granted_receives hw with hw | rfl
      · exact (h.granted isChoked req hw).of_managerStep hmanager
      · exact (current_of_work h.manager hmanager).1
  | writer hmove =>
    exact hsame (manager_writer hmove) fun _ _ hw => absurd hw (granted_writer hmove)
  | reader hmove =>
    obtain ⟨hmanager, hwriter, -⟩ := rest_reader hmove
    exact hsame hmanager fun _ _ hw => hwriter ▸ hw
  | watchdog hmove =>
    obtain ⟨hmanager, hwriter, -⟩ := rest_watchdog hmove
    exact hsame hmanager fun _ _ hw => hwriter ▸ hw

theorem currentInv_new (h : PeerFsm.new torrent options peerId = some s) :
    CurrentInv torrent options s := by
  obtain ⟨manager, hmanager, rfl⟩ := fsm_new_eq_some h
  refine ⟨managerInv_new hmanager, nofun, ?_, nofun⟩
  intro p mgr hmgr
  rw [Finmap.lookup_empty] at hmgr
  cases hmgr

/-! ## What a pass is -/

/-- The message asks for a block. -/
def isRequest : PeerMessage → Bool
  | .request .. => true
  | _ => false

/-- How many `Request`s have been sent to the peer. -/
def requestsSent (s : PeerFsm) : ℕ := s.sent.countP isRequest

/-- What happens in a pass: the writer goes on, and the manager handles messages. -/
def passEvent : FsmEvent → Bool
  | .writer _ | .handle _ => true
  | _ => false

/-- The actor of the piece has a requestable block. -/
def Offers (s : PeerFsm) (mgr : PieceRequestManager) : Prop :=
  ∃ a i, s.pieceActor mgr.send = some a ∧ a.requestable i = true

/-- Some active piece of the peer has a requestable block. -/
def HasRequestable (s : PeerFsm) : Prop :=
  ∃ p mgr, s.activeRequests.lookup p = some mgr ∧ Offers s mgr

/-- The writer waits for the manager, which does not survive the next message it has. -/
def ManagerDown (s : PeerFsm) : Prop :=
  (∃ isChoked, s.writer = .requesting isChoked) ∧ s.mailbox ≠ [] ∧ ∀ env, s.handle env = none

/-- A full pass sends at least one `Request`: none comes back to `select!` without, and there is one
that gets as far, unless the manager is down. -/
structure PassSends (sha1 : Bytes → Bytes) (s : PeerFsm) : Prop where
  returns : ∀ es t, (∀ e ∈ es, passEvent e = true) →
    run (fsmStep sha1) s (.writer .beginPass :: es) = some t → t.writer = .waiting →
      requestsSent s < requestsSent t
  reaches : ∃ es t, (∀ e ∈ es, passEvent e = true) ∧
    run (fsmStep sha1) s (.writer .beginPass :: es) = some t ∧
      (requestsSent s < requestsSent t ∨ ManagerDown t)

/-! ## Where a pass can be -/

/-- The writer is in a pass that began unchoked and has sent nothing yet; where it tries the
candidates, `mgr` is among them. -/
def OnTheWay (mgr : PieceRequestManager) : WriterTask → Prop
  | .passing => True
  | .interesting isChoked | .interested isChoked | .counting isChoked | .requesting isChoked
  | .granted isChoked _ | .inserted isChoked _ => isChoked = false
  | .toppingOff pass => pass.isChoked = false
  | .picking _ availableWindow => availableWindow % 2 ^ 32 ≠ 0
  | .trying _ availableWindow candidates => availableWindow % 2 ^ 32 ≠ 0 ∧ mgr ∈ candidates
  | _ => False

/-- The free part of the window, as it is passed to `request_block`. -/
def freeWindow (s : PeerFsm) : ℕ :=
  (s.peerOptions.perPeerInflightCount - s.inflightMessages) % 2 ^ 32

/-- A pass is under way in which the active piece `p` can give blocks. -/
structure UnderWay (torrent : ClientTorrentMetaInfo) (options : PeerOptions) (p : ℕ)
    (mgr : PieceRequestManager) (s : PeerFsm) : Prop where
  current : CurrentInv torrent options s
  window : freeWindow s ≠ 0
  unchoked : s.peerChoking = false
  active : s.activeRequests.lookup p = some mgr
  offers : Offers s mgr
  granted : ∀ isChoked req, s.writer = .granted isChoked req → req.index = p → req = mgr
  asked : ∀ isChoked, s.writer = .requesting isChoked → ∃ mail ∈ s.mailbox, mail.sender = .writer
  stage : OnTheWay mgr s.writer

/-- Where a pass can be when `n` `Request`s were sent before it. -/
inductive PassState (torrent : ClientTorrentMetaInfo) (options : PeerOptions) (p : ℕ)
    (mgr : PieceRequestManager) (n : ℕ) (s : PeerFsm) : Prop
  | underWay (h : UnderWay torrent options p mgr s) (hn : n ≤ requestsSent s)
  | sending {pass : TopOff} {c : PieceRequestManager} {q : ℕ × ℕ} {reqPieces : List (ℕ × ℕ)}
      (hw : s.writer = .sending pass c (q :: reqPieces)) (hn : n ≤ requestsSent s)
  | asked (hn : n < requestsSent s)
  | failed (hw : s.writer = .ended)

/-- INTERNAL: what was sent stays sent. -/
theorem requestsSent_le {e : FsmEvent} {r : Unit} (hstep : fsmStep sha1 s e = some (t, r)) :
    requestsSent s ≤ requestsSent t := by
  have happend (msgs : List PeerMessage) :
      s.sent.countP isRequest ≤ (s.sent ++ msgs).countP isRequest := by
    rw [List.countP_append]
    exact Nat.le_add_right _ _
  unfold requestsSent
  cases fsmMove hstep with
  | writer hmove =>
    cases hmove with
    | sendBitfield | sendInterested | sendRequest => exact happend _
    | _ => exact le_rfl
  | reader hmove => rw [(rest_reader hmove).2.2]
  | watchdog hmove => rw [(rest_watchdog hmove).2.2]
  | _ => exact le_rfl

/-- INTERNAL: an actor with a requestable block hands out at least one, if it is asked for any.
SOURCE: piece_manager.rs:81-92 -/
theorem blocksToRequest_ne_nil {a a' : PieceRequestManagerActor} {k i : ℕ} {clock : ℕ → Instant}
    (hk : k ≠ 0) (hi : a.requestable i = true) : a.blocksToRequest k clock ≠ (a', []) := by
  intro h
  have hout := (handedOut_blocksToRequest a k clock).2
  rw [h] at hout
  have hmem : i ∈ (List.range a.requiredBlocks.length).filter a.requestable := by
    have hlt := lt_of_requestable hi
    rw [← a.length_required] at hlt
    simp [hlt, hi]
  have hnone : blocksHandedOut a k = [] := by simpa using hout.symm
  unfold blocksHandedOut at hnone
  rcases List.take_eq_nil_iff.mp hnone with hzero | hnil
  · exact hk hzero
  · rw [hnil] at hmem
    cases hmem

theorem tryNext_of_mem {pass : TopOff} {availableWindow : ℕ}
    {candidates : List PieceRequestManager} {mgr : PieceRequestManager} (h : mgr ∈ candidates) :
    pass.tryNext availableWindow candidates = .trying pass availableWindow candidates := by
  cases candidates with
  | nil => cases h
  | cons c candidates => rfl

theorem pieceActor_set_of_ne {k send : ℕ} (a : Option PieceRequestManagerActor) (h : k ≠ send) :
    ({ s with pieceActors := s.pieceActors.set k a } : PeerFsm).pieceActor send =
      s.pieceActor send := by
  simp [PeerFsm.pieceActor, List.getElem?_set_ne h]

/-- INTERNAL: a candidate without an actor is another one. -/
theorem Offers.ne_of_gone {mgr : PieceRequestManager} {send : ℕ} (h : Offers s mgr)
    (ha : s.pieceActor send = none) : send ≠ mgr.send := by
  rintro rfl
  obtain ⟨a, i, hsome, -⟩ := h
  rw [hsome] at ha
  cases ha

/-- INTERNAL: and so is one that has no blocks to give. -/
theorem Offers.ne_of_noBlocks {mgr : PieceRequestManager} {k send : ℕ} {clock : ℕ → Instant}
    {a a' : PieceRequestManagerActor} (h : Offers s mgr) (hk : k ≠ 0)
    (ha : s.pieceActor send = some a) (hblocks : a.blocksToRequest k clock = (a', [])) :
    send ≠ mgr.send := by
  rintro rfl
  obtain ⟨b, i, hb, hi⟩ := h
  rw [hb, Option.some.injEq] at ha
  exact blocksToRequest_ne_nil hk hi (ha ▸ hblocks)

theorem mem_rest {c mgr : PieceRequestManager} {candidates : List PieceRequestManager}
    (hmem : mgr ∈ c :: candidates) (hsend : c.send ≠ mgr.send) : mgr ∈ candidates :=
  (List.mem_cons.mp hmem).resolve_left fun heq => hsend (heq ▸ rfl)

/-- INTERNAL: an answer of the manager at most adds an actor. -/
theorem pieceActor_spawned {send : ℕ} {a : PieceRequestManagerActor} (reply : TorrentManagerReply)
    (h : s.pieceActor send = some a) : ((s.spawned reply)[send]?).join = some a := by
  have hlt : send < s.pieceActors.length := by
    by_contra hge
    simp [PeerFsm.pieceActor, List.getElem?_eq_none (not_lt.mp hge)] at h
  unfold PeerFsm.pieceActor at h
  unfold PeerFsm.spawned
  split
  · split_ifs
    · rwa [List.getElem?_append_left hlt]
    · exact h
  · exact h

section

variable {p n : ℕ} {mgr : PieceRequestManager}

theorem onTheWay_receives {task : WriterTask} (h : OnTheWay mgr task) (sender : Sender)
    (reply : TorrentManagerReply) : OnTheWay mgr (task.receives sender reply) := by
  unfold WriterTask.receives
  split
  · exact h
  · exact h
  · exact h
  · exact h

/-- INTERNAL: the answer to its own message gets the writer on.
SOURCE: torrent_manager.rs:127-228, peer_protocol_state_machine.rs:132 -/
theorem not_requesting_of_answer {task : WriterTask} {m m' : TorrentManagerActor} {q : String}
    {env : Env} {reply : TorrentManagerReply} {isChoked : Bool}
    (hstep : managerStep m (.requestWork q, env) = some (m', reply)) :
    task.receives .writer reply ≠ .requesting isChoked := by
  obtain ⟨⟨u, work⟩, -, heq⟩ := Option.map_eq_some_iff.mp hstep
  cases heq
  cases work <;> cases task <;> simp [WriterTask.receives]

/-- INTERNAL: a task that no answer leads to was there before the answer. -/
theorem eq_of_receives {task task' : WriterTask} {sender : Sender} {reply : TorrentManagerReply}
    (h : task.receives sender reply = task') (hstarting : ∀ b, task' ≠ .starting b)
    (hgranted : ∀ isChoked req, task' ≠ .granted isChoked req)
    (htoppingOff : ∀ pass, task' ≠ .toppingOff pass) : task = task' := by
  unfold WriterTask.receives at h
  split at h
  · exact absurd h.symm (hstarting _)
  · exact absurd h.symm (hgranted _ _)
  · exact absurd h.symm (htoppingOff _)
  · exact h

/-- INTERNAL: the writer is granted a piece, or goes on without, or goes on waiting. -/
theorem receives_of_requesting (isChoked : Bool) (sender : Sender) (reply : TorrentManagerReply) :
    (WriterTask.requesting isChoked).receives sender reply = .requesting isChoked ∨
      (∃ req, (WriterTask.requesting isChoked).receives sender reply = .granted isChoked req) ∨
        (WriterTask.requesting isChoked).receives sender reply =
          .toppingOff ⟨true, isChoked, false⟩ := by
  unfold WriterTask.receives
  split
  · next heq => cases heq
  · next heq =>
    cases heq
    exact Or.inr (Or.inl ⟨_, rfl⟩)
  · next heq =>
    cases heq
    exact Or.inr (Or.inr rfl)
  · exact Or.inl rfl

/-- INTERNAL: the manager's answers, to whomever, leave a pass where it is or take it further.
SOURCE: torrent_manager.rs:113-364, peer_protocol_state_machine.rs:132-137 -/
theorem UnderWay.handle {env : Env} {r : Unit} (h : UnderWay torrent options p mgr s)
    (hstep : fsmStep sha1 s (.handle env) = some (t, r)) : UnderWay torrent options p mgr t := by
  have hcurrent := currentInv_step h.current hstep
  cases fsmMove hstep with
  | @handle _ sender msg mailbox manager reply hhead hmanager =>
    have hoptions : manager.peerOptions = s.manager.peerOptions :=
      hcurrent.manager.options_eq.trans h.current.manager.options_eq.symm
    obtain ⟨hindex, hmgr⟩ := h.current.requests p mgr h.active
    refine ⟨hcurrent, ?_, h.unchoked, h.active, ?_, ?_, ?_, onTheWay_receives h.stage sender reply⟩
    · change (manager.peerOptions.perPeerInflightCount - s.inflightMessages) % 2 ^ 32 ≠ 0
      rw [hoptions]
      exact h.window
    · obtain ⟨a, i, ha, hi⟩ := h.offers
      exact ⟨a, i, pieceActor_spawned reply ha, hi⟩
    · intro isChoked req hw hreq
      rcases granted_receives hw with hw | rfl
      · exact h.granted isChoked req hw hreq
      · apply (current_of_work h.current.manager hmanager).2 mgr hmgr
        rw [hindex, hreq]
    · intro isChoked hw
      obtain ⟨mail, hmail, hsender⟩ := h.asked isChoked (eq_of_receives hw nofun nofun nofun)
      rw [hhead] at hmail
      rcases List.mem_cons.mp hmail with rfl | hmail
      · -- the answer to the writer has got it on
        have hmsg : msg = .requestWork s.peerId := by
          apply h.current.mail ⟨sender, msg⟩ _ hsender
          rw [hhead]
          exact List.mem_cons_self
        subst hmsg
        cases hsender
        exact absurd hw (not_requesting_of_answer hmanager)
      · exact ⟨mail, hmail, hsender⟩

/-- INTERNAL: the writer does not leave a pass before it has sent a `Request`.
SOURCE: peer_protocol_state_machine.rs:30-148 -/
theorem UnderWay.writer {a : WriterAct} (h : UnderWay torrent options p mgr s)
    (hcurrent : CurrentInv torrent options t) (hn : n ≤ requestsSent t)
    (hmove : WriterTaskMove s a t) : PassState torrent options p mgr n t := by
  have hstage := h.stage
  have hmoves {task : WriterTask} {interested : Bool} {msgs : List PeerMessage}
      (hcurrent : CurrentInv torrent options
        { s with writer := task, amInterested := interested, sent := msgs })
      (hn : n ≤ msgs.countP isRequest) (hgranted : ∀ isChoked req, task ≠ .granted isChoked req)
      (hasked : ∀ isChoked, task ≠ .requesting isChoked) (hstage : OnTheWay mgr task) :
      PassState torrent options p mgr n
        { s with writer := task, amInterested := interested, sent := msgs } :=
    .underWay ⟨hcurrent, h.window, h.unchoked, h.active, h.offers,
      fun isChoked req hw => absurd hw (hgranted isChoked req),
      fun isChoked hw => absurd hw (hasked isChoked), hstage⟩ hn
  cases hmove with
  | fails => exact .failed rfl
  | interest | noInterest => exact hmoves hcurrent hn nofun nofun h.unchoked
  | sendInterested hw | setInterested hw | skips hw =>
    rw [hw] at hstage
    exact hmoves hcurrent hn nofun nofun hstage
  | asks hw =>
    refine .underWay ⟨hcurrent, h.window, h.unchoked, h.active, h.offers, nofun, ?_, rfl⟩ hn
    intro isChoked _
    exact ⟨_, List.mem_append_right _ (List.mem_singleton_self _), rfl⟩
  | @insertRequest isChoked req hw =>
    rw [hw] at hstage
    refine .underWay ⟨hcurrent, h.window, h.unchoked, ?_, h.offers, nofun, nofun, hstage⟩ hn
    change (s.activeRequests.insert req.index req).lookup p = some mgr
    rw [HashMap.lookup_insert_eq]
    split_ifs with hp
    · rw [h.granted isChoked req hw hp.symm]
    · exact h.active
  | countPiece hw =>
    rw [hw] at hstage
    exact .underWay
      ⟨hcurrent, h.window, h.unchoked, h.active, h.offers, nofun, nofun, hstage⟩ hn
  | @windowShut pass hw hshut =>
    -- the window is open, and the pass began unchoked
    rw [hw] at hstage
    have hwindow := h.window
    unfold freeWindow at hwindow
    rcases hshut with hchoked | hle
    · exact absurd hchoked (ne_true_of_eq_false hstage)
    · rw [Nat.sub_eq_zero_of_le hle] at hwindow
      exact absurd rfl hwindow
  | windowOpen hw => exact hmoves hcurrent hn nofun nofun h.window
  | @pick pass availableWindow order hw horder =>
    rw [hw] at hstage
    have hmem := HashMap.mem_filterMap_lookup horder h.active
    rw [tryNext_of_mem hmem] at hcurrent ⊢
    exact hmoves hcurrent hn nofun nofun ⟨hstage, hmem⟩
  | @noBlocks pass availableWindow c candidates clock a a' hw ha hblocks =>
    rw [hw] at hstage
    obtain ⟨hwindow, hmem⟩ := hstage
    have hsend := h.offers.ne_of_noBlocks hwindow ha hblocks
    have hrest := mem_rest hmem hsend
    rw [tryNext_of_mem hrest] at hcurrent ⊢
    refine .underWay ⟨hcurrent, h.window, h.unchoked, h.active, ?_, nofun, nofun, hwindow, hrest⟩ hn
    obtain ⟨b, i, hb, hi⟩ := h.offers
    exact ⟨b, i, (pieceActor_set_of_ne (some a') hsend).trans hb, hi⟩
  | @blocks pass availableWindow c candidates clock a a' reqPieces hw ha hblocks hne =>
    cases reqPieces with
    | nil => exact absurd rfl hne
    | cons q reqPieces => exact .sending rfl hn
  | @gone pass availableWindow c candidates clock hw ha =>
    rw [hw] at hstage
    obtain ⟨hwindow, hmem⟩ := hstage
    have hrest := mem_rest hmem (h.offers.ne_of_gone ha)
    rw [tryNext_of_mem hrest] at hcurrent ⊢
    exact hmoves hcurrent hn nofun nofun ⟨hwindow, hrest⟩
  | sendBitfield hw | beginPass hw | beginTopOff hw | sendRequest hw | countRequest hw =>
    rw [hw] at hstage
    exact hstage.elim

/-- INTERNAL: every step of a pass keeps where it can be. -/
theorem passState_step {e : FsmEvent} {r : Unit} (h : PassState torrent options p mgr n s)
    (he : passEvent e = true) (hstep : fsmStep sha1 s e = some (t, r)) :
    PassState torrent options p mgr n t := by
  have hle := requestsSent_le hstep
  cases h with
  | asked hn => exact .asked (hn.trans_le hle)
  | underWay h hn =>
    cases e with
    | handle env => exact .underWay (h.handle hstep) (hn.trans hle)
    | writer a =>
      cases fsmMove hstep with
      | writer hmove => exact h.writer (currentInv_step h.current hstep) (hn.trans hle) hmove
    | _ => cases he
  | @sending pass c q reqPieces hw hn =>
    cases fsmMove hstep with
    | @handle env sender msg mailbox manager reply =>
      have hsame : s.writer.receives sender reply = .sending pass c (q :: reqPieces) := by
        rw [hw]
        rfl
      exact .sending hsame (hn.trans hle)
    | writer hmove =>
      cases hmove with
      | fails => exact .failed rfl
      | sendRequest hw' =>
        refine .asked (hn.trans_lt ?_)
        simp [requestsSent, PeerFsm.requestOf, isRequest]
      | _ hw' =>
        rw [hw] at hw'
        cases hw'
    | _ => cases he
  | failed hw =>
    cases fsmMove hstep with
    | @handle env sender msg mailbox manager reply =>
      have hsame : s.writer.receives sender reply = .ended := by
        rw [hw]
        rfl
      exact .failed hsame
    | writer hmove =>
      cases hmove with
      | fails => exact .failed rfl
      | _ hw' =>
        rw [hw] at hw'
        cases hw'
    | _ => cases he

/-! ## How far a pass gets -/

/-- How far the writer is from sending a `Request`. -/
def distance (s : PeerFsm) : ℕ ×ₗ ℕ :=
  match s.writer with
  | .passing => toLex (11, 0)
  | .interesting _ => toLex (10, 0)
  | .interested _ => toLex (9, 0)
  | .counting _ => toLex (8, 0)
  | .requesting _ => toLex (7, s.mailbox.length)
  | .granted .. => toLex (6, 0)
  | .inserted .. => toLex (5, 0)
  | .toppingOff _ => toLex (4, 0)
  | .picking .. => toLex (3, 0)
  | .trying _ _ candidates => toLex (2, candidates.length)
  | .sending .. => toLex (1, 0)
  | _ => toLex (0, 0)

/-- Some step of the writer or the manager takes the pass on. -/
def GoesOn (sha1 : Bytes → Bytes) (s : PeerFsm) : Prop :=
  ∃ e t, passEvent e = true ∧ fsmStep sha1 s e = some (t, ()) ∧ t.writer ≠ .ended ∧
    distance t < distance s

theorem goesOn_writer {a : WriterAct} (hstep : s.writerStep a = some t) (hended : t.writer ≠ .ended)
    (hlt : distance t < distance s) : GoesOn sha1 s :=
  ⟨.writer a, t, rfl, by simp [fsmStep, hstep], hended, hlt⟩

/-- INTERNAL: a writer that tries candidates gets blocks from the first one or goes on to the next,
and does not run out of them.
SOURCE: peer_protocol_state_machine.rs:56-63 -/
theorem goesOn_of_trying (h : UnderWay torrent options p mgr s) {pass : TopOff} {availableWindow : ℕ}
    {candidates : List PieceRequestManager}
    (hw : s.writer = .trying pass availableWindow candidates) : GoesOn sha1 s := by
  have hstage := h.stage
  rw [hw] at hstage
  obtain ⟨hwindow, hmem⟩ := hstage
  cases candidates with
  | nil => cases hmem
  | cons c candidates =>
    cases ha : s.pieceActor c.send with
    | none =>
      have hrest := mem_rest hmem (h.offers.ne_of_gone ha)
      apply goesOn_writer (a := .requestBlock fun _ => 0)
      · simp only [PeerFsm.writerStep, hw, ha, tryNext_of_mem hrest]
        rfl
      · exact nofun
      · simp [distance, hw, Prod.Lex.toLex_lt_toLex]
    | some a =>
      cases hblocks : a.blocksToRequest (availableWindow % 2 ^ 32) (fun _ => 0) with
      | mk a' reqPieces =>
        cases reqPieces with
        | nil =>
          have hrest := mem_rest hmem (h.offers.ne_of_noBlocks hwindow ha hblocks)
          apply goesOn_writer (a := .requestBlock fun _ => 0)
          · simp only [PeerFsm.writerStep, hw, ha, hblocks, tryNext_of_mem hrest]
            rfl
          · exact nofun
          · simp [distance, hw, Prod.Lex.toLex_lt_toLex]
        | cons q reqPieces =>
          apply goesOn_writer (a := .requestBlock fun _ => 0)
          · simp only [PeerFsm.writerStep, hw, ha, hblocks]
            rfl
          · exact nofun
          · simp [distance, hw, Prod.Lex.toLex_lt_toLex]

/-- INTERNAL: the writer always comes closer to a `Request`, unless it waits for the manager. -/
theorem goesOn_of_underWay (h : UnderWay torrent options p mgr s)
    (hfree : ∀ isChoked, s.writer ≠ .requesting isChoked) : GoesOn sha1 s := by
  have hstage := h.stage
  cases hw : s.writer with
  | passing =>
    apply goesOn_writer (a := .sample)
    · simp only [PeerFsm.writerStep, hw]
      rfl
    · dsimp only
      split_ifs <;> exact nofun
    · cases s.hasUsefulPieces && !s.amInterested <;>
        simp [distance, hw, Prod.Lex.toLex_lt_toLex]
  | interesting isChoked =>
    apply goesOn_writer (a := .sendInterested true)
    · simp only [PeerFsm.writerStep, hw]
      rfl
    · exact nofun
    · simp [distance, hw, Prod.Lex.toLex_lt_toLex]
  | interested isChoked =>
    apply goesOn_writer (a := .setInterested)
    · simp only [PeerFsm.writerStep, hw]
      rfl
    · exact nofun
    · simp [distance, hw, Prod.Lex.toLex_lt_toLex]
  | counting isChoked =>
    by_cases hlt : (!isChoked &&
        decide (s.pendingActiveRequestCount < s.peerOptions.perPeerActiveRequestCount)) = true
    · apply goesOn_writer (a := .loadCount)
      · simp only [PeerFsm.writerStep, hw, hlt, if_true]
        rfl
      · exact nofun
      · simp [distance, hw, PeerFsm.send, Prod.Lex.toLex_lt_toLex]
    · apply goesOn_writer (a := .loadCount)
      · simp only [PeerFsm.writerStep, hw, hlt]
        rfl
      · exact nofun
      · simp [distance, hw, Prod.Lex.toLex_lt_toLex]
  | requesting isChoked => exact absurd hw (hfree isChoked)
  | granted isChoked req =>
    apply goesOn_writer (a := .insertRequest)
    · simp only [PeerFsm.writerStep, hw]
      rfl
    · exact nofun
    · simp [distance, hw, Prod.Lex.toLex_lt_toLex]
  | inserted isChoked req =>
    apply goesOn_writer (a := .countPiece)
    · simp only [PeerFsm.writerStep, hw]
      rfl
    · exact nofun
    · simp [distance, hw, Prod.Lex.toLex_lt_toLex]
  | toppingOff pass =>
    rw [hw] at hstage
    have hopen : ¬ s.peerOptions.perPeerInflightCount ≤ s.inflightMessages := by
      intro hle
      exact h.window (by simp [freeWindow, Nat.sub_eq_zero_of_le hle])
    apply goesOn_writer (a := .loadInflight)
    · simp only [PeerFsm.writerStep, hw, show pass.isChoked = false from hstage, hopen,
        decide_false, Bool.or_false, Bool.false_eq_true, if_false]
      rfl
    · exact nofun
    · simp [distance, hw, Prod.Lex.toLex_lt_toLex]
  | picking pass availableWindow =>
    obtain ⟨order, horder⟩ := Quot.exists_rep s.activeRequests.keys.val
    apply goesOn_writer (a := .pick order)
    · simp only [PeerFsm.writerStep, hw]
      exact if_pos horder
    · rw [tryNext_of_mem (HashMap.mem_filterMap_lookup horder h.active)]
      exact nofun
    · rw [tryNext_of_mem (HashMap.mem_filterMap_lookup horder h.active)]
      simp [distance, hw, Prod.Lex.toLex_lt_toLex]
  | trying pass availableWindow candidates => exact goesOn_of_trying h hw
  | _ =>
    rw [hw] at hstage
    exact hstage.elim

/-- INTERNAL: the manager takes the writer's message in the end, unless it goes down before. -/
theorem goesOn_of_requesting {isChoked : Bool} (h : UnderWay torrent options p mgr s)
    (hw : s.writer = .requesting isChoked) : ManagerDown s ∨ GoesOn sha1 s := by
  obtain ⟨mail, hmail, -⟩ := h.asked isChoked hw
  by_cases hdown : ∀ env, s.handle env = none
  · exact Or.inl ⟨⟨isChoked, hw⟩, List.ne_nil_of_mem hmail, hdown⟩
  · right
    obtain ⟨env, henv⟩ := not_forall.mp hdown
    obtain ⟨t, ht⟩ := Option.ne_none_iff_exists'.mp henv
    have hstep : fsmStep sha1 s (.handle env) = some (t, ()) := by simp [fsmStep, ht]
    have hlater := h.handle hstep
    have hwriter := hlater.stage
    cases fsmMove hstep with
    | @handle _ sender msg mailbox manager reply hhead hmanager =>
      refine ⟨.handle env, _, rfl, hstep, ?_, ?_⟩
      · intro hended
        rw [hended] at hwriter
        exact hwriter
      · rcases receives_of_requesting isChoked sender reply with hnext | ⟨req, hnext⟩ | hnext <;>
          simp [distance, hw, hnext, hhead, Prod.Lex.toLex_lt_toLex]

/-- INTERNAL: a pass that has not failed has sent a `Request`, or the manager is down, or it goes
on.
SOURCE: peer_protocol_state_machine.rs:30-148 -/
theorem progress_of_passState (h : PassState torrent options p mgr n s)
    (hended : s.writer ≠ .ended) :
    (n < requestsSent s ∨ ManagerDown s) ∨ ∃ e t r, passEvent e = true ∧
      fsmStep sha1 s e = some (t, r) ∧
        (PassState torrent options p mgr n t ∧ t.writer ≠ .ended) ∧ distance t < distance s := by
  have hnext : GoesOn sha1 s → ∃ e t r, passEvent e = true ∧ fsmStep sha1 s e = some (t, r) ∧
      (PassState torrent options p mgr n t ∧ t.writer ≠ .ended) ∧ distance t < distance s := by
    rintro ⟨e, t, he, hstep, hlive, hlt⟩
    exact ⟨e, t, (), he, hstep, ⟨passState_step h he hstep, hlive⟩, hlt⟩
  cases h with
  | asked hn => exact Or.inl (Or.inl hn)
  | failed hw => exact absurd hw hended
  | underWay hway hn =>
    by_cases hasking : ∃ isChoked, s.writer = .requesting isChoked
    · obtain ⟨isChoked, hw⟩ := hasking
      rcases goesOn_of_requesting hway hw with hdown | hgoes
      · exact Or.inl (Or.inr hdown)
      · exact Or.inr (hnext hgoes)
    · exact Or.inr (hnext (goesOn_of_underWay hway (not_exists.mp hasking)))
  | sending hw hn =>
    right
    apply hnext
    apply goesOn_writer (a := .sendRequest true)
    · simp only [PeerFsm.writerStep, hw]
      rfl
    · exact nofun
    · simp [distance, hw, Prod.Lex.toLex_lt_toLex]

/-- **A full pass with an open window sends a `Request`.** -/
theorem passSends (hcurrent : CurrentInv torrent options s) (hw : s.writer = .waiting)
    (hunchoked : s.peerChoking = false) (hwindow : freeWindow s ≠ 0) (hblock : HasRequestable s) :
    PassSends sha1 s := by
  obtain ⟨p, mgr, hactive, hoffers⟩ := hblock
  have hstep : fsmStep sha1 s (.writer .beginPass) = some ({ s with writer := .passing }, ()) := by
    simp [fsmStep, PeerFsm.writerStep, hw]
  have hbegins : PassState torrent options p mgr (requestsSent s) { s with writer := .passing } :=
    .underWay ⟨currentInv_step hcurrent hstep, hwindow, hunchoked, hactive, hoffers, nofun, nofun,
      trivial⟩ le_rfl
  constructor
  · intro es t hes hrun hwaiting
    rw [run_cons_some es hstep] at hrun
    have hstate := run_invariant_of_forall (PassState torrent options p mgr (requestsSent s))
      (fun _ _ _ _ h he hstep => passState_step h he hstep) hbegins hes hrun
    cases hstate with
    | asked hn => exact hn
    | underWay h =>
      have hstage := h.stage
      rw [hwaiting] at hstage
      exact hstage.elim
    | sending hw' | failed hw' =>
      rw [hwaiting] at hw'
      cases hw'
  · obtain ⟨es, t, hes, hrun, hgoal⟩ := exists_run_of_progress distance
      (fun t => PassState torrent options p mgr (requestsSent s) t ∧ t.writer ≠ .ended)
      (fun _ ht => progress_of_passState ht.1 ht.2) ⟨hbegins, nofun⟩
    exact ⟨es, t, hes, by rwa [run_cons_some es hstep], hgoal⟩

end

end Fissure.Analysis
