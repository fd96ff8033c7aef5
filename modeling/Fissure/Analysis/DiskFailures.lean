import Fissure.Analysis.DiskSuccess

/-!
# A failed disk request ends the disk actor

The error branches of both loops of the disk actor answer `false` or `None` and return from the
actor; a write that fails after `write_all` took its bytes is not noticed at all before the next
write to the file. `handleAlone` is a request on its own: a failed read leaves the files as they
are, a failed flush may have written some bytes, and the actor goes on. A sequence of requests is
answered as if each were handled alone exactly when the first one that fails is told so and none
that succeeds comes after it (`fails_alone_iff`).
-/

set_option autoImplicit false

namespace Fissure.Analysis

open Fissure.Library Fissure.Model
open Fissure.Model.DiskManagerActor

/-! ## The answers of the actor and those of requests on their own -/

/-- The answers to a sequence of requests, as the callers see them. -/
def answers : Option DiskManagerActor → List DiskEvent → List (Option DiskReply)
  | _, [] => []
  | actor, e :: es => (diskRequest actor e).2 :: answers (diskRequest actor e).1 es

/-- One request as if a failure were its own affair: the files and the answer after it. A flush of
which a write fails has failed, whenever that is reported. -/
def handleAlone (s : DiskManagerActor) (e : DiskEvent) : DiskManagerActor × Option DiskReply :=
  match e.msg with
  | .flushPieceToDisk pieceManager =>
    let start := pieceManager.index * s.stdPieceLen
    let result := s.flushPieceToDisk pieceManager e.getData e.io
    (result.actor,
      if ∀ j < s.files.length, Touches s start (start + pieceManager.pieceLength) j → e.io j = .ok
      then some .flushed else none)
  | .getDataWithLength pieceIndex offset length =>
    (s, (s.getDataWithLength pieceIndex offset length e.io).map .data)

/-- The answers when every request is handled on its own. -/
def answersAlone : DiskManagerActor → List DiskEvent → List (Option DiskReply)
  | _, [] => []
  | s, e :: es => (handleAlone s e).2 :: answersAlone (handleAlone s e).1 es

/-- The request meets an error of its own: a seek or a transfer fails, or a read finds bytes of its
range missing. -/
def MeetsError (s : DiskManagerActor) (e : DiskEvent) : Prop :=
  match e.msg with
  | .flushPieceToDisk m => ∃ j, Touches s (m.index * s.stdPieceLen)
      (m.index * s.stdPieceLen + m.pieceLength) j ∧ e.io j ≠ .ok
  | .getDataWithLength pieceIndex offset length => ∃ j, ReadFails s e.io
      (pieceIndex * s.stdPieceLen + offset) (pieceIndex * s.stdPieceLen + offset + length) j

/-- The request is answered `false` or `None`. -/
def ErrorTold (s : DiskManagerActor) (e : DiskEvent) : Prop :=
  match e.msg with
  | .flushPieceToDisk m => ∃ j, Touches s (m.index * s.stdPieceLen)
      (m.index * s.stdPieceLen + m.pieceLength) j ∧ Reported (e.io j)
  | .getDataWithLength _ _ _ => MeetsError s e

/-- Every request of the sequence meets an error. -/
def AllMeetErrors : DiskManagerActor → List DiskEvent → Prop
  | _, [] => True
  | s, e :: es => MeetsError s e ∧ AllMeetErrors (handleAlone s e).1 es

/-- The first request that meets an error is told so, and all the later ones meet errors too. -/
def ErrorsLast : DiskManagerActor → List DiskEvent → Prop
  | _, [] => True
  | s, e :: es => (MeetsError s e → ErrorTold s e ∧ AllMeetErrors (handleAlone s e).1 es) ∧
      (¬ MeetsError s e → ErrorsLast (handleAlone s e).1 es)

/-- Every request is answered as if each were handled on its own: one that fails with `none`, and
one whose own transfers succeed with its result. -/
def FailsAlone (s : DiskManagerActor) (es : List DiskEvent) : Prop :=
  answers (some s) es = answersAlone s es

variable {s : DiskManagerActor} {e : DiskEvent} {es : List DiskEvent}

/-- INTERNAL: on its own a request goes unanswered exactly when it meets an error.
SOURCE: disk_manager.rs:62-166 -/
theorem handleAlone_eq_none_iff : (handleAlone s e).2 = none ↔ MeetsError s e := by
  unfold handleAlone MeetsError
  cases e.msg with
  | flushPieceToDisk m =>
    dsimp only
    rw [ite_eq_right_iff, imp_iff_not (by simp)]
    push Not
    exact ⟨fun ⟨j, _, hj⟩ => ⟨j, hj⟩, fun ⟨j, hj⟩ => ⟨j, hj.1.1, hj⟩⟩
  | getDataWithLength pieceIndex offset length =>
    dsimp only
    rcases getDataWithLength_cases s pieceIndex offset length e.io rfl with
      ⟨hnone, hfails⟩ | ⟨d, hsome, -, -, hall⟩
    · rw [hnone]
      exact iff_of_true rfl hfails
    · rw [hsome]
      exact iff_of_false nofun fun ⟨j, hj⟩ => hall j hj

/-- INTERNAL: an error that is reported is one.
SOURCE: disk_manager.rs:62-166 -/
theorem ErrorTold.meetsError (h : ErrorTold s e) : MeetsError s e := by
  unfold ErrorTold MeetsError at *
  cases hmsg : e.msg with
  | flushPieceToDisk m =>
    rw [hmsg] at h
    obtain ⟨j, htouches, hreported⟩ := h
    refine ⟨j, htouches, fun hio => ?_⟩
    rw [hio] at hreported
    exact hreported
  | getDataWithLength pieceIndex offset length =>
    rw [hmsg] at h
    simpa only [hmsg] using h

/-- INTERNAL: the actor ends when it reports an error, and goes on otherwise.
SOURCE: disk_manager.rs:59-170, disk_manager.rs:207-230 -/
theorem diskRequest_of_told (h : ErrorTold s e) : diskRequest (some s) e = (none, none) := by
  unfold ErrorTold at h
  unfold diskRequest diskStep
  rw [Option.bind_some]
  cases hmsg : e.msg with
  | flushPieceToDisk m =>
    rw [hmsg] at h
    obtain ⟨j, htouches, hreported⟩ := h
    have hfails : ¬ (s.flushPieceToDisk m e.getData e.io).reply = true := by
      rw [flushPieceToDisk_reply_iff]
      exact fun hall => hall j htouches hreported
    dsimp only
    rw [if_neg hfails]
  | getDataWithLength pieceIndex offset length =>
    rw [hmsg] at h
    have hnone := handleAlone_eq_none_iff.mpr h
    unfold handleAlone at hnone
    rw [hmsg] at hnone
    dsimp only
    rw [Option.map_eq_none_iff.mp hnone]
    rfl

theorem diskRequest_of_not_told (h : ¬ ErrorTold s e) :
    ∃ r, diskRequest (some s) e = (some (handleAlone s e).1, some r) ∧
      (¬ MeetsError s e → (handleAlone s e).2 = some r) := by
  unfold ErrorTold at h
  unfold diskRequest diskStep
  rw [Option.bind_some]
  cases hmsg : e.msg with
  | flushPieceToDisk m =>
    rw [hmsg] at h
    push Not at h
    refine ⟨.flushed, ?_, fun hmeets => ?_⟩
    · dsimp only
      rw [if_pos (flushPieceToDisk_reply_iff.mpr h)]
      unfold handleAlone
      rw [hmsg]
    · rw [← handleAlone_eq_none_iff] at hmeets
      unfold handleAlone at hmeets ⊢
      rw [hmsg] at hmeets ⊢
      dsimp only at hmeets ⊢
      split_ifs at hmeets ⊢ with hall
      · rfl
      · exact absurd rfl hmeets
  | getDataWithLength pieceIndex offset length =>
    rw [hmsg] at h
    have hsome : (handleAlone s e).2 ≠ none := handleAlone_eq_none_iff.not.mpr h
    obtain ⟨r, hr⟩ := Option.ne_none_iff_exists'.mp hsome
    refine ⟨r, ?_, fun _ => hr⟩
    unfold handleAlone at hr ⊢
    rw [hmsg] at hr ⊢
    dsimp only at hr ⊢
    obtain ⟨data, hdata, rfl⟩ := Option.map_eq_some_iff.mp hr
    rw [hdata]
    rfl

/-- INTERNAL: after the actor has returned no request is answered.
SOURCE: disk_manager.rs:207-230 -/
theorem answers_none : answers none es = es.map fun _ => none := by
  induction es with
  | nil => rfl
  | cons e es ih =>
    rw [answers, List.map_cons]
    exact congrArg _ ih

/-- INTERNAL: on their own all requests go unanswered exactly when all meet errors. -/
theorem answersAlone_eq_none_iff :
    (es.map fun _ => none) = answersAlone s es ↔ AllMeetErrors s es := by
  induction es generalizing s with
  | nil => exact iff_of_true rfl trivial
  | cons e es ih =>
    rw [List.map_cons, answersAlone, List.cons.injEq, ih, eq_comm, handleAlone_eq_none_iff]
    rfl

/-- **When a failed disk request fails alone.** For every sequence of requests and every pattern of
failures, whatever the files hold: every request is answered as if each were handled on its own
exactly when the first request that meets an error is told so in its own rounds and no request that
succeeds on its own comes after it.
SOURCE: disk_manager.rs:59-170, disk_manager.rs:207-230, torrent_manager.rs:331-339 -/
theorem fails_alone_iff (s : DiskManagerActor) (es : List DiskEvent) :
    FailsAlone s es ↔ ErrorsLast s es := by
  unfold FailsAlone
  induction es generalizing s with
  | nil => exact iff_of_true rfl trivial
  | cons e es ih =>
    rw [answers, answersAlone, ErrorsLast, List.cons.injEq]
    by_cases htold : ErrorTold s e
    · have hmeets := htold.meetsError
      rw [diskRequest_of_told htold, answers_none, answersAlone_eq_none_iff,
        handleAlone_eq_none_iff.mpr hmeets]
      simp [hmeets, htold]
    · obtain ⟨r, hrequest, hreply⟩ := diskRequest_of_not_told htold
      rw [hrequest]
      by_cases hmeets : MeetsError s e
      · -- the caller is told that all went well
        rw [handleAlone_eq_none_iff.mpr hmeets]
        simp [hmeets, htold]
      · rw [hreply hmeets, ih]
        simp [hmeets]

/-- A read of a piece that has not been written yet. -/
def earlyRead : DiskEvent := ⟨.getDataWithLength 0 0 4, fun _ _ _ => [], fun _ => .ok⟩

/-- After an early read nothing is flushed any more, though the flush on its own succeeds; and a
flush of which a write fails late is not told so. -/
theorem flush_refused_after_read :
    answers (some fourFilesDisk) [earlyRead, firstFlush] = [none, none] ∧
    answersAlone fourFilesDisk [earlyRead, firstFlush] = [none, some .flushed] ∧
    ¬ FailsAlone fourFilesDisk [earlyRead, firstFlush] ∧
    ¬ FailsAlone fourFilesDisk [lateFlush] := by
  have hanswers : answers (some fourFilesDisk) [earlyRead, firstFlush] = [none, none] := by
    decide +kernel
  have halone : answersAlone fourFilesDisk [earlyRead, firstFlush] = [none, some .flushed] := by
    decide +kernel
  refine ⟨hanswers, halone, ?_, ?_⟩
  · unfold FailsAlone
    rw [hanswers, halone]
    decide
  · unfold FailsAlone
    decide +kernel

end Fissure.Analysis
