import Mathlib.Data.List.Basic

/-!
# Decoders of a stream

A decoder looks at the front of a buffer: there is no complete message yet, there is one, or what is
there cannot be decoded. It is asked until the first or the last is the case (`drain`), and again
after each chunk of the stream that is appended to the buffer (`receive`). A decoder that does not
change its mind when more of the stream arrives gives the same session for all ways of cutting the
stream into chunks (`receiveAll_eq_drain`), and takes off the frames that an encoder has written
(`drain_frames`).
-/

set_option autoImplicit false

namespace Fissure.Library

/-- What a decoder finds at the front of a buffer. -/
inductive Decoded (β μ φ : Type)
  /-- no complete message -/
  | pending
  /-- a message, and the buffer without it -/
  | message (m : μ) (rest : List β)
  /-- something that cannot be decoded -/
  | failure (f : φ)

/-- A decoder that sticks to what it has found when the buffer grows. -/
structure StreamDecoder (β μ φ : Type) where
  next : List β → Decoded β μ φ
  next_nil : next [] = .pending
  length_lt : ∀ {buf m rest}, next buf = .message m rest → rest.length < buf.length
  message_append : ∀ {buf m rest}, next buf = .message m rest →
    ∀ more, next (buf ++ more) = .message m (rest ++ more)
  failure_append : ∀ {buf f}, next buf = .failure f → ∀ more, next (buf ++ more) = .failure f

/-- How far the decoding of a stream has come. -/
@[ext]
structure Session (β μ φ : Type) where
  messages : List μ
  /-- how much of the stream the messages take -/
  consumed : ℕ
  /-- what is left in the buffer, or what cannot be decoded -/
  outcome : Except φ (List β)

namespace StreamDecoder

variable {β μ φ : Type} (d : StreamDecoder β μ φ)

/-- All messages at the front of the buffer. -/
def drain (buf : List β) : Session β μ φ :=
  match h : d.next buf with
  | .pending => ⟨[], 0, .ok buf⟩
  | .failure f => ⟨[], 0, .error f⟩
  | .message m rest =>
    have := d.length_lt h
    let s := drain rest
    ⟨m :: s.messages, buf.length - rest.length + s.consumed, s.outcome⟩
termination_by buf.length

/-- A chunk arrives. After a failure nothing is decoded any more. -/
def receive (s : Session β μ φ) (chunk : List β) : Session β μ φ :=
  match s.outcome with
  | .error _ => s
  | .ok buf =>
    let t := d.drain (buf ++ chunk)
    ⟨s.messages ++ t.messages, s.consumed + t.consumed, t.outcome⟩

/-- The chunks arrive one after the other. -/
def receiveAll (chunks : List (List β)) : Session β μ φ :=
  chunks.foldl d.receive ⟨[], 0, .ok []⟩

variable {d} {buf rest : List β} {m : μ} {f : φ}

theorem drain_pending (h : d.next buf = .pending) : d.drain buf = ⟨[], 0, .ok buf⟩ := by
  rw [drain]
  split <;> simp_all

theorem drain_failure (h : d.next buf = .failure f) : d.drain buf = ⟨[], 0, .error f⟩ := by
  rw [drain]
  split <;> simp_all

theorem drain_message (h : d.next buf = .message m rest) :
    d.drain buf = ⟨m :: (d.drain rest).messages,
      buf.length - rest.length + (d.drain rest).consumed, (d.drain rest).outcome⟩ := by
  rw [drain]
  split <;> simp_all

/-- Draining a longer buffer is draining the shorter one and then receiving the rest. -/
theorem drain_append (buf more : List β) : d.drain (buf ++ more) = d.receive (d.drain buf) more := by
  fun_induction d.drain buf with
  | case1 buf h => simp [receive]
  | case2 buf f h =>
    rw [drain_failure (d.failure_append h more)]
    rfl
  | case3 buf m rest h hlt s ih =>
    rw [drain_message (d.message_append h more), ih]
    have hlength : (buf ++ more).length - (rest ++ more).length = buf.length - rest.length := by
      rw [List.length_append, List.length_append, Nat.add_sub_add_right]
    rw [hlength]
    unfold receive
    split <;> simp [s, Nat.add_assoc, *]

/-- What has been decoded stays decoded when more of the stream arrives. -/
theorem messages_prefix (buf more : List β) :
    (d.drain buf).messages <+: (d.drain (buf ++ more)).messages := by
  rw [drain_append]
  unfold receive
  split
  · exact List.prefix_refl _
  · exact List.prefix_append _ _

/-- A stream that is decoded to its end is decoded as far as it has arrived. -/
theorem exists_ok_of_append {buf more : List β} (h : (d.drain (buf ++ more)).outcome = .ok rest) :
    ∃ left, (d.drain buf).outcome = .ok left := by
  rw [drain_append] at h
  unfold receive at h
  split at h
  · next f hf =>
    rw [hf] at h
    cases h
  · next left hleft => exact ⟨left, hleft⟩

/-- **A session does not depend on how the stream is cut into chunks.** -/
theorem receiveAll_eq_drain (chunks : List (List β)) :
    d.receiveAll chunks = d.drain chunks.flatten := by
  have hfold (before : List β) (chunks : List (List β)) :
      chunks.foldl d.receive (d.drain before) = d.drain (before ++ chunks.flatten) := by
    induction chunks generalizing before with
    | nil => simp
    | cons chunk chunks ih =>
      rw [List.foldl_cons, ← drain_append, ih, List.flatten_cons, List.append_assoc]
  have hstart := hfold [] chunks
  rw [drain_pending d.next_nil] at hstart
  exact hstart

/-- Frames that are decoded one by one are decoded one after the other, and what follows stays in
the buffer when it is no complete message. -/
theorem drain_frames {α : Type} {frame : α → List β} {decoded : α → μ} {items : List α}
    (hframe : ∀ a ∈ items, ∀ rest, d.next (frame a ++ rest) = .message (decoded a) rest)
    {tail : List β} (htail : d.next tail = .pending) :
    d.drain (items.flatMap frame ++ tail) =
      ⟨items.map decoded, (items.flatMap frame).length, .ok tail⟩ := by
  induction items with
  | nil => exact drain_pending htail
  | cons a items ih =>
    rw [List.forall_mem_cons] at hframe
    rw [List.flatMap_cons, List.append_assoc, drain_message (hframe.1 _), ih hframe.2]
    simp

end StreamDecoder

end Fissure.Library
