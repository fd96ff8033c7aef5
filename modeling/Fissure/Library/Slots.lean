import Mathlib.Data.Multiset.AddSub

/-!
# The slots of a request window

A sender counts the requests that it has under way, and sends no more than a window has slots for.
A request waits until it is answered or expires. It takes its slot when it is counted, which may be
some time after it was sent, and holds it until an answer to it is taken or all slots are reset; an
expiry does not release it. `Slots` records both beside a run, and `stale` is the number of slots
held for requests that do not wait any more. It can grow by an expiry and by counting a request that
was settled meanwhile, and by nothing else.
-/

set_option autoImplicit false

namespace Fissure.Library

variable {α : Type}

/-- The requests sent over a window. -/
structure Slots (α : Type) where
  /-- sent, and neither answered nor expired -/
  waiting : List α
  /-- counted, and neither answered nor reset since -/
  held : List α
  /-- sent last, and not counted yet -/
  uncounted : Option α

namespace Slots

/-- Nothing was sent. -/
def empty : Slots α := ⟨[], [], none⟩

/-- A request is sent. -/
def send (l : Slots α) (a : α) : Slots α :=
  { l with waiting := a :: l.waiting, uncounted := some a }

/-- The request sent last is counted. -/
def count (l : Slots α) : Slots α :=
  { l with held := l.uncounted.toList ++ l.held, uncounted := none }

/-- A counted request takes a slot. -/
theorem length_held_count {l : Slots α} (h : l.uncounted.isSome = true) :
    l.count.held.length = l.held.length + 1 := by
  obtain ⟨a, ha⟩ := Option.isSome_iff_exists.mp h
  simp [count, ha]

/-- The requests with `p` expire. -/
def expire (l : Slots α) (p : α → Bool) : Slots α :=
  { l with waiting := l.waiting.filter fun a => !p a }

/-- All slots are reset. -/
def reset (l : Slots α) : Slots α := { l with held := [] }

variable [DecidableEq α]

/-- An answer is taken that answers requests with `p`: it settles one of them, if there is one. -/
def answer (l : Slots α) (p : α → Bool) : Slots α :=
  match (l.held ++ l.waiting).find? p with
  | some a => { l with waiting := l.waiting.erase a, held := l.held.erase a }
  | none => l

/-- How many slots are held for requests that were answered or expired. -/
def stale (l : Slots α) : ℕ := ((l.held : Multiset α) - (l.waiting : Multiset α)).card

/-- A slot is held for a request that waits, or it is stale. -/
theorem length_held_le (l : Slots α) : l.held.length ≤ l.waiting.length + l.stale := by
  have hle := Multiset.card_le_card
    (Multiset.le_sub_add (s := (l.held : Multiset α)) (t := (l.waiting : Multiset α)))
  rw [Multiset.card_add] at hle
  simp only [Multiset.coe_card] at hle
  unfold stale
  omega

@[simp] theorem stale_empty : (empty : Slots α).stale = 0 := by
  simp [stale, empty]

/-- A sent request makes no slot stale. -/
theorem stale_send_le (l : Slots α) (a : α) : (l.send a).stale ≤ l.stale := by
  apply Multiset.card_le_card
  rw [Multiset.le_iff_count]
  intro b
  simp only [send, Multiset.count_sub, Multiset.coe_count, List.count_cons]
  omega

/-- An answer makes no slot stale. -/
theorem stale_answer_le (l : Slots α) (p : α → Bool) : (l.answer p).stale ≤ l.stale := by
  unfold answer
  split
  · next a _ =>
    apply Multiset.card_le_card
    rw [Multiset.le_iff_count]
    intro b
    simp only [Multiset.count_sub, Multiset.coe_count, List.count_erase]
    split_ifs <;> omega
  · exact le_rfl

/-- An answer releases one slot at most. -/
theorem length_held_answer (l : Slots α) (p : α → Bool) :
    l.held.length - 1 ≤ (l.answer p).held.length := by
  unfold answer
  split
  · next a _ =>
    change l.held.length - 1 ≤ (l.held.erase a).length
    rw [List.length_erase]
    split_ifs <;> omega
  · exact Nat.sub_le _ _

/-- An answer does not count a request. -/
@[simp] theorem uncounted_answer (l : Slots α) (p : α → Bool) :
    (l.answer p).uncounted = l.uncounted := by
  unfold answer
  split <;> rfl

@[simp] theorem stale_reset (l : Slots α) : l.reset.stale = 0 := by
  unfold stale reset
  rw [Multiset.coe_nil, Multiset.card_eq_zero, ← Multiset.le_zero, Multiset.sub_le_iff_le_add]
  exact Multiset.zero_le _

end Slots

end Fissure.Library
