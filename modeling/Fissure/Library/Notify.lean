import Fissure.Library.Transition

/-!
# Notifications to one waiter

`Notify` is a cell through which tasks wake one other task. A notification goes to the waiter when
it is registered, and is kept as a permit otherwise; there is one permit at most. The waiter looks
whether it was notified; when it was not, it is registered from then on. What matters is whether a
notification is `pending`: giving one makes it so, and only looking ends it.

`FollowedBy` says of a run that whatever happens of one kind is followed by something of another
kind; `pending_or_followedBy` is the rule that proves it from what is pending in between.
-/

set_option autoImplicit false

namespace Fissure.Library

/-! ## The cell -/

/-- What has become of the waiter: it has not looked yet, it waits, or it was notified while it
waited. -/
inductive Waiter
  | fresh
  | registered
  | notified
  deriving DecidableEq

/-- The cell. A waiter that waits has taken the permit before. -/
structure Notify where
  permit : Bool
  waiter : Waiter
  no_permit : waiter = .registered → permit = false

namespace Notify

/-- Nothing has happened yet. -/
def new : Notify := ⟨false, .fresh, by simp⟩

/-- A notification is given. -/
def notifyOne (n : Notify) : Notify :=
  if h : n.waiter = .registered then ⟨n.permit, .notified, by simp⟩
  else ⟨true, n.waiter, fun hw => absurd hw h⟩

/-- The waiter will find that it was notified when it looks. -/
def pending (n : Notify) : Bool := n.permit || n.waiter == .notified

/-- The waiter looks, finds that it was notified, and starts afresh. -/
def take (n : Notify) : Notify :=
  if n.waiter = .notified then ⟨n.permit, .fresh, by simp⟩ else ⟨false, .fresh, by simp⟩

/-- The waiter looks; when it was not notified it waits. -/
def look (n : Notify) : Notify :=
  if h : n.pending then n
  else ⟨n.permit, .registered, by simp_all [pending]⟩

@[simp] theorem pending_notifyOne (n : Notify) : n.notifyOne.pending = true := by
  unfold notifyOne pending
  split_ifs <;> simp

@[simp] theorem pending_look (n : Notify) : n.look.pending = n.pending := by
  unfold look
  split_ifs with h
  · rfl
  · rw [Bool.eq_false_iff.mpr h]
    simp only [pending, Bool.or_eq_true, not_or, Bool.not_eq_true] at h
    simp [pending, h.1]

end Notify

/-! ## What is followed by what -/

variable {σ ε ρ : Type} {step : σ → ε → Option (σ × ρ)}

/-- Every step with `P` is followed by a step with `Q`. -/
def FollowedBy (step : σ → ε → Option (σ × ρ)) (P Q : σ → ε → Prop) (s : σ) (es : List ε) : Prop :=
  ∀ xs e ys t u r, es = xs ++ e :: ys → run step s xs = some t → P t e →
    step t e = some (u, r) → Occurs step Q u ys

/-- The rule: a step with `P` leaves something pending, and what is pending stays so up to a step
with `Q`. Then at the end of a run something is pending, or every step with `P` was followed by one
with `Q`. -/
theorem pending_or_followedBy (Inv : σ → Prop) {P Q : σ → ε → Prop} (pending : σ → Prop)
    (hkeep : ∀ s e t r, Inv s → step s e = some (t, r) → Inv t)
    (hbegins : ∀ s e t r, Inv s → P s e → step s e = some (t, r) → pending t)
    (hstays : ∀ s e t r, Inv s → pending s → step s e = some (t, r) → pending t ∨ Q s e)
    {s u : σ} {es : List ε} (hs : Inv s) (h : run step s es = some u) :
    pending u ∨ FollowedBy step P Q s es := by
  -- from a state in which something is pending, it still is at the end or `Q` occurs
  have hpending {s : σ} {es : List ε} (hs : Inv s) (hp : pending s)
      (h : run step s es = some u) : pending u ∨ Occurs step Q s es := by
    induction es generalizing s with
    | nil =>
      cases h
      exact Or.inl hp
    | cons e es ih =>
      obtain ⟨t, r, he, h⟩ := run_cons_eq_some.mp h
      rcases hstays s e t r hs hp he with ht | hQ
      · exact (ih (hkeep s e t r hs he) ht h).imp_right fun hoccurs => hoccurs.cons he
      · exact Or.inr (occurs_head hQ)
  by_cases hend : pending u
  · exact Or.inl hend
  · refine Or.inr ?_
    rintro xs e ys t v r rfl hxs hP he
    obtain ⟨t', hxs', hys⟩ := run_append.mp h
    obtain rfl : t = t' := Option.some.inj (hxs.symm.trans hxs')
    rw [run_cons_some ys he] at hys
    have ht : Inv t := run_invariant hkeep hs hxs
    have hv : Inv v := hkeep t e v r ht he
    exact (hpending hv (hbegins t e v r ht hP he) hys).resolve_left hend

end Fissure.Library
