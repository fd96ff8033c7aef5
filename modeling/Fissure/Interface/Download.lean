import Fissure.Library.WriteOnce

/-!
# A download as a store of verified pieces

What the actors of a torrent are for, without their messages, timers, buffers and files: pieces
arrive one by one, each with bytes that are right for it, and what has arrived stays. A download is
complete when it has all `n` pieces.
-/

set_option autoImplicit false

namespace Fissure.Interface

open Fissure.Library

/-- For each piece its bytes, if it has arrived. -/
abbrev Download := ℕ → Option (List UInt8)

/-- No piece has arrived. -/
def Download.nothing : Download := fun _ => none

/-- A piece arrives. -/
def downloadStep (Verified : ℕ → List UInt8 → Prop) [∀ p data, Decidable (Verified p data)] :
    Download → ℕ × List UInt8 → Option (Download × Unit) :=
  writeOnce Verified

theorem allAcceptable_nothing (Verified : ℕ → List UInt8 → Prop) :
    AllAcceptable Verified Download.nothing := by
  intro p data h
  cases h

end Fissure.Interface
