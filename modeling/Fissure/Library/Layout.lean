import Mathlib.Data.Nat.Notation

/-!
# Packets of fields in fixed places

A packet that is made by appending its fields has each of them where a table of offsets and widths
says (`Consecutive.hasFields`), as long as every field has the width of its place. The entries of a
table are an offset, a width and the field.
-/

set_option autoImplicit false

namespace Fissure.Library

variable {β : Type}

/-- The packet has the length `length`, and each field of the table stands in its place. -/
structure HasFields (length : ℕ) (table : List (ℕ × ℕ × List β)) (packet : List β) : Prop where
  length_eq : packet.length = length
  fields : ∀ entry ∈ table, (packet.drop entry.1).take entry.2.1 = entry.2.2

/-- The places of the table follow each other from `start` to `stop`, and the fields fill them. -/
def Consecutive (start stop : ℕ) : List (ℕ × ℕ × List β) → Prop
  | [] => start = stop
  | (offset, width, field) :: table =>
    offset = start ∧ field.length = width ∧ Consecutive (start + width) stop table

/-- The fields of the table one after the other. -/
def appended (table : List (ℕ × ℕ × List β)) : List β := table.flatMap fun entry => entry.2.2

theorem appended_cons (entry : ℕ × ℕ × List β) (table : List (ℕ × ℕ × List β)) :
    appended (entry :: table) = entry.2.2 ++ appended table := List.flatMap_cons

/-- Fields that follow each other stand in their places, whatever is before them. -/
theorem Consecutive.hasFields_append {start stop : ℕ} {table : List (ℕ × ℕ × List β)}
    (h : Consecutive start stop table) {before : List β} (hbefore : before.length = start) :
    HasFields stop table (before ++ appended table) := by
  induction table generalizing start before with
  | nil =>
    refine ⟨?_, nofun⟩
    rw [appended, List.flatMap_nil, List.append_nil, hbefore]
    exact h
  | cons entry table ih =>
    obtain ⟨offset, width, field⟩ := entry
    obtain ⟨hoffset, hwidth, hrest⟩ := h
    have hstart : (before ++ field).length = start + width := by
      rw [List.length_append, hbefore, hwidth]
    have hpacket : before ++ appended ((offset, width, field) :: table) =
        before ++ field ++ appended table := by
      rw [appended_cons, List.append_assoc]
    rw [hpacket]
    obtain ⟨hlength, hfields⟩ := ih hrest hstart
    refine ⟨hlength, List.forall_mem_cons.mpr ⟨?_, hfields⟩⟩
    rw [List.append_assoc, List.drop_left' (hbefore.trans hoffset.symm), List.take_left' hwidth]

/-- **Fields that are appended stand in their places.** -/
theorem Consecutive.hasFields {stop : ℕ} {table : List (ℕ × ℕ × List β)}
    (h : Consecutive 0 stop table) : HasFields stop table (appended table) :=
  h.hasFields_append List.length_nil

end Fissure.Library
