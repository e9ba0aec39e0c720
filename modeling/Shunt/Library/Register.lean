/-
One key of a store whose every write takes the next revision.  The key holds the
revision of its last write; a read brings back that revision, or zero for a missing
key, and a later write compares it.
-/

import Mathlib.Logic.Basic

namespace Shunt.Library

structure Register (α : Type) where
  rev : Nat := 0
  cell : Option (Nat × α) := none
  within : ∀ entry, cell = some entry → 0 < entry.1 ∧ entry.1 ≤ rev := by intro _ h; cases h

namespace Register

variable {α : Type} {r : Register α} {v : α} {read : Option α} {m : Nat}

def modRev (r : Register α) : Nat := (r.cell.map Prod.fst).getD 0

def value (r : Register α) : Option α := r.cell.map Prod.snd

def tick (r : Register α) : Register α :=
  ⟨r.rev + 1, r.cell, fun entry held =>
    ⟨(r.within entry held).1, Nat.le_succ_of_le (r.within entry held).2⟩⟩

def put (r : Register α) (v : α) : Register α :=
  ⟨r.rev + 1, some (r.rev + 1, v), by rintro entry ⟨⟩; exact ⟨Nat.succ_pos _, Nat.le_refl _⟩⟩

def remove (r : Register α) : Register α :=
  ⟨r.rev + 1, none, fun _ held => by cases held⟩

/-- A reader was given revision `m` with value `read`: while the key has that revision it
has that value. -/
structure Saw (r : Register α) (m : Nat) (read : Option α) : Prop where
  le : m ≤ r.rev
  missing : m = 0 → read = none
  same : r.modRev = m → r.value = read

theorem modRev_le : r.modRev ≤ r.rev := by
  unfold modRev
  cases held : r.cell with
  | none => exact Nat.zero_le _
  | some entry => exact (r.within entry held).2

theorem saw_now : r.Saw r.modRev r.value := by
  refine ⟨modRev_le, ?_, fun _ => rfl⟩
  intro zero
  unfold modRev at zero
  unfold value
  cases held : r.cell with
  | none => rfl
  | some entry =>
    have pos := (r.within entry held).1
    rw [held, Option.map_some, Option.getD_some] at zero
    omega

theorem Saw.tick (saw : r.Saw m read) : r.tick.Saw m read :=
  ⟨Nat.le_succ_of_le saw.le, saw.missing, saw.same⟩

theorem Saw.put (saw : r.Saw m read) : (r.put v).Saw m read := by
  refine ⟨Nat.le_succ_of_le saw.le, saw.missing, ?_⟩
  intro equal
  have le := saw.le
  change r.rev + 1 = m at equal
  omega

theorem Saw.remove (saw : r.Saw m read) : r.remove.Saw m read := by
  refine ⟨Nat.le_succ_of_le saw.le, saw.missing, ?_⟩
  intro equal
  exact (saw.missing equal.symm).symm

@[simp] theorem value_tick : r.tick.value = r.value := rfl

@[simp] theorem value_put : (r.put v).value = some v := rfl

@[simp] theorem value_remove : r.remove.value = none := rfl

end Register

end Shunt.Library
