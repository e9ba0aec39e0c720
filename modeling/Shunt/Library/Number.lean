/-
Floating-point numbers as a program compares them.  A number is exact; NaN is neither below,
above nor equal to anything.  What NaN becomes as an integer is left to the implementation:
it carries that word.
-/

import Mathlib.Algebra.Order.Ring.Unbundled.Rat

namespace Shunt.Library

inductive Number where
  | num (q : ℚ)
  | nan (word : UInt64)
  deriving DecidableEq

namespace Number

instance instZero : OfNat Number 0 := ⟨.num 0⟩

instance instOne : OfNat Number 1 := ⟨.num 1⟩

def lt : Number → Number → Bool
  | .num a, .num b => decide (a < b)
  | _, _ => false

def le : Number → Number → Bool
  | .num a, .num b => decide (a ≤ b)
  | _, _ => false

instance instLT : LT Number := ⟨fun a b => a.lt b = true⟩

instance instLE : LE Number := ⟨fun a b => a.le b = true⟩

instance instDecidableLT (a b : Number) : Decidable (a < b) :=
  inferInstanceAs (Decidable (a.lt b = true))

instance instDecidableLE (a b : Number) : Decidable (a ≤ b) :=
  inferInstanceAs (Decidable (a.le b = true))

def same (a b : Number) : Bool := decide (a = b) && a.le a

def isNum : Number → Bool
  | .num _ => true
  | .nan _ => false

def value : Number → ℚ
  | .num q => q
  | .nan _ => 0

def text : Number → String
  | .num q => toString q
  | .nan _ => "NaN"

def scale (a : Number) (by_ : ℚ) : Number :=
  match a with
  | .num q => .num (q * by_)
  | .nan word => .nan word

variable {a b : Number} {p q : ℚ}

@[simp] theorem num_lt : Number.num p < .num q ↔ p < q := decide_eq_true_iff

@[simp] theorem num_le : Number.num p ≤ .num q ↔ p ≤ q := decide_eq_true_iff

@[simp] theorem zero_eq : (0 : Number) = .num 0 := rfl

@[simp] theorem one_eq : (1 : Number) = .num 1 := rfl

theorem lt_irrefl : ¬ a < a := by
  cases a with
  | num => simp
  | nan => exact Bool.false_ne_true

theorem eq_of_same (same : a.same b) : a = b :=
  of_decide_eq_true (Bool.and_eq_true_iff.mp same).1

theorem le_iff : a ≤ b ↔ ∃ p q, a = .num p ∧ b = .num q ∧ p ≤ q := by
  constructor
  · intro le
    cases a with
    | nan => cases le
    | num p =>
      cases b with
      | nan => cases le
      | num q => exact ⟨p, q, rfl, rfl, num_le.mp le⟩
  · rintro ⟨p, q, rfl, rfl, le⟩
    exact num_le.mpr le

theorem exists_num (number : a.isNum) : ∃ q, a = .num q := by
  cases a with
  | num q => exact ⟨q, rfl⟩
  | nan => cases number

theorem le_of_not_lt (left : a.isNum) (right : b.isNum) (above : ¬ b < a) : a ≤ b := by
  obtain ⟨p, rfl⟩ := exists_num left
  obtain ⟨q, rfl⟩ := exists_num right
  exact num_le.mpr (not_lt.mp (mt num_lt.mpr above))

theorem lt_of_not_le (left : a.isNum) (right : b.isNum) (above : ¬ a ≤ b) : b < a := by
  obtain ⟨p, rfl⟩ := exists_num left
  obtain ⟨q, rfl⟩ := exists_num right
  exact num_lt.mpr (not_le.mp (mt num_le.mpr above))

end Number

end Shunt.Library
