/-
The key hash space: ranges of it, and the leading share of a range that a move
takes.  The 128-bit product and quotient are computed word by word, as the
source computes them, and shown never to leave their words.
-/

import Shunt.Directory.Placement

namespace Shunt.Directory

def HashRange.contains (rg : HashRange) (h : Hash) : Bool :=
  decide (rg.lo ≤ h) && decide (h ≤ rg.hi)

def mul64 (x y : UInt64) : UInt64 × UInt64 :=
  (UInt64.ofNat (x.toNat * y.toNat / 2 ^ 64), UInt64.ofNat (x.toNat * y.toNat % 2 ^ 64))

def add64 (x y carry : UInt64) : UInt64 × UInt64 :=
  (UInt64.ofNat ((x.toNat + y.toNat + carry.toNat) % 2 ^ 64),
    UInt64.ofNat ((x.toNat + y.toNat + carry.toNat) / 2 ^ 64))

def div64 (hi lo y : UInt64) : UInt64 × UInt64 :=
  (UInt64.ofNat ((hi.toNat * 2 ^ 64 + lo.toNat) / y.toNat),
    UInt64.ofNat ((hi.toNat * 2 ^ 64 + lo.toNat) % y.toNat))

def div64Faults (hi y : UInt64) : Prop := y = 0 ∨ y ≤ hi

def roundAway (q : ℚ) : Int :=
  if 0 ≤ q then (q + 1 / 2).floor else -(-q + 1 / 2).floor

def shareCount (share : ℚ) : UInt64 :=
  UInt64.ofNat (max 1 (roundAway (share * 10000))).toNat

def shareProduct (rg : HashRange) (count : UInt64) : UInt64 × UInt64 :=
  let product := mul64 (rg.hi - rg.lo) count
  let sum := add64 product.2 count 0
  (product.1 + sum.2, sum.1)

def leadingShare (rg : HashRange) (share : ℚ) : HashRange :=
  if 1 ≤ share ∨ rg.hi < rg.lo then rg
  else
    let count := shareCount share
    if 10000 ≤ count then rg
    else
      let product := shareProduct rg count
      let quotient := (div64 product.1 product.2 10000).1
      if quotient = 0 then ⟨rg.lo, rg.lo⟩
      else ⟨rg.lo, rg.lo + (quotient - 1)⟩

theorem leadingShare_whole (rg : HashRange) (share : ℚ) (all : 1 ≤ share) :
    leadingShare rg share = rg := by
  unfold leadingShare
  rw [if_pos (.inl all)]

theorem shareProduct_value (rg : HashRange) (count : UInt64) (small : count.toNat < 10000) :
    (shareProduct rg count).1.toNat * 2 ^ 64 + (shareProduct rg count).2.toNat =
      ((rg.hi - rg.lo).toNat + 1) * count.toNat := by
  have width := (rg.hi - rg.lo).toNat_lt
  have bounded : (rg.hi - rg.lo).toNat * count.toNat ≤ (2 ^ 64 - 1) * 9999 :=
    Nat.mul_le_mul (by omega) (by omega)
  rw [Nat.add_mul, Nat.one_mul]
  simp only [shareProduct, mul64, add64]
  generalize (rg.hi - rg.lo).toNat * count.toNat = product at bounded ⊢
  have zero : (0 : UInt64).toNat = 0 := rfl
  simp only [UInt64.toNat_ofNat', zero, UInt64.toNat_add]
  omega

theorem shareQuotient_value (rg : HashRange) (count : UInt64) (small : count.toNat < 10000) :
    (div64 (shareProduct rg count).1 (shareProduct rg count).2 10000).1.toNat =
      ((rg.hi - rg.lo).toNat + 1) * count.toNat / 10000 := by
  have width := (rg.hi - rg.lo).toNat_lt
  have bounded : ((rg.hi - rg.lo).toNat + 1) * count.toNat ≤ 2 ^ 64 * 9999 :=
    Nat.mul_le_mul (by omega) (by omega)
  have divisor : (10000 : UInt64).toNat = 10000 := rfl
  simp only [div64, shareProduct_value rg count small, divisor]
  rw [UInt64.toNat_ofNat']
  omega

theorem leadingShare_lo (rg : HashRange) (share : ℚ) : (leadingShare rg share).lo = rg.lo := by
  unfold leadingShare
  dsimp only
  split
  · rfl
  split
  · rfl
  · split <;> rfl

theorem leadingShare_last (rg : HashRange) (share : ℚ) (ordered : rg.lo ≤ rg.hi)
    (part : share < 1) (small : (shareCount share).toNat < 10000) :
    (leadingShare rg share).hi.toNat + 1 = rg.lo.toNat +
        max 1 ((rg.hi.toNat - rg.lo.toNat + 1) * (shareCount share).toNat / 10000) ∧
      (leadingShare rg share).hi ≤ rg.hi := by
  have forward := UInt64.le_iff_toNat_le.mp ordered
  have quotient := shareQuotient_value rg (shareCount share) small
  rw [UInt64.toNat_sub_of_le rg.hi rg.lo ordered] at quotient
  have all : ¬ (1 ≤ share ∨ rg.hi < rg.lo) :=
    not_or.mpr ⟨Rat.not_le.mpr part, UInt64.not_lt.mpr ordered⟩
  have cut : ¬ (10000 : UInt64) ≤ shareCount share := by
    rw [UInt64.le_iff_toNat_le]
    exact Nat.not_le.mpr small
  unfold leadingShare
  rw [if_neg all]
  dsimp only
  rw [if_neg cut, ← quotient]
  have short : (div64 (shareProduct rg (shareCount share)).1
      (shareProduct rg (shareCount share)).2 10000).1.toNat ≤ rg.hi.toNat - rg.lo.toNat + 1 := by
    rw [quotient]
    calc (rg.hi.toNat - rg.lo.toNat + 1) * (shareCount share).toNat / 10000
        ≤ (rg.hi.toNat - rg.lo.toNat + 1) * 10000 / 10000 :=
          Nat.div_le_div_right (Nat.mul_le_mul_left _ (by omega))
      _ = rg.hi.toNat - rg.lo.toNat + 1 := Nat.mul_div_cancel _ (by omega)
  generalize (div64 (shareProduct rg (shareCount share)).1
    (shareProduct rg (shareCount share)).2 10000).1 = count at short ⊢
  split
  · rename_i zero
    rw [zero]
    exact ⟨rfl, ordered⟩
  rename_i some_
  have pos : 1 ≤ count.toNat := by
    by_contra zero
    exact some_ (UInt64.toNat_inj.mp (by change count.toNat = 0; omega))
  have bounded := rg.hi.toNat_lt
  have last : (rg.lo + (count - 1)).toNat = rg.lo.toNat + (count.toNat - 1) := by
    rw [UInt64.toNat_add, UInt64.toNat_sub_of_le count 1 (UInt64.le_iff_toNat_le.mpr pos)]
    exact Nat.mod_eq_of_lt (by change rg.lo.toNat + (count.toNat - 1) < 2 ^ 64; omega)
  rw [UInt64.le_iff_toNat_le, last]
  omega

theorem leadingShare_inside (rg : HashRange) (share : ℚ) (ordered : rg.lo ≤ rg.hi) :
    rg.lo ≤ (leadingShare rg share).hi ∧ (leadingShare rg share).hi ≤ rg.hi := by
  by_cases part : share < 1 ∧ (shareCount share).toNat < 10000
  · obtain ⟨last, lt⟩ := leadingShare_last rg share ordered part.1 part.2
    refine ⟨UInt64.le_iff_toNat_le.mpr ?_, lt⟩
    omega
  have all : leadingShare rg share = rg := by
    unfold leadingShare
    split
    · rfl
    rename_i less
    refine if_pos (UInt64.le_iff_toNat_le.mpr (Nat.le_of_not_lt fun small => part ⟨?_, small⟩))
    exact Rat.not_le.mp fun full => less (.inl full)
  rw [all]
  exact ⟨ordered, UInt64.le_refl _⟩

end Shunt.Directory
