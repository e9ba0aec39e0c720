/-
The leading share of a range, for shares of whole ten-thousandths: how wide it
is, that its 128-bit division is defined, and that a larger share takes more.
-/

import Mathlib.Tactic.Linarith
import Shunt.Directory.HashSpace

namespace Shunt.Directory

theorem shareCount_near {share : ℚ} {k : Nat} (low : 1 ≤ k) (high : k ≤ 9999)
    (near : |share * 10000 - k| < 1 / 2) : (shareCount share).toNat = k := by
  obtain ⟨above, below⟩ := abs_lt.mp near
  have least : (1 : ℚ) ≤ k := by exact_mod_cast low
  have rounded : roundAway (share * 10000) = k := by
    unfold roundAway
    rw [if_pos (by linarith)]
    apply le_antisymm
    · refine Int.le_of_lt_add_one (Rat.floor_lt_iff.mpr ?_)
      push_cast
      linarith
    refine Rat.le_floor_iff.mpr ?_
    push_cast
    linarith
  unfold shareCount
  rw [rounded, max_eq_right (by omega), Int.toNat_natCast]
  exact UInt64.toNat_ofNat_of_lt (by change k < 2 ^ 64; omega)

/-- A share within half a ten-thousandth of `k` of them, as every binary float of that share is,
takes exactly `k` ten-thousandths of the range, rounded down to no less than one hash. -/
theorem leadingShare_exact (rg : HashRange) (k : Nat) (share : ℚ) (ordered : rg.lo ≤ rg.hi)
    (low : 1 ≤ k) (high : k ≤ 9999) (near : |share * 10000 - k| < 1 / 2) :
    (shareProduct rg (shareCount share)).1.toNat * 2 ^ 64 +
        (shareProduct rg (shareCount share)).2.toNat = (rg.hi.toNat - rg.lo.toNat + 1) * k ∧
      ¬ div64Faults (shareProduct rg (shareCount share)).1 10000 ∧
      (leadingShare rg share).lo = rg.lo ∧ (leadingShare rg share).hi ≤ rg.hi ∧
      (leadingShare rg share).hi.toNat + 1 =
        rg.lo.toNat + max 1 ((rg.hi.toNat - rg.lo.toNat + 1) * k / 10000) ∧
      ∀ (more : Nat) (larger : ℚ), k ≤ more → more ≤ 9999 → |larger * 10000 - more| < 1 / 2 →
        (leadingShare rg share).hi ≤ (leadingShare rg larger).hi := by
  have counts : ∀ {k : Nat} {share : ℚ}, 1 ≤ k → k ≤ 9999 → |share * 10000 - k| < 1 / 2 →
      (leadingShare rg share).hi.toNat + 1 =
          rg.lo.toNat + max 1 ((rg.hi.toNat - rg.lo.toNat + 1) * k / 10000) ∧
        (leadingShare rg share).hi ≤ rg.hi := by
    intro k share low high near
    have count := shareCount_near low high near
    have part : share < 1 := by
      have most : (k : ℚ) ≤ 9999 := by exact_mod_cast high
      have below := (abs_lt.mp near).2
      linarith
    have last := leadingShare_last rg share ordered part (by omega)
    rwa [count] at last
  have count := shareCount_near low high near
  have product := shareProduct_value rg (shareCount share) (by omega)
  rw [count, UInt64.toNat_sub_of_le rg.hi rg.lo ordered] at product
  obtain ⟨last, lt⟩ := counts low high near
  refine ⟨product, ?_, leadingShare_lo rg share, lt, last, ?_⟩
  · rintro (zero | large)
    · cases zero
    have bounded := rg.hi.toNat_lt
    have most : (rg.hi.toNat - rg.lo.toNat + 1) * k ≤ 2 ^ 64 * 9999 :=
      Nat.mul_le_mul (by omega) high
    have high : 10000 ≤ (shareProduct rg (shareCount share)).1.toNat :=
      UInt64.le_iff_toNat_le.mp large
    omega
  intro more larger ordered_ most nearMore
  have later := (counts (Nat.le_trans low ordered_) most nearMore).1
  have grows : (rg.hi.toNat - rg.lo.toNat + 1) * k / 10000 ≤
      (rg.hi.toNat - rg.lo.toNat + 1) * more / 10000 :=
    Nat.div_le_div_right (Nat.mul_le_mul_left _ ordered_)
  rw [UInt64.le_iff_toNat_le]
  omega

theorem leadingShare_quarter :
    (leadingShare fullRange (1 / 4)).hi.toNat + 1 = 0 + max 1 (2 ^ 64 * 2500 / 10000) :=
  (leadingShare_exact fullRange 2500 (1 / 4) (by decide) (by decide) (by decide)
    (by norm_num)).2.2.2.2.1

end Shunt.Directory
