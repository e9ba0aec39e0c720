/-
Binary search over an index range, as Go's sort.Search runs it, and what it
finds when the predicate is monotone: the least index where it holds.
-/

import Mathlib.Tactic.Common

namespace Shunt.Library

def searchLoop (holds : Nat → Bool) : Nat → Nat → Nat → Nat
  | 0, low, _ => low
  | fuel + 1, low, high =>
    if low < high then
      let middle := (low + high) / 2
      if holds middle then searchLoop holds fuel low middle
      else searchLoop holds fuel (middle + 1) high
    else low

def search (count : Nat) (holds : Nat → Bool) : Nat :=
  searchLoop holds count 0 count

section

variable {holds : Nat → Bool}
  (monotone : ∀ low high, low ≤ high → holds low = true → holds high = true)

include monotone

theorem searchLoop_spec (count : Nat) :
    ∀ fuel low high, high - low ≤ fuel → low ≤ high → high ≤ count →
      (∀ index, index < low → holds index = false) → (high < count → holds high = true) →
      (∀ index, index < searchLoop holds fuel low high → holds index = false) ∧
        (searchLoop holds fuel low high < count → holds (searchLoop holds fuel low high) = true) ∧
        searchLoop holds fuel low high ≤ count := by
  intro fuel
  induction fuel with
  | zero =>
    intro low high width ordered bounded below above
    have eq : low = high := by omega
    subst eq
    exact ⟨below, above, bounded⟩
  | succ fuel ih =>
    intro low high width ordered bounded below above
    unfold searchLoop
    by_cases open_ : low < high
    · simp only [if_pos open_]
      have isIn : low ≤ (low + high) / 2 ∧ (low + high) / 2 < high := by omega
      by_cases got : holds ((low + high) / 2)
      · rw [if_pos got]
        exact ih low ((low + high) / 2) (by omega) isIn.1 (by omega) below (fun _ => got)
      rw [if_neg got]
      refine ih ((low + high) / 2 + 1) high (by omega) (by omega) bounded ?_ above
      intro index prev
      by_contra reached
      have later := monotone index ((low + high) / 2) (by omega) (by simpa using reached)
      exact got later
    · have eq : low = high := by omega
      subst eq
      simp only [if_neg open_]
      exact ⟨below, above, bounded⟩

theorem search_spec (count : Nat) : (∀ index, index < search count holds → holds index = false) ∧
      (search count holds < count → holds (search count holds) = true) ∧
      search count holds ≤ count :=
  searchLoop_spec monotone count count 0 count (by omega) (by omega) (by omega)
    (by intro index prev; omega) (by intro prev; omega)

theorem search_eq (count least : Nat) (lt : least < count)
    (got : holds least) (below : ∀ index, index < least → holds index = false) :
    search count holds = least := by
  obtain ⟨prev, post, bounded⟩ := search_spec monotone count
  rcases Nat.lt_trichotomy (search count holds) least with early | eq | late
  · have no := below _ early
    rw [post (by omega)] at no
    cases no
  · exact eq
  have no := prev least late
  rw [got] at no
  cases no

end

end Shunt.Library
