/-
Maps built by a fold in which each element touches one key.
-/

import Mathlib.Data.List.Basic
import Std.Data.ExtTreeMap

namespace Shunt.Library

open List

section

variable {A K V : Type} [Ord K] [Std.TransOrd K]
  {put : Std.ExtTreeMap K V → A → Std.ExtTreeMap K V} {k : K}
  {m : Std.ExtTreeMap K V} {items : List A}

theorem foldl_elsewhere (key : A → K) (elsewhere : ∀ m a k, k ≠ key a → (put m a)[k]? = m[k]?)
    (away : ∀ a ∈ items, k ≠ key a) : (items.foldl put m)[k]? = m[k]? := by
  induction items generalizing m with
  | nil => rfl
  | cons first rest ih =>
    rw [foldl_cons, ih fun a mem => away a (mem_cons_of_mem first mem)]
    exact elsewhere m first k (away first mem_cons_self)

theorem foldl_at (key : A → K) (elsewhere : ∀ m a k, k ≠ key a → (put m a)[k]? = m[k]?)
    (own : ∀ m m' a, m[key a]? = m'[key a]? → (put m a)[key a]? = (put m' a)[key a]?)
    (apart : items.Pairwise fun a b => key a ≠ key b) {a : A} (mem : a ∈ items) :
    (items.foldl put m)[key a]? = (put m a)[key a]? := by
  induction items generalizing m with
  | nil => cases mem
  | cons first rest ih =>
    obtain ⟨others, later⟩ := pairwise_cons.mp apart
    rw [foldl_cons]
    rcases mem_cons.mp mem with rfl | inRest
    · exact foldl_elsewhere key elsewhere others
    · rw [ih later inRest]
      exact own _ _ a (elsewhere m first (key a) fun eq => others a inRest eq.symm)

end

end Shunt.Library
