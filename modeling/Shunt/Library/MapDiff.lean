/-
The difference of two maps as a list of changes, and states brought from one value
to another by a list of changes that each touch one key.
-/

import Mathlib.Data.List.Basic
import Std.Data.ExtTreeMap

namespace Shunt.Library

open List Std.ExtTreeMap

section

variable {S D K : Type} (put : S → D → S) (key : D → K) (Old Good : K → S → Prop)

theorem foldl_settles (oldElsewhere : ∀ s d k, k ≠ key d → Old k s → Old k (put s d))
    (goodElsewhere : ∀ s d k, k ≠ key d → Good k s → Good k (put s d)) {changes : List D}
    (settles : ∀ d ∈ changes, ∀ s, Old (key d) s ∨ Good (key d) s → Good (key d) (put s d)) {s : S}
    (start : ∀ k, Old k s ∨ Good k s) :
    ∀ k, (Good k s ∨ ∃ d ∈ changes, key d = k) → Good k (changes.foldl put s) := by
  induction changes generalizing s with
  | nil =>
    intro k rests
    rcases rests with good | ⟨d, mem, -⟩
    · exact good
    · cases mem
  | cons d rest ih =>
    have first : Good (key d) (put s d) := settles d (by simp) s (start (key d))
    have onward : ∀ k, Old k (put s d) ∨ Good k (put s d) := by
      intro k
      by_cases here : k = key d
      · rw [here]
        exact .inr first
      · exact (start k).imp (oldElsewhere s d k here) (goodElsewhere s d k here)
    intro k rests
    refine ih (fun later mem => settles later (by simp [mem])) onward k ?_
    by_cases here : k = key d
    · rw [here]
      exact .inl first
    rcases rests with good | ⟨e, mem, eq⟩
    · exact .inl (goodElsewhere s d k here good)
    rcases mem_cons.mp mem with rfl | post
    · exact absurd eq.symm here
    · exact .inr ⟨e, post, eq⟩

end

section

variable {K V D : Type} [Ord K] [Std.TransOrd K] [Std.LawfulEqOrd K]

def mapDiff (put : K → V → D) (delete : K → D) (eq : K → V → V → Bool)
    (cur next : Std.ExtTreeMap K V) : List D :=
  (next.toList.filterMap fun (k, v) =>
    if (cur[k]?).any fun old => eq k old v then none else some (put k v)) ++
  (cur.toList.filterMap fun (k, _) => if k ∈ next then none else some (delete k))

variable {put : K → V → D} {delete : K → D} {eq : K → V → V → Bool}
  {cur next : Std.ExtTreeMap K V}

theorem mem_mapDiff {d : D} (mem : d ∈ mapDiff put delete eq cur next) :
    (∃ k v, next[k]? = some v ∧ d = put k v) ∨ ∃ k, next[k]? = none ∧ d = delete k := by
  rcases mem_append.mp mem with wrote | removed
  · obtain ⟨⟨k, v⟩, isIn, kept⟩ := List.mem_filterMap.mp wrote
    refine .inl ⟨k, v, mem_toList_iff_getElem?_eq_some.mp isIn, ?_⟩
    dsimp only at kept
    split at kept
    · cases kept
    · exact (Option.some.inj kept).symm
  obtain ⟨⟨k, v⟩, isIn, kept⟩ := List.mem_filterMap.mp removed
  dsimp only at kept
  split at kept
  · cases kept
  rename_i gone
  refine .inr ⟨k, ?_, (Option.some.inj kept).symm⟩
  simpa using gone

theorem mapDiff_covers (k : K) :
    (∃ old v, cur[k]? = some old ∧ next[k]? = some v ∧ eq k old v = true) ∨
      (cur[k]? = none ∧ next[k]? = none) ∨
      (∃ v, next[k]? = some v ∧ put k v ∈ mapDiff put delete eq cur next) ∨
      (next[k]? = none ∧ delete k ∈ mapDiff put delete eq cur next) := by
  cases now : next[k]? with
  | none =>
    cases prev : cur[k]? with
    | none => exact .inr (.inl ⟨rfl, rfl⟩)
    | some old =>
      refine .inr (.inr (.inr ⟨rfl, mem_append_right _ ?_⟩))
      refine List.mem_filterMap.mpr ⟨(k, old), mem_toList_iff_getElem?_eq_some.mpr prev, ?_⟩
      have gone : k ∉ next := by
        rw [← isSome_getElem?_iff_mem, now]
        simp
      simp [gone]
  | some v =>
    by_cases kept : ∃ old, cur[k]? = some old ∧ eq k old v
    · obtain ⟨old, prev, equal⟩ := kept
      exact .inl ⟨old, v, prev, rfl, equal⟩
    refine .inr (.inr (.inl ⟨v, rfl, mem_append_left _ ?_⟩))
    refine List.mem_filterMap.mpr ⟨(k, v), mem_toList_iff_getElem?_eq_some.mpr now, ?_⟩
    cases prev : cur[k]? with
    | none => simp [prev]
    | some old =>
      have ne : eq k old v = false := by
        by_contra equal
        exact kept ⟨old, prev, by simpa using equal⟩
      simp [prev, ne]

end

end Shunt.Library
