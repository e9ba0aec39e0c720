/-
Lists of cells that tile an interval of the naturals: each cell starts where
the one before it ends, and the last one ends the interval.  A cell is any type
with a first and a last point.
-/

import Mathlib.Tactic.Common

namespace Shunt.Library

open List

variable {ι : Type} (first last : ι → Nat)

/-- The cells cover `[start, stop)` in order, without a gap or an overlap. -/
inductive Tiles : Nat → Nat → List ι → Prop where
  | nil (start : Nat) : Tiles start start []
  | cons {start stop : Nat} {cell : ι} {rest : List ι} (begins : first cell = start)
      (ordered : first cell ≤ last cell) (tail : Tiles (last cell + 1) stop rest) :
      Tiles start stop (cell :: rest)

variable {first last} {start middle stop : Nat} {cells more : List ι}

namespace Tiles

theorem nil_iff : Tiles first last start stop [] ↔ start = stop := by
  constructor
  · intro tiles
    cases tiles
    rfl
  intro eq
  rw [eq]
  exact .nil stop

theorem cons_iff {cell : ι} : Tiles first last start stop (cell :: cells) ↔
    first cell = start ∧ first cell ≤ last cell ∧ Tiles first last (last cell + 1) stop cells := by
  constructor
  · intro tiles
    cases tiles with
    | cons begins ordered tail => exact ⟨begins, ordered, tail⟩
  · rintro ⟨begins, ordered, tail⟩
    exact .cons begins ordered tail

theorem start_le_stop (tiles : Tiles first last start stop cells) : start ≤ stop := by
  induction tiles with
  | nil start => exact Nat.le_refl start
  | cons => omega

theorem append (tiles : Tiles first last start middle cells)
    (later : Tiles first last middle stop more) : Tiles first last start stop (cells ++ more) := by
  induction tiles with
  | nil => exact later
  | cons begins ordered _ ih => exact .cons begins ordered (ih later)

theorem bounds (tiles : Tiles first last start stop cells) {cell : ι} (mem : cell ∈ cells) :
    start ≤ first cell ∧ first cell ≤ last cell ∧ last cell < stop := by
  induction tiles with
  | nil => cases mem
  | cons begins ordered tail ih =>
    have ends := tail.start_le_stop
    rcases mem_cons.mp mem with eq | later
    · subst eq
      omega
    · have isIn := ih later
      omega

theorem exists_cell (tiles : Tiles first last start stop cells) {point : Nat}
    (low : start ≤ point) (high : point < stop) :
    ∃ cell ∈ cells, first cell ≤ point ∧ point ≤ last cell := by
  induction tiles with
  | nil => omega
  | @cons start stop cell rest begins ordered tail ih =>
    by_cases isIn : point ≤ last cell
    · exact ⟨cell, mem_cons_self, by omega, isIn⟩
    · obtain ⟨got, mem, holds⟩ := ih (by omega) high
      exact ⟨got, mem_cons_of_mem cell mem, holds⟩

theorem pairwise (tiles : Tiles first last start stop cells) :
    cells.Pairwise fun left right => last left < first right := by
  induction tiles with
  | nil => exact List.Pairwise.nil
  | cons begins ordered tail ih =>
    refine List.Pairwise.cons ?_ ih
    intro cell mem
    have isIn := tail.bounds mem
    omega

theorem cell_unique (tiles : Tiles first last start stop cells) {left right : ι} {point : Nat}
    (atLeft : left ∈ cells) (atRight : right ∈ cells)
    (inLeft : first left ≤ point ∧ point ≤ last left)
    (inRight : first right ≤ point ∧ point ≤ last right) : left = right := by
  induction tiles with
  | nil => cases atLeft
  | cons begins ordered tail ih =>
    rcases mem_cons.mp atLeft with sameLeft | laterLeft
    · rcases mem_cons.mp atRight with sameRight | laterRight
      · rw [sameLeft, sameRight]
      have isIn := tail.bounds laterRight
      subst sameLeft
      omega
    rcases mem_cons.mp atRight with sameRight | laterRight
    · have isIn := tail.bounds laterLeft
      subst sameRight
      omega
    · exact ih laterLeft laterRight

theorem concat_inv {cell : ι} (tiles : Tiles first last start stop (cells ++ [cell])) :
    Tiles first last start (first cell) cells ∧ first cell ≤ last cell ∧ last cell + 1 = stop := by
  induction cells generalizing start with
  | nil =>
    cases tiles with
    | cons begins ordered tail =>
      cases tail with
      | nil =>
        subst begins
        exact ⟨.nil _, ordered, rfl⟩
  | cons head rest ih =>
    cases tiles with
    | cons begins ordered tail =>
      obtain ⟨prev, isIn, ends⟩ := ih tail
      exact ⟨.cons begins ordered prev, isIn, ends⟩

/-- Every point lies in exactly one position of the list. -/
theorem count_eq_one (tiles : Tiles first last start stop cells) {point : Nat}
    (low : start ≤ point) (high : point < stop) :
    cells.countP (fun cell => decide (first cell ≤ point ∧ point ≤ last cell)) = 1 := by
  induction tiles with
  | nil => omega
  | @cons start stop cell rest begins ordered tail ih =>
    rw [countP_cons]
    by_cases isIn : point ≤ last cell
    · have others : rest.countP
          (fun cell => decide (first cell ≤ point ∧ point ≤ last cell)) = 0 := by
        rw [countP_eq_zero]
        intro other mem
        have later := (tail.bounds mem).1
        rw [decide_eq_true_eq]
        omega
      rw [others, if_pos (decide_eq_true ⟨by omega, isIn⟩)]
    · rw [ih (by omega) high, if_neg (by rw [decide_eq_true_eq]; omega)]

/-- Cells in order of their starts that hold every point exactly once are a tiling. -/
theorem of_counts (sorted : cells.Pairwise fun left right => first left ≤ first right)
    (isIn : ∀ cell ∈ cells, start ≤ first cell ∧ first cell ≤ last cell ∧ last cell < stop)
    (room : start ≤ stop) (once : ∀ point, start ≤ point → point < stop →
      cells.countP (fun cell => decide (first cell ≤ point ∧ point ≤ last cell)) = 1) :
    Tiles first last start stop cells := by
  induction cells generalizing start with
  | nil =>
    rcases Nat.lt_or_eq_of_le room with open_ | eq
    · have counted := once start (Nat.le_refl _) open_
      cases counted
    · exact nil_iff.mpr eq
  | cons cell rest ih =>
    obtain ⟨low, ordered, high⟩ := isIn cell mem_cons_self
    obtain ⟨prev, sortedRest⟩ := pairwise_cons.mp sorted
    have begins : first cell = start := by
      have counted := once start (Nat.le_refl _) (by omega)
      have pos := countP_pos_iff.mp (by rw [counted]; exact Nat.one_pos)
      obtain ⟨got, mem, holds⟩ := pos
      rw [decide_eq_true_eq] at holds
      rcases mem_cons.mp mem with eq | later
      · subst eq
        omega
      · have old := prev got later
        omega
    -- a later cell that started inside this one would count its start twice
    have post : ∀ other ∈ rest, last cell < first other := by
      intro other mem
      by_contra meets
      obtain ⟨lowOther, orderedOther, highOther⟩ := isIn other (mem_cons_of_mem cell mem)
      have counted := once (first other) lowOther (by omega)
      have again : 0 < rest.countP
          (fun cell => decide (first cell ≤ first other ∧ first other ≤ last cell)) :=
        countP_pos_iff.mpr ⟨other, mem, decide_eq_true ⟨Nat.le_refl _, orderedOther⟩⟩
      rw [countP_cons, if_pos (decide_eq_true ⟨by omega, by omega⟩)] at counted
      omega
    refine .cons begins ordered (ih sortedRest ?_ (by omega) ?_)
    · intro other mem
      have bounds := isIn other (mem_cons_of_mem cell mem)
      have apart := post other mem
      omega
    intro point lowPoint highPoint
    have counted := once point (by omega) highPoint
    rwa [countP_cons, if_neg (by rw [decide_eq_true_eq]; omega)] at counted

end Tiles

end Shunt.Library
