/-
Owner tables as partitions of the key hash space: what the check accepts, what
the lookup returns, and what giving a range to a leg changes.
-/

import Mathlib.Data.List.Chain
import Shunt.Directory.Legs
import Shunt.Library.Partition

namespace Shunt.Directory

open Library List
open UInt64 (le_iff_toNat_le lt_iff_toNat_lt toNat_inj toNat_add toNat_one)

variable {owners : List Owner}

def hashCount : Nat := 2 ^ 64

def Owner.first (o : Owner) : Nat := o.lo.toNat

def Owner.last (o : Owner) : Nat := o.hi.toNat

def Owner.has (o : Owner) (h : Hash) : Prop := o.lo ≤ h ∧ h ≤ o.hi

/-- The table covers the hash space exactly once, in order. -/
abbrev Tiled (owners : List Owner) : Prop := Tiles Owner.first Owner.last 0 hashCount owners

theorem Owner.has_iff (o : Owner) (h : Hash) : o.has h ↔ o.first ≤ h.toNat ∧ h.toNat ≤ o.last := by
  simp only [Owner.has, Owner.first, Owner.last, le_iff_toNat_le]

theorem hash_lt (h : Hash) : h.toNat < hashCount := h.toNat_lt

theorem HashRange.contains_iff (rg : HashRange) (h : Hash) :
    rg.contains h ↔ rg.lo ≤ h ∧ h ≤ rg.hi := by
  simp only [HashRange.contains, Bool.and_eq_true, decide_eq_true_eq]

theorem fullRange_contains (h : Hash) : fullRange.contains h = true := by
  rw [HashRange.contains_iff, le_iff_toNat_le, le_iff_toNat_le]
  have bounded := h.toNat_lt
  constructor
  · exact Nat.zero_le _
  · change h.toNat ≤ 2 ^ 64 - 1
    omega

/-- An entry that starts, runs and ends as a tile does, and names a known leg. -/
def Owner.fits (o : Owner) (legs : StrMap Leg) (next : Hash) : Prop :=
  o.leg ∈ legs ∧ o.lo = next ∧ ¬ o.hi < o.lo

theorem checkOwnersFrom_cons (legs : StrMap Leg) (index : Nat) (next : Hash)
    (o : Owner) (rest : List Owner) (atStart : index = 0 → next = 0) :
    checkOwnersFrom legs index next (o :: rest) = none ↔ o.fits legs next ∧
        if o.hi = lastHash then rest = []
        else checkOwnersFrom legs (index + 1) (o.hi + 1) rest = none := by
  rw [checkOwnersFrom, Owner.fits]
  by_cases has : o.leg ∈ legs
  · by_cases begins : o.lo = next
    · have first : ¬ (index = 0 ∧ o.lo ≠ 0) := by
        rintro ⟨zero, ne⟩
        exact ne (begins.trans (atStart zero))
      rw [if_neg (not_not.mpr has), if_neg first, if_neg (not_not.mpr begins)]
      by_cases backward : o.hi < o.lo
      · simp [backward]
      rw [if_neg backward]
      by_cases ends : o.hi = lastHash
      · by_cases finished : rest = []
        · simp [has, begins, ends, finished] at backward ⊢
          exact backward
        · simp [has, begins, ends, finished]
      simp only [if_neg ends, has, begins, true_and]
      rw [begins] at backward
      exact (and_iff_right backward).symm
    · simp only [begins, false_and, and_false, iff_false]
      rw [if_neg (not_not.mpr has)]
      split <;> simp
  · simp [has]

theorem Owner.fits_iff (o : Owner) (legs : StrMap Leg) (next : Hash) :
    o.fits legs next ↔ o.leg ∈ legs ∧ o.first = next.toNat ∧ o.first ≤ o.last := by
  unfold Owner.fits Owner.first Owner.last
  rw [lt_iff_toNat_lt, toNat_inj, not_lt]

theorem Owner.next_toNat (o : Owner) (ends : o.hi ≠ lastHash) : (o.hi + 1).toNat = o.last + 1 := by
  have bounded := hash_lt o.hi
  have ne : o.hi.toNat ≠ hashCount - 1 := by
    intro eq
    exact ends (UInt64.toNat_inj.mp eq)
  rw [toNat_add, Owner.last]
  exact Nat.mod_eq_of_lt (by change o.hi.toNat + 1 < hashCount; omega)

theorem tiles_from_end (owners : List Owner) :
    Tiles Owner.first Owner.last hashCount hashCount owners ↔ owners = [] := by
  cases owners with
  | nil => simp only [Tiles.nil_iff]
  | cons o =>
    simp only [reduceCtorEq, iff_false]
    intro tiles
    have begins := (Tiles.cons_iff.mp tiles).1
    have bounded := hash_lt o.lo
    rw [Owner.first] at begins
    omega

theorem checkOwnersFrom_tiles (legs : StrMap Leg) (owners : List Owner) :
    ∀ index (next : Hash), (index = 0 → next = 0) → (checkOwnersFrom legs index next owners = none ↔
        Tiles Owner.first Owner.last next.toNat hashCount owners ∧ ∀ o ∈ owners, o.leg ∈ legs) := by
  induction owners with
  | nil =>
    intro index next _
    have bounded := hash_lt next
    simp only [checkOwnersFrom, reduceCtorEq, Tiles.nil_iff, false_iff]
    rintro ⟨eq, -⟩
    omega
  | cons o rest ih =>
    intro index next atStart
    rw [checkOwnersFrom_cons legs index next o rest atStart, Owner.fits_iff, Tiles.cons_iff,
      forall_mem_cons]
    by_cases ends : o.hi = lastHash
    · have lastEq : o.last + 1 = hashCount := by
        rw [Owner.last, ends]
        rfl
      rw [if_pos ends, lastEq, tiles_from_end]
      constructor
      · rintro ⟨⟨has, begins, ordered⟩, finished⟩
        subst finished
        exact ⟨⟨begins, ordered, rfl⟩, has, fun got mem => nomatch mem⟩
      · rintro ⟨⟨begins, ordered, finished⟩, has, -⟩
        exact ⟨⟨has, begins, ordered⟩, finished⟩
    · rw [if_neg ends, ih (index + 1) (o.hi + 1) (by omega), o.next_toNat ends]
      tauto

theorem checkOwners_accepts (owners : List Owner) (legs : StrMap Leg) :
    checkOwners owners legs = none ↔ Tiled owners ∧ ∀ o ∈ owners, o.leg ∈ legs := by
  unfold checkOwners
  by_cases empty : owners = []
  · subst empty
    simp only [if_true, reduceCtorEq, false_iff]
    rintro ⟨tiles, -⟩
    have covered := tiles.exists_cell (Nat.zero_le 0) (by decide)
    obtain ⟨cell, mem, -⟩ := covered
    cases mem
  · rw [if_neg empty, checkOwnersFrom_tiles legs owners 0 0 (fun _ => rfl)]
    rfl

theorem tiled_full (leg : String) : Tiled [⟨fullRange.lo, fullRange.hi, leg⟩] := by
  have ends : fullRange.hi.toNat + 1 = hashCount := by decide
  refine Tiles.cons rfl (Nat.zero_le _) ?_
  simp only [Owner.last, ends]
  exact .nil hashCount

theorem later_ends_later (tiled : Tiled owners) {low high : Nat}
    (ordered : low ≤ high) (isIn : high < owners.length) :
    owners[low].hi.toNat ≤ owners[high].hi.toNat := by
  rcases Nat.lt_or_eq_of_le ordered with old | eq
  · have apart := (pairwise_iff_getElem.mp tiled.pairwise) low high (by omega) isIn old
    have forward := (tiled.bounds (getElem_mem isIn)).2.1
    simp only [Owner.first, Owner.last] at apart forward
    omega
  · subst eq
    exact Nat.le_refl _

theorem ownerIn_of_mem (tiled : Tiled owners) {o : Owner} {h : Hash}
    (mem : o ∈ owners) (isIn : o.has h) : ownerIn owners h = o.leg := by
  obtain ⟨index, lt, got⟩ := getElem_of_mem mem
  have place : search owners.length (endsAfter owners h) = index := by
    apply search_eq _ owners.length index lt
    · simp only [endsAfter, getElem?_eq_getElem lt, got, decide_eq_true_eq]
      exact isIn.2
    · intro old prev
      have inList : old < owners.length := by omega
      have apart := (pairwise_iff_getElem.mp tiled.pairwise) old index inList lt prev
      rw [got] at apart
      simp only [endsAfter, getElem?_eq_getElem inList, decide_eq_false_iff_not]
      rw [le_iff_toNat_le]
      have reached := o.has_iff h |>.mp isIn
      simp only [Owner.last] at apart reached
      omega
    · intro low high ordered holds
      by_cases short : high < owners.length
      · have alsoShort : low < owners.length := by omega
        simp only [endsAfter, getElem?_eq_getElem short, getElem?_eq_getElem alsoShort,
          decide_eq_true_eq, le_iff_toNat_le] at holds ⊢
        exact Nat.le_trans holds (later_ends_later tiled ordered short)
      · simp only [endsAfter, List.getElem?_eq_none (Nat.le_of_not_lt short)]
  simp only [ownerIn, place, getElem?_eq_getElem lt, got]

theorem exists_owner (tiled : Tiled owners) (h : Hash) : ∃ o ∈ owners, o.has h := by
  obtain ⟨o, mem, isIn⟩ := tiled.exists_cell (Nat.zero_le _) (hash_lt h)
  exact ⟨o, mem, (o.has_iff h).mpr isIn⟩

theorem ownerIn_mem (tiled : Tiled owners) (h : Hash) :
    ∃ o ∈ owners, o.has h ∧ ownerIn owners h = o.leg := by
  obtain ⟨o, mem, isIn⟩ := exists_owner tiled h
  exact ⟨o, mem, isIn, ownerIn_of_mem tiled mem isIn⟩

section

variable {owners : List Owner} {rg : HashRange} {leg : String}
variable {start : Nat}

theorem mem_cutOwner {o e : Owner} (mem : e ∈ cutOwner rg leg o) : e = ⟨rg.lo, rg.hi, leg⟩ ∨
      e.leg = o.leg ∧ (∀ h, e.has h → o.has h ∧ rg.contains h = false) := by
  unfold cutOwner at mem
  split at mem
  · rename_i apart
    rw [mem_singleton] at mem
    subst mem
    refine .inr ⟨rfl, fun h isIn => ⟨isIn, ?_⟩⟩
    simp only [HashRange.contains, Owner.has] at isIn ⊢
    grind
  rename_i meets
  simp only [mem_append] at mem
  rcases mem with (prev | middle) | post
  · split at prev
    · rename_i starts
      rw [mem_singleton] at prev
      subst prev
      refine .inr ⟨rfl, fun h isIn => ?_⟩
      simp only [HashRange.contains, Owner.has, le_iff_toNat_le, lt_iff_toNat_lt,
        not_or, not_lt, Bool.and_eq_false_iff, decide_eq_false_iff_not] at isIn starts meets ⊢
      have width := UInt64.toNat_sub_of_le rg.lo 1 (by rw [le_iff_toNat_le]; simp; omega)
      simp only [toNat_one] at width
      omega
    · cases prev
  · split at middle
    · rw [mem_singleton] at middle
      exact .inl middle
    · cases middle
  split at post
  · rename_i ends
    rw [mem_singleton] at post
    subst post
    refine .inr ⟨rfl, fun h isIn => ?_⟩
    have bounded := hash_lt o.hi
    simp only [HashRange.contains, Owner.has, le_iff_toNat_le, lt_iff_toNat_lt,
      not_or, not_lt, Bool.and_eq_false_iff, decide_eq_false_iff_not] at isIn ends meets ⊢
    have width : (rg.hi + 1).toNat = rg.hi.toNat + 1 := by
      rw [toNat_add]
      exact Nat.mod_eq_of_lt (by change rg.hi.toNat + 1 < hashCount; omega)
    rw [width] at isIn
    omega
  · cases post

theorem pred_toNat {h low : Hash} (above : low < h) : (h - 1).toNat + 1 = h.toNat := by
  rw [lt_iff_toNat_lt] at above
  rw [UInt64.toNat_sub_of_le h 1 (by rw [le_iff_toNat_le]; simp; omega)]
  simp only [toNat_one]
  omega

theorem succ_toNat {h high : Hash} (below : h < high) : (h + 1).toNat = h.toNat + 1 := by
  rw [lt_iff_toNat_lt] at below
  have bounded := hash_lt high
  rw [toNat_add]
  exact Nat.mod_eq_of_lt (by change h.toNat + 1 < hashCount; omega)

theorem cut_after {stop : Nat}
    (tiles : Tiles Owner.first Owner.last start stop owners) (past : rg.hi.toNat < start) :
    owners.flatMap (cutOwner rg leg) = owners := by
  induction tiles with
  | nil => rfl
  | @cons start stop o rest begins ordered tail ih =>
    have kept : cutOwner rg leg o = [o] := by
      unfold cutOwner
      rw [if_pos (.inr (UInt64.lt_iff_toNat_lt.mpr (by simp only [Owner.first] at begins; omega)))]
    rw [flatMap_cons, kept, ih (by omega)]
    rfl

theorem tail_tiles {o : Owner} (ends : rg.hi < o.hi) :
    Tiles Owner.first Owner.last (rg.hi.toNat + 1) (o.last + 1) [⟨rg.hi + 1, o.hi, o.leg⟩] := by
  have step := succ_toNat ends
  rw [lt_iff_toNat_lt] at ends
  refine .cons ?_ ?_ (.nil _)
  · exact step
  · simp only [Owner.first, Owner.last]
    omega

theorem cut_within {stop : Nat} (tiles : Tiles Owner.first Owner.last start stop owners)
    (past : rg.lo.toNat < start) (reached : start ≤ rg.hi.toNat + 1) (room : rg.hi.toNat < stop) :
    Tiles Owner.first Owner.last (rg.hi.toNat + 1) stop (owners.flatMap (cutOwner rg leg)) := by
  induction tiles with
  | nil start =>
    have eq : start = rg.hi.toNat + 1 := by omega
    subst eq
    exact .nil _
  | @cons start stop o rest begins ordered tail ih =>
    by_cases finished : start = rg.hi.toNat + 1
    · rw [cut_after (.cons begins ordered tail) (by omega), ← finished]
      exact .cons begins ordered tail
    rw [flatMap_cons]
    simp only [Owner.first, Owner.last] at begins ordered
    have meets : ¬ (o.hi < rg.lo ∨ rg.hi < o.lo) := by
      simp only [lt_iff_toNat_lt]
      omega
    have late : ¬ o.lo < rg.lo := by rw [lt_iff_toNat_lt]; omega
    have later : ¬ o.lo ≤ rg.lo := by rw [le_iff_toNat_le]; omega
    have cut : cutOwner rg leg o =
        if rg.hi < o.hi then [⟨rg.hi + 1, o.hi, o.leg⟩] else [] := by
      unfold cutOwner
      rw [if_neg meets, if_neg late, if_neg later, nil_append, nil_append]
    rw [cut]
    by_cases ends : rg.hi < o.hi
    · have beyond := UInt64.lt_iff_toNat_lt.mp ends
      rw [if_pos ends, cut_after tail (by simp only [Owner.last]; omega)]
      exact (tail_tiles ends).append tail
    rw [if_neg ends, nil_append]
    rw [lt_iff_toNat_lt] at ends
    exact ih (by simp only [Owner.last]; omega) (by simp only [Owner.last]; omega) room

theorem cut_before {stop : Nat} (ordered : rg.lo ≤ rg.hi)
    (tiles : Tiles Owner.first Owner.last start stop owners) (ahead : start ≤ rg.lo.toNat)
    (room : rg.hi.toNat < stop) :
    Tiles Owner.first Owner.last start stop (owners.flatMap (cutOwner rg leg)) := by
  have width := UInt64.le_iff_toNat_le.mp ordered
  induction tiles with
  | nil => omega
  | @cons start stop o rest begins forward tail ih =>
    rw [flatMap_cons]
    by_cases early : o.hi < rg.lo
    · have kept : cutOwner rg leg o = [o] := by
        unfold cutOwner
        rw [if_pos (.inl early)]
      rw [lt_iff_toNat_lt] at early
      rw [kept]
      exact .cons begins forward (ih (by simp only [Owner.last]; omega) room)
    have meets : ¬ (o.hi < rg.lo ∨ rg.hi < o.lo) := by
      rintro (prev | post)
      · exact early prev
      rw [lt_iff_toNat_lt] at post
      simp only [Owner.first] at begins
      omega
    have starts : o.lo ≤ rg.lo := by
      rw [le_iff_toNat_le]
      simp only [Owner.first] at begins
      omega
    -- up to the range's start, then the range itself
    have leading : Tiles Owner.first Owner.last start (rg.hi.toNat + 1)
        ((if o.lo < rg.lo then [⟨o.lo, rg.lo - 1, o.leg⟩] else []) ++
          [⟨rg.lo, rg.hi, leg⟩]) := by
      have given : Tiles Owner.first Owner.last rg.lo.toNat (rg.hi.toNat + 1)
          [⟨rg.lo, rg.hi, leg⟩] := .cons rfl width (.nil _)
      by_cases strictly : o.lo < rg.lo
      · rw [if_pos strictly]
        have step := pred_toNat strictly
        rw [lt_iff_toNat_lt] at strictly
        refine Tiles.cons begins ?_ ?_
        · simp only [Owner.first, Owner.last]
          omega
        · simp only [Owner.last, step]
          exact given
      rw [if_neg strictly, nil_append]
      have eq : rg.lo.toNat = start := by
        rw [lt_iff_toNat_lt] at strictly
        rw [le_iff_toNat_le] at starts
        simp only [Owner.first] at begins
        omega
      rw [← eq]
      exact given
    have cut : cutOwner rg leg o =
        (if o.lo < rg.lo then [⟨o.lo, rg.lo - 1, o.leg⟩] else []) ++ [⟨rg.lo, rg.hi, leg⟩] ++
          if rg.hi < o.hi then [⟨rg.hi + 1, o.hi, o.leg⟩] else [] := by
      unfold cutOwner
      rw [if_neg meets, if_pos starts]
    rw [cut, append_assoc]
    refine leading.append ?_
    by_cases ends : rg.hi < o.hi
    · have beyond := UInt64.lt_iff_toNat_lt.mp ends
      rw [if_pos ends, cut_after tail (by simp only [Owner.last]; omega)]
      exact (tail_tiles ends).append tail
    rw [if_neg ends, nil_append]
    rw [lt_iff_toNat_lt] at ends early
    exact cut_within tail (by simp only [Owner.last]; omega) (by simp only [Owner.last]; omega) room

theorem addOwner_tiles {middle : Nat} {out : List Owner} {o : Owner}
    (tiles : Tiles Owner.first Owner.last start middle out) (begins : o.first = middle)
    (ordered : o.first ≤ o.last) :
    Tiles Owner.first Owner.last start (o.last + 1) (addOwner out o) := by
  have plain : Tiles Owner.first Owner.last start (o.last + 1) (out ++ [o]) :=
    tiles.append (.cons begins ordered (.nil _))
  unfold addOwner
  cases placed : out.getLast? with
  | none => exact plain
  | some final =>
    dsimp only
    split
    · have all : out = out.dropLast ++ [final] := by
        rw [dropLast_append_getLast? final (by simpa using placed)]
      rw [all] at tiles
      obtain ⟨front, forward, ends⟩ := tiles.concat_inv
      refine front.append (.cons rfl ?_ ?_)
      · simp only [Owner.first, Owner.last] at forward ends begins ordered ⊢
        omega
      · exact .nil _
    · exact plain

theorem mem_addOwner {out : List Owner} {o e : Owner} {h : Hash}
    (mem : e ∈ addOwner out o) (isIn : e.has h) : ∃ d ∈ out ++ [o], d.has h ∧ d.leg = e.leg := by
  unfold addOwner at mem
  cases placed : out.getLast? with
  | none =>
    rw [placed] at mem
    exact ⟨e, mem, isIn, rfl⟩
  | some final =>
    simp only [placed] at mem
    split at mem
    · rename_i joined
      have finalMember : final ∈ out := mem_of_getLast? placed
      rcases mem_append.mp mem with prev | last
      · exact ⟨e, mem_append_left _ (dropLast_subset out prev), isIn, rfl⟩
      rw [mem_singleton] at last
      subst last
      by_cases early : h ≤ final.hi
      · exact ⟨final, mem_append_left _ finalMember, ⟨isIn.1, early⟩, rfl⟩
      refine ⟨o, mem_append_right _ mem_cons_self, ⟨?_, isIn.2⟩, joined.1.symm⟩
      have below : final.hi < h := UInt64.not_le.mp early
      rw [← joined.2, le_iff_toNat_le, succ_toNat below]
      exact UInt64.lt_iff_toNat_lt.mp below
    · exact ⟨e, mem, isIn, rfl⟩

theorem foldl_addOwner {middle stop : Nat} {parts : List Owner} :
    ∀ out, Tiles Owner.first Owner.last start middle out →
      Tiles Owner.first Owner.last middle stop parts →
      Tiles Owner.first Owner.last start stop (parts.foldl addOwner out) ∧
        ∀ e ∈ parts.foldl addOwner out, ∀ h, e.has h →
          ∃ d ∈ out ++ parts, d.has h ∧ d.leg = e.leg := by
  induction parts generalizing middle with
  | nil =>
    intro out tiles done
    rw [Tiles.nil_iff.mp done] at tiles
    exact ⟨tiles, fun e mem h isIn => ⟨e, by simpa using mem, isIn, rfl⟩⟩
  | cons o rest ih =>
    intro out tiles later
    obtain ⟨begins, ordered, tail⟩ := Tiles.cons_iff.mp later
    obtain ⟨all, kept⟩ := ih (addOwner out o) (addOwner_tiles tiles begins ordered) tail
    refine ⟨all, fun e mem h isIn => ?_⟩
    obtain ⟨d, among, holds, sameLeg⟩ := kept e mem h isIn
    rcases mem_append.mp among with joined | post
    · obtain ⟨d', among', holds', sameLeg'⟩ := mem_addOwner joined holds
      refine ⟨d', ?_, holds', sameLeg'.trans sameLeg⟩
      rcases mem_append.mp among' with left | right
      · exact mem_append_left _ left
      rw [mem_singleton] at right
      subst right
      exact mem_append_right _ mem_cons_self
    · exact ⟨d, mem_append_right _ (mem_cons_of_mem o post), holds, sameLeg⟩

theorem reassign_tiled (tiled : Tiled owners) (ordered : rg.lo ≤ rg.hi) :
    Tiled (reassign owners rg leg) :=
  (foldl_addOwner [] (.nil 0)
    (cut_before ordered tiled (Nat.zero_le _) (hash_lt rg.hi))).1

theorem mem_reassign (tiled : Tiled owners) (ordered : rg.lo ≤ rg.hi) {e : Owner} {h : Hash}
    (mem : e ∈ reassign owners rg leg) (isIn : e.has h) : e.leg = leg ∧ rg.contains h ∨
      ∃ o ∈ owners, e.leg = o.leg ∧ o.has h ∧ rg.contains h = false := by
  have parts : Tiles Owner.first Owner.last 0 hashCount (owners.flatMap (cutOwner rg leg)) :=
    cut_before ordered tiled (Nat.zero_le _) (hash_lt rg.hi)
  have kept := (foldl_addOwner [] (.nil 0) parts).2
  obtain ⟨d, among, holds, sameLeg⟩ := kept e mem h isIn
  rw [nil_append, mem_flatMap] at among
  obtain ⟨o, there, piece⟩ := among
  rcases mem_cutOwner piece with given | ⟨oldLeg, oldKeys⟩
  · subst given
    exact .inl ⟨sameLeg.symm, (rg.contains_iff h).mpr holds⟩
  · exact .inr ⟨o, there, sameLeg.symm.trans oldLeg, oldKeys h holds⟩

theorem ownerIn_reassign (tiled : Tiled owners) (ordered : rg.lo ≤ rg.hi) (h : Hash) :
    ownerIn (reassign owners rg leg) h = if rg.contains h then leg else ownerIn owners h := by
  have partition : Tiled (reassign owners rg leg) := reassign_tiled tiled ordered
  obtain ⟨e, mem, isIn, got⟩ := ownerIn_mem partition h
  rw [got]
  rcases mem_reassign tiled ordered mem isIn with ⟨given, lt⟩ | ⟨o, there, eq, holds, out⟩
  · rw [if_pos lt, given]
  · rw [if_neg (ne_true_of_eq_false out), eq, ownerIn_of_mem tiled there holds]

theorem addOwner_differs {middle : Nat} {out : List Owner} {o : Owner}
    (tiles : Tiles Owner.first Owner.last start middle out) (begins : o.first = middle)
    (differ : (out.map Owner.leg).IsChain (· ≠ ·)) :
    ((addOwner out o).map Owner.leg).IsChain (· ≠ ·) := by
  unfold addOwner
  cases placed : out.getLast? with
  | none =>
    rw [getLast?_eq_none_iff.mp placed]
    exact List.IsChain.singleton _
  | some final =>
    have all : out = out.dropLast ++ [final] := by
      rw [dropLast_append_getLast? final (by simpa using placed)]
    dsimp only
    split
    · rw [all, map_append] at differ
      rw [map_append]
      exact differ
    rename_i apart
    rw [all] at tiles
    obtain ⟨-, -, ends⟩ := tiles.concat_inv
    -- the pieces follow on, so two that were not joined name different legs
    have follows : final.hi + 1 = o.lo := by
      rw [← toNat_inj, toNat_add]
      simp only [Owner.first, Owner.last] at ends begins
      have bounded := hash_lt o.lo
      exact (Nat.mod_eq_of_lt (by change final.hi.toNat + 1 < hashCount; omega)).trans
        (ends.trans begins.symm)
    rw [map_append, isChain_append]
    refine ⟨differ, List.IsChain.singleton _, ?_⟩
    intro left atEnd right atHead
    rw [getLast?_map, placed] at atEnd
    cases atEnd
    cases atHead
    exact fun eq => apart ⟨eq, follows⟩

/-- Giving a range to a leg leaves no two neighbours with one leg. -/
theorem reassign_differs (tiled : Tiled owners) (ordered : rg.lo ≤ rg.hi) :
    ((reassign owners rg leg).map Owner.leg).IsChain (· ≠ ·) := by
  have joined : ∀ (parts out : List Owner) (middle : Nat),
      Tiles Owner.first Owner.last 0 middle out →
      Tiles Owner.first Owner.last middle hashCount parts →
      (out.map Owner.leg).IsChain (· ≠ ·) →
      ((parts.foldl addOwner out).map Owner.leg).IsChain (· ≠ ·) := by
    intro parts
    induction parts with
    | nil => exact fun _ _ _ _ differ => differ
    | cons o rest ih =>
      intro out middle tiles later differ
      obtain ⟨begins, forward, tail⟩ := Tiles.cons_iff.mp later
      exact ih _ _ (addOwner_tiles tiles begins forward) tail (addOwner_differs tiles begins differ)
  exact joined _ [] 0 (.nil 0) (cut_before ordered tiled (Nat.zero_le _) (hash_lt rg.hi)) .nil

end

end Shunt.Directory
