/-
The canonical form of a query: its pairs sorted by their bytes, encoded and joined.  Two
lists of pairs have one canonical form exactly when they are permutations of each other.
-/

import Mathlib.Data.List.Sort
import Mathlib.Data.Prod.Lex
import Shunt.Directory.Placement
import Shunt.Library.Query

namespace Shunt.Sigv4

open Directory List
open Library

abbrev Pair := Key × Key

def byteOrder (k : Key) : List ℕ := k.map UInt8.toNat

def pairOrder (p : Pair) : List ℕ ×ₗ List ℕ := toLex (byteOrder p.1, byteOrder p.2)

def pairLe (p q : Pair) : Bool := decide (pairOrder p ≤ pairOrder q)

def sortPairs (pairs : List Pair) : List Pair := pairs.mergeSort pairLe

def pairText (p : Pair) : Key := escape p.1 ++ 61 :: escape p.2

def joinPairs (pairs : List Pair) : Key := [38].intercalate (pairs.map pairText)

def canonicalQuery (pairs : List Pair) : Key := joinPairs (sortPairs pairs)

variable {l l₂ : List Pair}

theorem byteOrder_injective {a b : Key} (eq : byteOrder a = byteOrder b) : a = b :=
  map_injective_iff.mpr (fun _ _ => UInt8.toNat_inj.mp) eq

theorem pairOrder_injective {p q : Pair} (eq : pairOrder p = pairOrder q) : p = q := by
  have parts := Prod.mk.inj (toLex.injective eq)
  exact Prod.ext (byteOrder_injective parts.1) (byteOrder_injective parts.2)

theorem sortPairs_sorted (pairs : List Pair) :
    (sortPairs pairs).Pairwise fun p q => pairLe p q = true := by
  refine pairwise_mergeSort (fun p q r first second => ?_) (fun p q => ?_) pairs
  · exact decide_eq_true (le_trans (of_decide_eq_true first) (of_decide_eq_true second))
  rcases le_total (pairOrder p) (pairOrder q) with prev | post
  · simp [pairLe, prev]
  · simp [pairLe, post]

theorem sortPairs_eq_iff : sortPairs l = sortPairs l₂ ↔ l.Perm l₂ := by
  have first : (sortPairs l).Perm l := mergeSort_perm l pairLe
  have second : (sortPairs l₂).Perm l₂ := mergeSort_perm l₂ pairLe
  constructor
  · intro eq
    rw [eq] at first
    exact first.symm.trans second
  intro perm
  refine List.Perm.eq_of_pairwise (fun p q _ _ prev post => ?_) (sortPairs_sorted l)
    (sortPairs_sorted l₂) (first.trans (perm.trans second.symm))
  exact pairOrder_injective (le_antisymm (of_decide_eq_true prev) (of_decide_eq_true post))

theorem equals_not_mem_escape (s : Key) : 61 ∉ escape s := not_mem_escape (by decide) s

theorem newline_not_mem_escape (s : Key) : 10 ∉ escape s := not_mem_escape (by decide) s

theorem queryPair_pairText (p : Pair) : queryPair (pairText p) = some p := by
  have semicolon : 59 ∉ pairText p := by simp [pairText, semicolon_not_mem_escape]
  rw [queryPair, if_neg semicolon, pairText, cut_joined (equals_not_mem_escape p.1)]
  simp [unescape_escape]

theorem mapM_pairText (pairs : List Pair) : (pairs.map pairText).mapM queryPair = some pairs := by
  induction pairs with
  | nil => rfl
  | cons p rest ih => simp [queryPair_pairText, ih]

theorem parseQuery_joinPairs (pairs : List Pair) : parseQuery (joinPairs pairs) = some pairs := by
  unfold parseQuery queryPieces joinPairs
  cases pairs with
  | nil => rfl
  | cons p rest =>
    have free : ∀ piece ∈ (p :: rest).map pairText, 38 ∉ piece := by
      intro piece mem
      obtain ⟨q, _, rfl⟩ := List.mem_map.mp mem
      simp [pairText, ampersand_not_mem_escape]
    have there : ∀ piece ∈ (p :: rest).map pairText, decide (piece ≠ []) := by
      intro piece mem
      obtain ⟨q, _, rfl⟩ := List.mem_map.mp mem
      simp [pairText]
    rw [splitOn_intercalate 38 free (by simp), filter_eq_self.mpr there, mapM_pairText]

theorem canonicalQuery_eq_iff : canonicalQuery l = canonicalQuery l₂ ↔ l.Perm l₂ := by
  rw [← sortPairs_eq_iff]
  constructor
  · intro eq
    have read := congrArg parseQuery eq
    simpa [canonicalQuery, parseQuery_joinPairs] using read
  · intro eq
    rw [canonicalQuery, eq, canonicalQuery]

theorem newline_not_mem_canonicalQuery (pairs : List Pair) : 10 ∉ canonicalQuery pairs := by
  have each : ∀ piece ∈ (sortPairs pairs).map pairText, 10 ∉ piece := by
    intro piece mem
    obtain ⟨q, _, rfl⟩ := List.mem_map.mp mem
    simp [pairText, newline_not_mem_escape]
  unfold canonicalQuery joinPairs
  generalize (sortPairs pairs).map pairText = pieces at each ⊢
  intro mem
  induction pieces with
  | nil => simp [List.intercalate] at mem
  | cons piece rest ih =>
    cases rest with
    | nil => simp [List.intercalate] at mem; exact each piece (by simp) mem
    | cons =>
      rw [intercalate_cons_cons] at mem
      simp only [mem_append, mem_singleton] at mem
      rcases mem with (here | sep) | more
      · exact each piece (by simp) here
      · cases sep
      · exact ih (fun x isIn => each x (mem_cons_of_mem _ isIn)) more

theorem readQuery_of_parse {q : Key} {pairs : List Pair} (parsed : parseQuery q = some pairs) :
    readQuery q = pairs := by
  unfold parseQuery at parsed
  unfold readQuery
  generalize queryPieces q = pieces at parsed ⊢
  induction pieces generalizing pairs with
  | nil => simpa using parsed
  | cons piece rest ih =>
    rw [mapM_cons] at parsed
    obtain ⟨p, first, others⟩ := Option.bind_eq_some_iff.mp parsed
    obtain ⟨later, second, shape⟩ := Option.bind_eq_some_iff.mp others
    cases Option.some.inj shape
    rw [filterMap_cons, first]
    simp only [ih second]

theorem queryPair_of_parse {q piece : Key} {pairs : List Pair} (parsed : parseQuery q = some pairs)
    (mem : piece ∈ queryPieces q) : ∃ p ∈ pairs, queryPair piece = some p := by
  unfold parseQuery at parsed
  generalize queryPieces q = pieces at parsed mem
  induction pieces generalizing pairs with
  | nil => cases mem
  | cons first rest ih =>
    rw [mapM_cons] at parsed
    obtain ⟨p, read, others⟩ := Option.bind_eq_some_iff.mp parsed
    obtain ⟨later, second, shape⟩ := Option.bind_eq_some_iff.mp others
    cases Option.some.inj shape
    rcases mem_cons.mp mem with rfl | isIn
    · exact ⟨p, mem_cons_self, read⟩
    · obtain ⟨p₂, listed, read₂⟩ := ih second isIn
      exact ⟨p₂, mem_cons_of_mem _ listed, read₂⟩

end Shunt.Sigv4
