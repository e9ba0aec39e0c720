/-
Owner tables are partitions of the key hash space: what the check accepts says
exactly that, the even split is accepted, and giving a range to a leg changes
the owner of that range's hashes and of no other.
-/

import Shunt.Directory.Formed
import Shunt.Directory.Mutations

namespace Shunt.Directory

open Library List

variable {owners : List Owner}

/-- What a partition is, said of the entries and their hashes: none is empty, they stand in order,
and every hash lies in exactly one of them. -/
def Partition (owners : List Owner) : Prop :=
  (∀ o ∈ owners, o.lo ≤ o.hi) ∧ (owners.Pairwise fun a b => a.lo < b.lo) ∧
    ∀ h : Hash, owners.countP (fun o => decide (o.lo ≤ h ∧ h ≤ o.hi)) = 1

theorem count_at (h : Hash) : owners.countP (fun o => decide (o.lo ≤ h ∧ h ≤ o.hi)) =
      owners.countP (fun o => decide (o.first ≤ h.toNat ∧ h.toNat ≤ o.last)) := by
  refine countP_congr fun o _ => ?_
  rw [decide_eq_true_eq, decide_eq_true_eq]
  exact o.has_iff h

theorem tiled_iff_partition : Tiled owners ↔ Partition owners := by
  constructor
  · intro tiled
    refine ⟨fun o mem => ?_, tiled.pairwise.imp_of_mem ?_, fun h => ?_⟩
    · exact UInt64.le_iff_toNat_le.mpr (tiled.bounds mem).2.1
    · intro a b atA _ apart
      have forward := (tiled.bounds atA).2.1
      exact UInt64.lt_iff_toNat_lt.mpr (Nat.lt_of_le_of_lt forward apart)
    · rw [count_at]
      exact tiled.count_eq_one (Nat.zero_le _) (hash_lt h)
  rintro ⟨forward, sorted, once⟩
  refine Tiles.of_counts (sorted.imp fun prev => ?_) ?_ (Nat.zero_le _) ?_
  · exact Nat.le_of_lt (UInt64.lt_iff_toNat_lt.mp prev)
  · intro o mem
    exact ⟨Nat.zero_le _, UInt64.le_iff_toNat_le.mp (forward o mem), hash_lt o.hi⟩
  intro point _ high
  have counted := once (UInt64.ofNat point)
  rwa [count_at, UInt64.toNat_ofNat_of_lt' high] at counted

/-- The even split, entry by entry from position `k` of `n`. -/
theorem evenOwners_from {n width : Nat} (pos : 0 < width)
    (fits : n * width < 2 ^ 64) (rest : List String) : ∀ k, rest ≠ [] → k + rest.length = n →
      Tiles Owner.first Owner.last (k * width) hashCount ((rest.zipIdx k).map fun (leg, i) =>
          ⟨UInt64.ofNat i * UInt64.ofNat width, if i + 1 = n then 0xffffffffffffffff
            else UInt64.ofNat (i + 1) * UInt64.ofNat width - 1, leg⟩) := by
  have product : ∀ i ≤ n, (UInt64.ofNat i * UInt64.ofNat width).toNat = i * width := by
    intro i lt
    have small : i * width < 2 ^ 64 := Nat.lt_of_le_of_lt (Nat.mul_le_mul_right _ lt) fits
    rw [← UInt64.ofNat_mul]
    exact UInt64.toNat_ofNat_of_lt small
  induction rest with
  | nil => exact fun _ gone _ => absurd rfl gone
  | cons leg rest ih =>
    intro k _ total
    rw [length_cons] at total
    have begins := product k (by omega)
    rw [zipIdx_cons, map_cons]
    dsimp only
    by_cases final : rest = []
    · subst final
      rw [length_nil] at total
      rw [if_pos (by omega)]
      have ends : (0xffffffffffffffff : Hash).toNat + 1 = hashCount := by decide
      refine .cons begins ?_ ?_
      · have lt := Nat.mul_le_mul_right width (show k ≤ n by omega)
        simp only [Owner.first, Owner.last, begins]
        have bounded : n * width < hashCount := fits
        omega
      · simp only [Owner.last, ends]
        exact .nil hashCount
    · have more : 0 < rest.length := length_pos_iff.mpr final
      rw [if_neg (by omega)]
      have next := product (k + 1) (by omega)
      have step : (k + 1) * width = k * width + width := Nat.succ_mul k width
      have ends : (UInt64.ofNat (k + 1) * UInt64.ofNat width - 1).toNat + 1 = (k + 1) * width := by
        rw [UInt64.toNat_sub_of_le _ 1 (by rw [UInt64.le_iff_toNat_le, next]; simp; omega), next]
        simp only [UInt64.toNat_one]
        omega
      refine .cons begins ?_ ?_
      · simp only [Owner.first, Owner.last, begins]
        omega
      · simp only [Owner.last, ends]
        exact ih (k + 1) final (by omega)

theorem evenOwners_tiled {ids : List String} (some_ : ids ≠ []) (countable : ids.length < 2 ^ 63) :
    Tiled (evenOwners ids) := by
  have count : 0 < ids.length := length_pos_iff.mpr some_
  have pos : 0 < (2 ^ 64 - 1) / ids.length := Nat.div_pos (by omega) count
  have fits : ids.length * ((2 ^ 64 - 1) / ids.length) < 2 ^ 64 :=
    Nat.lt_of_le_of_lt (Nat.mul_div_le _ _) (by omega)
  have all := evenOwners_from pos fits ids 0 some_ (Nat.zero_add _)
  rwa [Nat.zero_mul] at all

theorem mem_evenOwners {ids : List String} {o : Owner} (mem : o ∈ evenOwners ids) :
    o.leg ∈ ids := by
  obtain ⟨⟨leg, i⟩, among, eq⟩ := List.mem_map.mp mem
  subst eq
  exact fst_mem_of_mem_zipIdx among

/-- The tables a placement may hold are the partitions of the hash space over its legs, and a hash
is looked up in the one entry that holds it.  A Go slice has fewer than 2^63 entries. -/
theorem owner_tables_partition (owners : List Owner) (legs : StrMap Leg) :
    (checkOwners owners legs = none ↔ Partition owners ∧ ∀ o ∈ owners, o.leg ∈ legs) ∧
      (checkOwners owners legs = none → ∀ h : Hash, ∃ o ∈ owners, o.has h ∧
        (∀ other ∈ owners, other.has h → other = o) ∧ ownerIn owners h = o.leg) ∧
      ∀ ids : List String, ids ≠ [] → ids.length < 2 ^ 63 → (∀ id ∈ ids, id ∈ legs) →
        checkOwners (evenOwners ids) legs = none := by
  refine ⟨?_, fun ok h => ?_, fun ids some_ countable has => ?_⟩
  · rw [checkOwners_accepts, tiled_iff_partition]
  · have tiled := ((checkOwners_accepts owners legs).mp ok).1
    obtain ⟨o, mem, isIn, got⟩ := ownerIn_mem tiled h
    refine ⟨o, mem, isIn, fun other among holds => ?_, got⟩
    exact tiled.cell_unique among mem ((other.has_iff h).mp holds) ((o.has_iff h).mp isIn)
  · rw [checkOwners_accepts]
    exact ⟨evenOwners_tiled some_ countable, fun o mem => has _ (mem_evenOwners mem)⟩

/-- Two legs of a bucket, a half of the hashes each. -/
def eastWest : StrMap Leg :=
  ((∅ : StrMap Leg).insert "east" ⟨"east", "photos"⟩).insert "west" ⟨"west", "photos"⟩

theorem eastWest_known : ∀ id ∈ ["east", "west"], id ∈ eastWest := by
  simp [eastWest]

theorem eastWest_partition : checkOwners (evenOwners ["east", "west"]) eastWest = none ∧
      Partition (evenOwners ["east", "west"]) :=
  have ok := (owner_tables_partition [] eastWest).2.2 ["east", "west"] (by decide)
    (by decide) eastWest_known
  ⟨ok, ((owner_tables_partition _ eastWest).1.mp ok).1⟩

/-- Reassigning a range moves the owner of exactly that range's hashes, and joins neighbours. -/
theorem reassign_exact (owners : List Owner) (legs : StrMap Leg) (rg : HashRange) (leg : String)
    (ok : checkOwners owners legs = none) (has : leg ∈ legs) (ordered : rg.lo ≤ rg.hi) :
    checkOwners (reassign owners rg leg) legs = none ∧
      (∀ h, ownerIn (reassign owners rg leg) h =
        if rg.contains h then leg else ownerIn owners h) ∧
      ((owners.map Owner.leg).IsChain (· ≠ ·) →
        ((reassign owners rg leg).map Owner.leg).IsChain (· ≠ ·)) := by
  obtain ⟨tiled, named⟩ := (checkOwners_accepts owners legs).mp ok
  refine ⟨?_, fun h => ownerIn_reassign tiled ordered h, fun _ => reassign_differs tiled ordered⟩
  exact (checkOwners_accepts _ _).mpr (reassign_over ⟨tiled, named⟩ ordered has)

theorem eastWest_reassigned :
    checkOwners (reassign (evenOwners ["east", "west"]) ⟨5, 9⟩ "west") eastWest = none :=
  (reassign_exact _ eastWest ⟨5, 9⟩ "west"
    ((checkOwners_accepts _ _).mpr ⟨evenOwners_tiled (by decide) (by decide),
      fun _ mem => eastWest_known _ (mem_evenOwners mem)⟩)
    (eastWest_known _ (by decide)) (by decide)).1

end Shunt.Directory
