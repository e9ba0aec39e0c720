/-
The bucket a key is at home in, and what each step of a move does to it: nothing,
until a move ends and the destination is the home of the keys that moved.
-/

import Shunt.Migrate.Hands

namespace Shunt.Migrate

open Directory List Std.ExtTreeMap
open Library (Phase Hand)

variable {hash : Key → Hash} {p q : Placement} {m : Move} {t : Transition} {key : Key}

def homeLeg (hash : Key → Hash) (p : Placement) (key : Key) : Leg :=
  if p.spread then ownerLeg hash p key else endpoint p .primary

def KnownSplit (p : Placement) : Prop := p.spread = true → p.keyHash = rampHash

theorem handOf_rest (formed : Formed p) (split : KnownSplit p) (active : p.state = .active) :
    handOf hash p key = .ok ⟨.rest, homeLeg hash p key, homeLeg hash p key⟩ := by
  rcases formed with plain | spread
  · rw [handOf_plain plain.plain, active]
    simp [homeLeg, plain.plain, phaseOf, handIn, Except.map]
  have outside : inMove hash p key = false := by
    simp [inMove, spread.rest.mp active]
  rw [handOf_owner spread.toSpreadCore spread.spread (split spread.spread) outside]
  simp [homeLeg, spread.spread]

theorem ownerLeg_congr (sameScope : (q.scope key).2 = (p.scope key).2)
    (sameLeg : q.legs[ownerID hash p key]? = p.legs[ownerID hash p key]?) :
    ownerLeg hash q key = ownerLeg hash p key := by
  unfold ownerLeg ownerID at *
  rw [sameScope, legIn, legIn, sameLeg]

theorem asSpread_owner (p : Placement) (plain : p.spread = false) (key : Key) :
    ownerID hash p.asSpread key = p.primary := by
  have tables := asSpread_tables p plain
  have table : (p.asSpread.scope key).2 = [⟨fullRange.lo, fullRange.hi, p.primary⟩] := by
    simp [Placement.scope, Placement.ruleOf, Placement.asSpread, noRules plain]
  unfold ownerID
  rw [table]
  exact ownerIn_of_mem (tiled_full p.primary) mem_cons_self
    ((HashRange.contains_iff _ _).mp (fullRange_contains _))

theorem ownerLeg_spreadBase (formed : Formed p) (key : Key) :
    ownerLeg hash p.spreadBase key = homeLeg hash p key := by
  unfold Placement.spreadBase homeLeg
  rcases formed with plain | spread
  · rw [if_neg (ne_true_of_eq_false plain.plain),
      if_neg (ne_true_of_eq_false plain.plain), endpoint_plain plain.roles]
    unfold ownerLeg
    rw [asSpread_owner p plain.plain key]
    simp [legIn, Placement.asSpread]
  · rw [if_pos spread.spread, if_pos spread.spread]

theorem ownerLeg_planned {plan : MovePlan} (formed : Formed p) (plans : Planned p t plan)
    (key : Key) : ownerLeg hash plan.base key = homeLeg hash p key := by
  rw [← ownerLeg_spreadBase formed key]
  have tables := spreadBase_tables formed
  have sameScope : plan.base.scope key = p.spreadBase.scope key := by
    rw [plans.base]
    rfl
  have mem : ownerID hash p.spreadBase key ∈ p.spreadBase.legs := ownerID_mem tables key
  obtain ⟨l, got⟩ := exists_leg mem
  exact ownerLeg_congr (by rw [sameScope]) ((plans.legs.kept.1 _ l got).trans got.symm)

theorem settledNames_given (legs : List (String × Leg)) (cluster : String) :
    ∀ names : StrMap String, cluster ∈ names →
      (settledNames legs names)[cluster]? = names[cluster]? := by
  unfold settledNames
  induction legs with
  | nil => intro names _; rfl
  | cons entry rest ih =>
    intro names there
    obtain ⟨id, l⟩ := entry
    simp only [foldl_cons]
    by_cases has : l.cluster ∈ names
    · rw [if_pos has]
      exact ih names there
    rw [if_neg has, ih _ (mem_insert.mpr (.inr there)), Std.ExtTreeMap.getElem?_insert, if_neg]
    rw [Std.compare_eq_iff_eq]
    intro eq
    exact has (by rw [eq]; exact there)

theorem homeLeg_settle (core : SpreadCore p) (rests : p.move = none) (key : Key) :
    homeLeg hash p.settle key = ownerLeg hash p key := by
  unfold homeLeg
  rcases settle_shape core rests with ⟨eq, spread⟩ | ⟨o, alone, noRules, settled⟩
  · rw [eq, if_pos spread]
  have plain : p.settle.spread = false := by
    rw [settled]
    simp [Placement.spread, Placement.settledOn, rests, noRules]
  have owner : ownerID hash p key = o.leg := by
    have tiled := core.tables.own.1
    have table : (p.scope key).2 = [o] := by
      simp [Placement.scope, Placement.ruleOf, noRules, alone]
    rw [alone] at tiled
    obtain ⟨only, mem, isIn⟩ := exists_owner tiled (hash key)
    unfold ownerID
    rw [table]
    exact ownerIn_of_mem tiled mem_cons_self (mem_singleton.mp mem ▸ isIn)
  rw [if_neg (ne_true_of_eq_false plain), settled, endpoint_plain (by exact core.roles),
    ownerLeg, owner]
  simp only [Placement.settledOn, nameIn, settledNames_given _ _ _ Std.ExtTreeMap.mem_insert_self,
    getElem?_insert_self, Option.getD_some]

theorem ownerLeg_ended (form : SpreadForm p) (moves : p.move = some m) (nv : Placement)
    (key : Key) :
    ownerLeg hash { p.ended m nv with legs := p.endedLegs m nv } key =
      if inMove hash p key then legIn p.legs m.dest else ownerLeg hash p key := by
  have prev := form.moving m moves
  have core := ended_core nv form moves
  obtain ⟨table, got, -⟩ := prev.owned
  have tiled := (scopeTable_over form.tables got).1
  have scope : (p.ended m nv).scope key =
      ((p.scope key).1, if (p.scope key).1 = m.scope then reassign table m.range m.dest
        else (p.scope key).2) := by
    unfold Placement.ended
    rw [got, Option.getD_some]
    exact scope_setScopeTable (form.toSpreadCore.rested nv).tables m.scope _ key
  have owner : ownerID hash { p.ended m nv with legs := p.endedLegs m nv } key =
      if inMove hash p key then m.dest else ownerID hash p key := by
    change ownerIn ((p.ended m nv).scope key).2 (hash key) = _
    rw [scope]
    simp only [inMove, moves, Bool.and_eq_true, decide_eq_true_eq, ownerID]
    by_cases sameScope : (p.scope key).1 = m.scope
    · have sameTable : (p.scope key).2 = table := by
        have at_ := scopeTable_scope form.tables key
        rw [sameScope, got] at at_
        exact (Option.some.inj at_).symm
      simp only [sameScope, if_true, and_true, sameTable]
      exact ownerIn_reassign tiled prev.ordered (hash key)
    · simp only [sameScope, if_false, and_false]
  have kept : ∀ id, id ∈ p.endedLegs m nv → (p.endedLegs m nv)[id]? = p.legs[id]? := by
    intro id mem
    unfold Placement.endedLegs at mem ⊢
    split at mem
    · rename_i owns
      rw [if_pos owns]
    rename_i idle
    rw [if_neg idle]
    rw [mem_erase] at mem
    rw [getElem?_erase, if_neg mem.1]
  have there : ownerID hash { p.ended m nv with legs := p.endedLegs m nv } key ∈
      p.endedLegs m nv := ownerID_mem core.tables key
  unfold ownerLeg
  simp only [legIn]
  rw [kept _ there, owner]
  split <;> rfl

end Shunt.Migrate
