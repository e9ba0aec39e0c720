/-
Every transition keeps a placement in one of its two forms.
-/

import Shunt.Directory.ApplyStep

namespace Shunt.Directory

open List Std.ExtTreeMap
open Option hiding or_self

variable {ramp : Option Ramp} {p q : Placement} {t : Transition} {legs : StrMap Leg}

theorem Shift.leaves {kind : StepKind} {s' : State} {ramp' : Option Ramp}
    (shift : Shift kind .active ramp s' ramp') : s' ≠ .active := by
  cases shift <;> simp

theorem Shift.toActive {kind : StepKind} {s : State} {ramp' : Option Ramp}
    (shift : Shift kind s ramp .active ramp') :
    kind = .step ∧ s = .cutover ∨ kind = .release ∧ s = .ramping := by
  cases shift with
  | finish => exact .inl ⟨rfl, rfl⟩
  | releaseFirst => exact .inr ⟨rfl, rfl⟩

theorem Shift.returns {kind : StepKind} {s : State} {ramp' : Option Ramp}
    (shift : Shift kind s ramp .active ramp') : s ≠ .active := by
  cases shift <;> simp

theorem RoleStep.plainForm (form : PlainForm p) (step : RoleStep p t q) : PlainForm q := by
  cases step with
  | leave active shift named =>
    have away := (active ▸ shift).leaves
    exact
      { plain := form.plain
        roles := form.roles
        ramped := shift.ramped
        primary := named.1
        rest := by simp [away, form.primary]
        apart := fun eq => named.2.2 eq.symm
        away := fun eq => named.1 eq.symm
        idle := fun _ => rfl }
  | within moving still shift =>
    exact
      { plain := form.plain
        roles := form.roles
        ramped := shift.ramped
        primary := form.primary
        rest := by
          have named : p.source ≠ "" := fun nil => moving (form.rest.mpr nil)
          simp [still, named]
        apart := form.apart
        away := form.away
        idle := fun _ => form.idle moving }
  | unwind shift =>
    have moving := shift.returns
    have named : p.source ≠ "" := fun nil => moving (form.rest.mpr nil)
    exact
      { plain := form.plain
        roles := form.roles
        ramped := shift.ramped
        primary := named
        rest := by simp
        apart := fun eq => named eq.symm
        away := fun eq => form.apart eq.symm
        idle := fun away => absurd rfl away }
  | finish shift cutover =>
    have noRamp := form.ramped.noRamp (by rw [cutover]; simp)
    exact
      { plain := form.plain
        roles := form.roles
        ramped := by
          have ramped := shift.ramped
          simpa [Placement.finish, noRamp] using ramped
        primary := form.primary
        rest := by simp [Placement.finish]
        apart := fun eq => form.primary eq.symm
        away := form.away
        idle := fun away => absurd rfl away }

theorem Tiled.ne_nil {owners : List Owner} (tiled : Tiled owners) : owners ≠ [] := by
  intro nil
  obtain ⟨o, mem, -⟩ := exists_owner tiled 0
  rw [nil] at mem
  cases mem

theorem legIn_of_getElem? {id : String} {l : Leg}
    (got : legs[id]? = some l) : legIn legs id = l := by
  rw [legIn, got, getD_some]

theorem exists_leg {id : String} (mem : id ∈ legs) : ∃ l, legs[id]? = some l :=
  isSome_iff_exists.mp (isSome_getElem?_iff_mem.mpr mem)

theorem settledTarget_ne (legs : List (String × Leg)) (primary : String)
    (named : primary ≠ "") : settledTarget legs primary "" ≠ primary := by
  unfold settledTarget
  rw [if_neg (not_not.mpr rfl)]
  cases got : legs.find? fun e => e.2.cluster ≠ primary with
  | none => exact fun eq => named eq.symm
  | some => simpa using find?_some got

def Placement.settledOn (p : Placement) (o : Owner) : Placement :=
  { p with
    legs := ∅, owners := [], keyHash := "", primary := (legIn p.legs o.leg).cluster
    names := settledNames p.legs.toList
      ((∅ : StrMap String).insert (legIn p.legs o.leg).cluster (legIn p.legs o.leg).bucket)
    target := settledTarget p.legs.toList (legIn p.legs o.leg).cluster p.target }

theorem settle_shape (core : SpreadCore p) (rests : p.move = none) : p.settle = p ∧ p.spread ∨
      ∃ o, p.owners = [o] ∧ p.prefixes = [] ∧ p.settle = p.settledOn o := by
  by_cases noRules : p.prefixes = []
  · match shape : p.owners with
    | [] => exact absurd shape core.tables.own.1.ne_nil
    | [o] =>
      refine .inr ⟨o, rfl, noRules, ?_⟩
      unfold Placement.settle Placement.settledOn
      simp only [shape, rests, noRules, isSome_none, Bool.false_eq_true, ne_eq,
        not_true_eq_false, or_self, if_false]
    | first :: second :: rest =>
      refine .inl ⟨?_, ?_⟩
      · unfold Placement.settle
        rw [shape]
      · simp [Placement.spread, shape]
  · refine .inl ⟨?_, ?_⟩
    · unfold Placement.settle
      split
      · rw [if_pos (.inr noRules)]
      · rfl
    · simp [Placement.spread, noRules]

theorem settle_formed (core : SpreadCore p) (active : p.state = .active)
    (rests : p.move = none) : Formed p.settle := by
  rcases settle_shape core rests with ⟨eq, spread⟩ | ⟨o, alone, noRules, settled⟩
  · rw [eq]
    right
    exact
      { toSpreadCore := core
        spread := spread
        rest := by simp [active, rests]
        moving := by
          intro m moving
          rw [rests] at moving
          cases moving }
  · obtain ⟨l, got⟩ := exists_leg (core.tables.own.2 o (by rw [alone]; exact mem_cons_self))
    have named := core.clusters o.leg l got
    rw [← legIn_of_getElem? got] at named
    rw [settled]
    left
    exact
      { plain := by simp [Placement.spread, Placement.settledOn, rests, noRules]
        roles := core.roles
        ramped := by
          simp only [Placement.settledOn, active, core.ramp]
          exact ⟨by simp, by intro r no; cases no⟩
        primary := named
        rest := by simp [Placement.settledOn, active, core.source]
        apart := by
          simp only [Placement.settledOn, core.source]
          exact fun eq => named eq.symm
        away := by
          simp only [Placement.settledOn, core.target]
          exact settledTarget_ne _ _ named
        idle := fun away => absurd active away }

theorem spreadBase_core (formed : Formed p) (active : p.state = .active) :
    SpreadCore p.spreadBase := by
  rcases formed with plain | spread
  · have tables := spreadBase_tables (.inl plain)
    have ids := spreadBase_ids (.inl plain)
    have shape : p.spreadBase = p.asSpread := by
      unfold Placement.spreadBase
      rw [if_neg (ne_true_of_eq_false plain.plain)]
    rw [shape] at tables ids ⊢
    have onlyLeg : ∀ (id : String) (l : Leg), p.asSpread.legs[id]? = some l →
        id = p.primary ∧ l.cluster = p.primary := by
      intro id l got
      simp only [Placement.asSpread, Std.ExtTreeMap.getElem?_insert, Std.compare_eq_iff_eq,
        getElem?_empty] at got
      split at got
      · rename_i eq
        cases got
        exact ⟨eq.symm, rfl⟩
      · cases got
    exact
      { roles := plain.roles
        source := plain.rest.mp active
        ramp := plain.ramped.noRamp (by rw [active]; simp)
        target := rfl
        tables := tables
        ids := ids
        clusters := by
          intro id l got
          rw [(onlyLeg id l got).2]
          exact plain.primary
        apart := by
          intro a b l atA atB
          rw [(onlyLeg a l atA).1, (onlyLeg b l atB).1] }
  · unfold Placement.spreadBase
    rw [if_pos spread.spread]
    exact spread.toSpreadCore

theorem TableOver.mono {more : StrMap Leg} {owners : List Owner}
    (table : TableOver legs owners) (kept : ∀ id ∈ legs, id ∈ more) : TableOver more owners :=
  ⟨table.1, fun o mem => kept o.leg (table.2 o mem)⟩

theorem DestLeg.kept {more : StrMap Leg} {dest : String} (step : DestLeg legs dest more) :
    (∀ (id : String) (l : Leg), legs[id]? = some l → more[id]? = some l) ∧ dest ∈ more := by
  cases step with
  | known there => exact ⟨fun id l got => got, there⟩
  | @fresh l' gone =>
    refine ⟨?_, Std.ExtTreeMap.mem_insert_self⟩
    intro id l got
    rw [Std.ExtTreeMap.getElem?_insert]
    rw [if_neg]
    · exact got
    rw [Std.compare_eq_iff_eq]
    intro eq
    subst eq
    rw [Std.ExtTreeMap.getElem?_eq_none gone] at got
    cases got

theorem DestLeg.mem {more : StrMap Leg} {dest id : String} (step : DestLeg legs dest more)
    (mem : id ∈ legs) : id ∈ more := by
  obtain ⟨l, got⟩ := exists_leg mem
  exact isSome_getElem?_iff_mem.mp (by rw [step.kept.1 id l got]; rfl)

theorem DestLeg.core {dest : String} (core : SpreadCore p)
    (step : DestLeg p.legs dest legs) : SpreadCore { p with legs := legs } := by
  have tables : Tables { p with legs := legs } :=
    { own := core.tables.own.mono fun id mem => step.mem mem
      named := core.tables.named
      rules := fun rule mem => (core.tables.rules rule mem).mono fun id known => step.mem known
      distinct := core.tables.distinct }
  cases step with
  | known => exact core
  | @fresh l' gone wellNamed apart cluster =>
    have cases_ : ∀ (id : String) (l : Leg), (p.legs.insert dest l')[id]? = some l →
        id = dest ∧ l = l' ∨ p.legs[id]? = some l := by
      intro id l got
      rw [Std.ExtTreeMap.getElem?_insert] at got
      split at got
      · rename_i eq
        cases got
        exact .inl ⟨(Std.compare_eq_iff_eq.mp eq).symm, rfl⟩
      · exact .inr got
    exact
      { roles := core.roles
        source := core.source
        ramp := core.ramp
        target := core.target
        tables := tables
        ids := by
          intro id mem
          obtain ⟨l, got⟩ := exists_leg mem
          rcases cases_ id l got with ⟨eq, -⟩ | old
          · rw [eq]
            exact legID_ne_empty wellNamed
          · exact core.ids id (isSome_getElem?_iff_mem.mp (by rw [old]; rfl))
        clusters := by
          intro id l got
          rcases cases_ id l got with ⟨-, eq⟩ | old
          · rw [eq]
            exact cluster
          · exact core.clusters id l old
        apart := by
          intro a b l atA atB
          rcases cases_ a l atA with ⟨sameA, legA⟩ | oldA
          · rcases cases_ b l atB with ⟨sameB, -⟩ | oldB
            · rw [sameA, sameB]
            · exact absurd (legA ▸ oldB) (apart b)
          rcases cases_ b l atB with ⟨sameB, legB⟩ | oldB
          · exact absurd (legB ▸ oldA) (apart a)
          · exact core.apart a b l oldA oldB }

theorem NamesRange.ordered {range : Option HashRange} {leg : String} {table : List Owner}
    {all : HashRange} (tiled : Tiled table) (names : NamesRange range leg table all) :
    all.lo ≤ all.hi := by
  have forward : ∀ o ∈ table, o.lo ≤ o.hi := fun o mem =>
    UInt64.le_iff_toNat_le.mpr (tiled.bounds mem).2.1
  cases names with
  | given named ordered => exact ordered
  | ofLeg unnamed byLeg got => exact forward _ (mem_of_find?_eq_some got)
  | ofScope unnamed scopeOnly alone => exact forward _ (by rw [alone]; exact mem_cons_self)

theorem shareOf_inside (t : Transition) {all : HashRange} (ordered : all.lo ≤ all.hi) :
    (t.shareOf all).lo = all.lo ∧ all.lo ≤ (t.shareOf all).hi ∧ (t.shareOf all).hi ≤ all.hi := by
  unfold Transition.shareOf
  split
  · exact ⟨leadingShare_lo all t.share, leadingShare_inside all t.share ordered⟩
  · exact ⟨rfl, ordered, UInt64.le_refl _⟩

theorem limit_ramped {s : State} (rg : HashRange) (ramped : Ramped s ramp) :
    Ramped s (rg.limit ramp) := by
  cases ramp with
  | none => exact ramped
  | some r =>
    refine ⟨?_, ?_⟩
    · simpa [HashRange.limit] using ramped.present
    intro r' eq unheld
    cases eq
    exact ramped.moves r rfl unheld

theorem RoleStep.shift {v : Placement} (step : RoleStep v t q) :
    Shift t.kind v.state v.ramp q.state q.ramp := by
  cases step with
  | leave active shift | within moving still shift | unwind shift =>
    exact shift
  | finish shift cutover =>
    have noRamp : v.ramp = none := by
      rw [cutover] at shift
      generalize t.kind = kind at shift
      generalize v.ramp = ramp at shift ⊢
      cases shift
      rfl
    have sameRamp : v.finish.ramp = none := noRamp
    rw [sameRamp]
    exact shift

theorem RoleStep.ramped {v : Placement} (step : RoleStep v t q) :
    Ramped q.state q.ramp := step.shift.ramped

theorem RoleStep.leaves {v : Placement} (active : v.state = .active)
    (step : RoleStep v t q) : q.state ≠ .active := (active ▸ step.shift).leaves

theorem Planned.ordered {plan : MovePlan} (formed : Formed p)
    (plans : Planned p t plan) : plan.range.lo ≤ plan.range.hi := by
  obtain ⟨table, all, got, names, share, -⟩ := plans.range
  have tiled := (scopeTable_over (spreadBase_tables formed) got).1
  have isIn := shareOf_inside t (names.ordered tiled)
  rw [share, isIn.1]
  exact isIn.2.1

theorem Planned.spreadForm {nv : Placement} {plan : MovePlan}
    (formed : Formed p) (plans : Planned p t plan)
    (view : RoleStep (firstView plan.base.legs plan.source) (plan.roleStep t) nv) :
    SpreadForm (plan.started t nv) := by
  have core := (spreadBase_core formed plans.active)
  have extended := plans.legs.core core
  rw [← plans.base] at extended
  have away := view.leaves rfl
  obtain ⟨table, all, got, names, share, o, mem, owner, holds⟩ := plans.range
  have known : plan.source ∈ plan.base.legs := by
    rw [← owner]
    exact plans.legs.mem ((scopeTable_over core.tables got).2 o mem)
  have sameTable : plan.base.scopeTable t.scope = some table := by
    rw [plans.base]
    exact got
  exact
    { roles := extended.roles
      source := extended.source
      ramp := extended.ramp
      target := extended.target
      tables := ⟨extended.tables.own, extended.tables.named, extended.tables.rules,
        extended.tables.distinct⟩
      ids := extended.ids
      clusters := extended.clusters
      apart := extended.apart
      spread := by simp [MovePlan.started, Placement.spread]
      rest := by simp [MovePlan.started, away]
      moving := by
        intro m eq
        cases eq
        exact ⟨plans.ordered formed, known, plans.legs.kept.2, fun eq =>
          plans.different eq.symm, ⟨table, sameTable, o, mem, owner, holds⟩,
          limit_ramped plan.range view.ramped⟩ }

theorem SpreadForm.stepped {nv : Placement} {m : Move} (form : SpreadForm p)
    (moving : p.move = some m) (ramped : Ramped nv.state nv.ramp) (still : nv.state ≠ .active) :
    SpreadForm (p.stepped m nv) := by
  have prev := form.moving m moving
  exact
    { roles := form.roles
      source := form.source
      ramp := form.ramp
      target := form.target
      tables := ⟨form.tables.own, form.tables.named, form.tables.rules, form.tables.distinct⟩
      ids := form.ids
      clusters := form.clusters
      apart := form.apart
      spread := by simp [Placement.stepped, Placement.spread]
      rest := by simp [Placement.stepped, still]
      moving := by
        intro m' eq
        cases eq
        exact ⟨prev.ordered, prev.source, prev.dest, prev.different, prev.owned,
          limit_ramped m.range ramped⟩ }

theorem SpreadCore.rested (core : SpreadCore p) (nv : Placement) : SpreadCore (p.rested nv) :=
  { roles := core.roles
    source := core.source
    ramp := core.ramp
    target := core.target
    tables := ⟨core.tables.own, core.tables.named, core.tables.rules, core.tables.distinct⟩
    ids := core.ids
    clusters := core.clusters
    apart := core.apart }

section

variable (p : Placement) (scope : Key) (owners : List Owner)

theorem setScopeTable_frame : p.setScopeTable scope owners =
    { p with
      owners := (p.setScopeTable scope owners).owners
      prefixes := (p.setScopeTable scope owners).prefixes } := by
  unfold Placement.setScopeTable
  split <;> rfl

@[simp] theorem setScopeTable_legs : (p.setScopeTable scope owners).legs = p.legs := by
  rw [setScopeTable_frame]

@[simp] theorem setScopeTable_state : (p.setScopeTable scope owners).state = p.state := by
  rw [setScopeTable_frame]

@[simp] theorem setScopeTable_move : (p.setScopeTable scope owners).move = p.move := by
  rw [setScopeTable_frame]

variable {p scope owners}

theorem Tables.setScopeTable (tables : Tables p) (table : TableOver p.legs owners) :
    Tables (p.setScopeTable scope owners) := by
  by_cases all : scope = []
  · unfold Placement.setScopeTable
    rw [if_pos all]
    exact ⟨table, tables.named, tables.rules, tables.distinct⟩
  have rules := setScopeTable_prefixes p scope owners all
  refine ⟨?_, ?_, ?_, ?_⟩
  · unfold Placement.setScopeTable
    rw [if_neg all]
    exact tables.own
  · rw [rules]
    intro rule mem
    obtain ⟨prev, there, eq⟩ := List.mem_map.mp mem
    rw [← eq, PrefixRule.replaced_pre]
    exact tables.named prev there
  · rw [rules, setScopeTable_legs]
    intro rule mem
    obtain ⟨prev, there, eq⟩ := List.mem_map.mp mem
    rw [← eq]
    unfold PrefixRule.replaced
    split
    · exact table
    · exact tables.rules prev there
  rw [rules]
  exact pairwise_map.mpr (tables.distinct.imp fun ne => by
    simpa only [PrefixRule.replaced_pre] using ne)

end

theorem SpreadCore.eraseLeg {id : String} (core : SpreadCore p)
    (idle : p.ownsKeys id = false) : SpreadCore { p with legs := p.legs.erase id } := by
  simp only [Placement.ownsKeys, Bool.or_eq_false_iff, List.any_eq_false, beq_iff_eq,
    Bool.not_eq_true] at idle
  have got : ∀ (other : String) (l : Leg), (p.legs.erase id)[other]? = some l →
      p.legs[other]? = some l := by
    intro other l at_
    rw [getElem?_erase] at at_
    split at at_
    · cases at_
    · exact at_
  have kept : ∀ owners : List Owner, TableOver p.legs owners → (∀ o ∈ owners, o.leg ≠ id) →
      TableOver (p.legs.erase id) owners := by
    intro owners table unnamed
    refine ⟨table.1, fun o mem => ?_⟩
    rw [mem_erase]
    exact ⟨by simpa [Std.compare_eq_iff_eq] using (unnamed o mem).symm, table.2 o mem⟩
  exact
    { roles := core.roles
      source := core.source
      ramp := core.ramp
      target := core.target
      tables :=
        { own := kept p.owners core.tables.own idle.1
          named := core.tables.named
          rules := fun rule mem => kept rule.owners (core.tables.rules rule mem)
            (idle.2 rule mem)
          distinct := core.tables.distinct }
      ids := fun other mem => core.ids other (Std.ExtTreeMap.mem_of_mem_erase mem)
      clusters := fun other l at_ => core.clusters other l (got other l at_)
      apart := fun a b l atA atB => core.apart a b l (got a l atA) (got b l atB) }

theorem reassign_over {table : List Owner} {rg : HashRange} {leg : String}
    (covers : TableOver legs table) (ordered : rg.lo ≤ rg.hi) (known : leg ∈ legs) :
    TableOver legs (reassign table rg leg) := by
  have tiled : Tiled (reassign table rg leg) := reassign_tiled covers.1 ordered
  refine ⟨tiled, fun e mem => ?_⟩
  have some_ : e.has e.lo := ⟨UInt64.le_refl _, UInt64.le_iff_toNat_le.mpr (tiled.bounds mem).2.1⟩
  rcases mem_reassign covers.1 ordered mem some_ with ⟨given, -⟩ | ⟨o, there, eq, -⟩
  · rw [given]
    exact known
  · rw [eq]
    exact covers.2 o there

def Placement.ended (p : Placement) (m : Move) (nv : Placement) : Placement :=
  (p.rested nv).setScopeTable m.scope
    (reassign ((p.scopeTable m.scope).getD []) m.range m.dest)

def Placement.endedLegs (p : Placement) (m : Move) (nv : Placement) : StrMap Leg :=
  if (p.ended m nv).ownsKeys m.source then p.legs else p.legs.erase m.source

theorem ended_legs (p : Placement) (m : Move) (nv : Placement) : (p.ended m nv).legs = p.legs := by
  unfold Placement.ended
  rw [setScopeTable_legs]
  rfl

theorem endMove_eq (p : Placement) (m : Move) (nv : Placement) :
    p.endMove m nv = { p.ended m nv with legs := p.endedLegs m nv }.settle := by
  have legs := ended_legs p m nv
  unfold Placement.endMove Placement.endedLegs
  dsimp only
  change (if (p.ended m nv).ownsKeys m.source then (p.ended m nv).settle
    else { p.ended m nv with legs := (p.ended m nv).legs.erase m.source }.settle) = _
  split
  · rw [← legs]
  · rw [legs]

theorem ended_core {m : Move} (nv : Placement) (form : SpreadForm p)
    (moving : p.move = some m) : SpreadCore { p.ended m nv with legs := p.endedLegs m nv } := by
  have prev := form.moving m moving
  obtain ⟨table, got, -⟩ := prev.owned
  have covers := reassign_over (scopeTable_over form.tables got) prev.ordered prev.dest
  have core : SpreadCore (p.ended m nv) := by
    have rested := form.toSpreadCore.rested nv
    unfold Placement.ended
    rw [got, getD_some]
    have tables : Tables ((p.rested nv).setScopeTable m.scope (reassign table m.range m.dest)) :=
      rested.tables.setScopeTable covers
    rw [setScopeTable_frame] at tables ⊢
    exact ⟨rested.roles, rested.source, rested.ramp, rested.target, tables, rested.ids,
      rested.clusters, rested.apart⟩
  have legs := ended_legs p m nv
  unfold Placement.endedLegs
  split
  · rw [← legs]
    exact core
  rename_i idle
  rw [← legs]
  exact core.eraseLeg (by simpa using idle)

theorem ApplyStep.formed (formed : Formed p) (step : ApplyStep p t q) : Formed q := by
  cases step with
  | plain plain step => exact .inl (step.plainForm (formed.plainForm plain))
  | start plans view => exact .inr (plans.spreadForm formed view)
  | step moving view still =>
    exact .inr ((formed.spreadForm moving).stepped moving view.ramped still)
  | unwind moving =>
    exact settle_formed ((formed.spreadForm moving).toSpreadCore.rested _) rfl rfl
  | @finish m nv moving =>
    rw [endMove_eq]
    refine settle_formed (ended_core nv (formed.spreadForm moving) moving) ?_ ?_
    · exact setScopeTable_state _ _ _
    · exact setScopeTable_move _ _ _

theorem apply_formed (formed : Formed p) (res : p.apply t = .ok q) : Formed q := by
  obtain ⟨t', -, step⟩ := apply_step formed res
  exact step.formed formed

end Shunt.Directory
