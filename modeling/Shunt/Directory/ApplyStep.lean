/-
What a transition of a placement can do, said once: a step of a plain placement,
the first step of a move, a later one, and the two ways a move ends.
-/

import Shunt.Directory.Ownership
import Shunt.Directory.RoleStep

namespace Shunt.Directory

open List Option Std.ExtTreeMap

variable {p : Placement} {t t' : Transition}

def Placement.spreadBase (p : Placement) : Placement := if p.spread then p else p.asSpread

theorem spreadBase_prefixes (p : Placement) : p.spreadBase.prefixes = p.prefixes := by
  unfold Placement.spreadBase
  split <;> rfl

/-- The range a first step names whole: its own, or the first one in the table
of the leg it names, or the one entry of the table. -/
inductive NamesRange (range : Option HashRange) (leg : String) (table : List Owner) :
    HashRange → Prop where
  | given {rg} (named : range = some rg) (ordered : rg.lo ≤ rg.hi) : NamesRange range leg table rg
  | ofLeg {o} (unnamed : range = none) (byLeg : leg ≠ "")
      (got : (table.find? fun o => o.leg = leg) = some o) : NamesRange range leg table ⟨o.lo, o.hi⟩
  | ofScope {o} (unnamed : range = none) (scopeOnly : leg = "") (alone : table = [o]) :
      NamesRange range leg table ⟨o.lo, o.hi⟩

inductive DestLeg (legs : StrMap Leg) (dest : String) : StrMap Leg → Prop where
  | known (there : dest ∈ legs) : DestLeg legs dest legs
  | fresh {l : Leg} (gone : dest ∉ legs) (wellNamed : legID dest = true)
      (apart : ∀ id : String, legs[id]? ≠ some l) (cluster : l.cluster ≠ "") :
      DestLeg legs dest (legs.insert dest l)

def Placement.startTarget (p : Placement) (t : Transition) : String :=
  if p.spread = true ∨ p.target = "" then t.target else p.target

structure Planned (p : Placement) (t : Transition) (plan : MovePlan) : Prop where
  active : p.state = .active
  named : ¬ (t.range = none ∧ t.leg = "" ∧ t.scope = [])
  inScope : t.scope = [] ∨ ∃ rule ∈ p.prefixes, rule.pre = t.scope
  -- a target that is not the recorded one is refused
  target : p.spread = true ∨ p.target = "" ∨ t.target = "" ∨ t.target = p.target
  destCluster : (legIn plan.base.legs plan.dest).cluster = p.startTarget t
  base : plan.base = { p.spreadBase with legs := plan.base.legs }
  legs : DestLeg p.spreadBase.legs plan.dest plan.base.legs
  different : plan.dest ≠ plan.source
  range : ∃ table all, p.spreadBase.scopeTable t.scope = some table ∧
    NamesRange t.range t.leg table all ∧ plan.range = t.shareOf all ∧
    ∃ o ∈ table, o.leg = plan.source ∧ o.lo ≤ plan.range.lo ∧ plan.range.hi ≤ o.hi

theorem checkStart_ok (ok : p.checkStart t = .ok ()) :
    p.state = .active ∧ ¬ (t.range = none ∧ t.leg = "" ∧ t.scope = []) ∧
      (t.scope = [] ∨ ∃ rule ∈ p.prefixes, rule.pre = t.scope) ∧
      (t.scope ≠ [] → t.prefixes = []) ∧ ∀ rg, t.range = some rg → rg.lo ≤ rg.hi := by
  unfold Placement.checkStart at ok
  split at ok
  · cases ok
  rename_i active
  split at ok
  · cases ok
  rename_i missing
  split at ok
  · cases ok
  rename_i byRatio
  split at ok
  · cases ok
  rename_i named
  split at ok
  · cases ok
  rename_i ordered
  refine ⟨not_not.mp active, named, ?_, by simpa using byRatio, ?_⟩
  · by_cases all : t.scope = []
    · exact .inl all
    refine .inr ?_
    have got : (p.prefixes.any fun rule => rule.pre == t.scope) := by
      by_contra gone
      exact missing ⟨all, by simpa using gone⟩
    obtain ⟨rule, mem, eq⟩ := List.any_eq_true.mp got
    exact ⟨rule, mem, by simpa using eq⟩
  · intro rg named
    simpa [named] using ordered

theorem prepareStart_ok {np : Placement} (ok : p.prepareStart t = .ok (np, t')) :
    np = p.spreadBase ∧ (p.spread ∨ p.target = "" ∨ t.target = "" ∨ t.target = p.target) ∧
      (p.spread = false → p.cold = "" ∧ p.tier = "") ∧
      ∃ name, t' = { t with target := p.startTarget t, name := name } ∧
        (name = t.name ∨ p.spread = false ∧ p.target ≠ "" ∧ name = nameIn p.names p.target) := by
  unfold Placement.prepareStart at ok
  unfold Placement.spreadBase Placement.startTarget
  split at ok
  · rename_i spread
    cases ok
    exact ⟨(if_pos spread).symm, .inl spread, by simp [spread], t.name,
      by rw [if_pos (.inl spread)], .inl rfl⟩
  rename_i plain
  split at ok
  · cases ok
  rename_i untiered
  push Not at untiered
  split at ok
  · rename_i unset
    cases ok
    exact ⟨(if_neg plain).symm, .inr (.inl unset), fun _ => untiered, t.name,
      by rw [if_pos (.inr unset)], .inl rfl⟩
  rename_i noted
  split at ok
  · cases ok
  rename_i fits
  cases ok
  have apart : ¬ (p.spread ∨ p.target = "") := fun free => free.elim plain noted
  refine ⟨(if_neg plain).symm, ?_, fun _ => untiered, _, by rw [if_neg apart], ?_⟩
  · by_cases empty : t.target = ""
    · exact .inr (.inr (.inl empty))
    · exact .inr (.inr (.inr (not_not.mp fun other => fits ⟨empty, other⟩)))
  by_cases unnamed : t.name = ""
  · rw [if_pos unnamed]
    exact .inr ⟨by simpa using plain, noted, rfl⟩
  · rw [if_neg unnamed]
    exact .inl rfl

theorem namedRange_ok {np : Placement} {table : List Owner} {leg : String} {all : HashRange}
    (moves : p.moveLeg t table = .ok leg) (ordered : ∀ rg, t.range = some rg → rg.lo ≤ rg.hi)
    (ok : p.namedRange np t leg table = .ok all) : NamesRange t.range t.leg table all := by
  unfold Placement.namedRange at ok
  cases named : t.range with
  | some =>
    simp only [named] at ok
    cases ok
    exact .given rfl (ordered _ named)
  | none =>
    simp only [named] at ok
    split at ok
    · cases ok
    cases got : (table.find? fun o => o.leg = leg) with
    | none => simp [got, Placement.fail] at ok
    | some o =>
      simp only [got] at ok
      cases ok
      unfold Placement.moveLeg at moves
      split at moves
      · rename_i scopeOnly
        split at moves
        · rename_i only
          cases moves
          have eq : only = o := by simpa using got
          subst eq
          exact .ofScope rfl scopeOnly.2 rfl
        · cases moves
      rename_i byLeg
      cases moves
      exact .ofLeg rfl (fun empty => byLeg ⟨named, empty⟩) got

theorem rangeOwner_mem (rg : HashRange) (table : List Owner) :
    ∀ start, (table.foldl (fun src o => if o.lo ≤ rg.lo ∧ rg.hi ≤ o.hi then o.leg else src) start =
        start) ∨ ∃ o ∈ table, o.leg =
          table.foldl (fun src o => if o.lo ≤ rg.lo ∧ rg.hi ≤ o.hi then o.leg else src) start ∧
        o.lo ≤ rg.lo ∧ rg.hi ≤ o.hi := by
  induction table with
  | nil => intro start; exact .inl rfl
  | cons head rest ih =>
    intro start
    rw [foldl_cons]
    rcases ih (if head.lo ≤ rg.lo ∧ rg.hi ≤ head.hi then head.leg else start) with kept | got
    · rw [kept]
      split
      · rename_i holds
        exact .inr ⟨head, mem_cons_self, rfl, holds⟩
      · exact .inl rfl
    · obtain ⟨o, mem, eq, holds⟩ := got
      exact .inr ⟨o, mem_cons_of_mem head mem, eq, holds⟩

theorem newLegIDWithin_ok {legs : StrMap Leg} {cluster : String} :
    ∀ {rounds n : Nat} {id got : String}, newLegIDWithin legs cluster rounds n id = some got →
      got ∉ legs ∧ legID got = true := by
  intro rounds
  induction rounds with
  | zero =>
    rintro n id got ⟨⟩
  | succ rounds ih =>
    intro n id got res
    unfold newLegIDWithin at res
    split at res
    · rename_i free
      cases res
      exact free
    · exact ih res

theorem moveDest_ok {np np' : Placement} {src dst : String}
    (ids : ∀ id ∈ np.legs, id ≠ "") (target : t.target ≠ "") (owner : src ∈ np.legs)
    (ok : p.moveDest np t src = .ok (np', dst)) :
    np' = { np with legs := np'.legs } ∧ dst ≠ src ∧ DestLeg np.legs dst np'.legs ∧
      (legIn np'.legs dst).cluster = t.target := by
  have isIn : ∀ id ∈ destLegs np.legs t.target t.name,
      id ∈ np.legs ∧ (legIn np.legs id).cluster = t.target := by
    intro id mem
    simp only [destLegs, List.mem_map, List.mem_filter] at mem
    obtain ⟨entry, ⟨there, fits⟩, eq⟩ := mem
    rw [← eq]
    have got := mem_toList_iff_getElem?_eq_some.mp there
    refine ⟨isSome_getElem?_iff_mem.mp (by rw [got]; rfl), ?_⟩
    simp only [Bool.and_eq_true, decide_eq_true_eq] at fits
    rw [legIn, got, getD_some]
    exact fits.1
  unfold Placement.moveDest at ok
  dsimp only at ok
  iterate 2
    split at ok
    · cases ok
  rename_i different
  split at ok
  · cases ok
  cases at_ : (destLegs np.legs t.target t.name).getLast? with
  | some id =>
    obtain ⟨there, onTarget⟩ := isIn id (mem_of_getLast? at_)
    simp only [at_, getD_some] at ok different
    rw [if_neg (ids id there)] at ok
    cases ok
    exact ⟨rfl, different, .known there, onTarget⟩
  | none =>
    simp only [at_, getD_none, if_true] at ok different
    cases fresh : newLegID np.legs t.target with
    | none => simp [fresh, Placement.fail] at ok
    | some =>
      simp only [fresh] at ok
      cases ok
      obtain ⟨gone, wellNamed⟩ := newLegIDWithin_ok fresh
      refine ⟨rfl, fun eq => gone (by rw [eq]; exact owner),
        .fresh gone wellNamed ?_ target, by simp [legIn]⟩
      intro other got
      have none := getLast?_eq_none_iff.mp at_
      have mem : other ∈ destLegs np.legs t.target t.name := by
        simp only [destLegs, List.mem_map, List.mem_filter]
        exact ⟨(other, ⟨t.target, t.name⟩), ⟨mem_toList_iff_getElem?_eq_some.mpr got, by simp⟩, rfl⟩
      rw [none] at mem
      cases mem

theorem planMove_stages {plan : MovePlan} (res : p.planMove t = .ok plan) :
    ∃ np u leg all, p.checkStart t = .ok () ∧ p.prepareStart t = .ok (np, u) ∧ u.target ≠ "" ∧
      p.moveLeg u ((np.scopeTable u.scope).getD []) = .ok leg ∧
      p.namedRange np u leg ((np.scopeTable u.scope).getD []) = .ok all ∧
      plan.range = u.shareOf all ∧
      plan.source = rangeOwner ((np.scopeTable u.scope).getD []) plan.range ∧ plan.source ≠ "" ∧
      p.moveDest np u plan.source = .ok (plan.base, plan.dest) ∧ plan.base.legs.size ≤ maxLegs := by
  unfold Placement.planMove at res
  cases start : p.checkStart t with
  | error => simp [start] at res
  | ok =>
    simp only [start] at res
    cases prepared : p.prepareStart t with
    | error => simp [prepared] at res
    | ok pair =>
      obtain ⟨np, u⟩ := pair
      simp only [prepared] at res
      split at res
      · cases res
      rename_i given
      cases moves : p.moveLeg u ((np.scopeTable u.scope).getD []) with
      | error => simp [moves] at res
      | ok leg =>
        simp only [moves] at res
        cases named : p.namedRange np u leg ((np.scopeTable u.scope).getD []) with
        | error => simp [named] at res
        | ok all =>
          simp only [named] at res
          split at res
          · cases res
          rename_i owned
          split at res
          · cases res
          cases dest : p.moveDest np u
              (rangeOwner ((np.scopeTable u.scope).getD []) (u.shareOf all)) with
          | error => simp [dest] at res
          | ok =>
            simp only [dest] at res
            split at res
            · cases res
            rename_i few
            cases res
            exact ⟨np, u, leg, all, rfl, rfl, given, moves, named, rfl, rfl,
              owned, dest, not_lt.mp few⟩

theorem planMove_planned {plan : MovePlan} (ids : ∀ id ∈ p.spreadBase.legs, id ≠ "")
    (tables : Tables p.spreadBase) (res : p.planMove t = .ok plan) : Planned p t plan := by
  obtain ⟨np, u, leg, all, start, prepared, given, moves, ranged, range, source, owned, dest,
    -⟩ := planMove_stages res
  obtain ⟨active, named, inScope, -, ordered⟩ := checkStart_ok start
  obtain ⟨rfl, target, -, name, rfl, -⟩ := prepareStart_ok prepared
  have got : ∃ table, p.spreadBase.scopeTable t.scope = some table := by
    rcases inScope with all | ⟨rule, mem, eq⟩
    · rw [all]
      exact ⟨_, rfl⟩
    rw [← eq]
    refine ⟨_, scopeTable_of_mem tables ?_⟩
    rw [spreadBase_prefixes]
    exact mem
  obtain ⟨table, got⟩ := got
  simp only [got, getD_some] at moves ranged source
  have chosen := namedRange_ok moves ordered ranged
  obtain none | ⟨o, mem, eq, holds⟩ := rangeOwner_mem plan.range table ""
  · exact absurd (source.trans none) owned
  rw [← rangeOwner, ← source] at eq
  have known : plan.source ∈ p.spreadBase.legs := by
    rw [← eq]
    exact (scopeTable_over tables got).2 o mem
  obtain ⟨sameBase, different, legs, cluster⟩ := moveDest_ok ids given known dest
  exact ⟨active, named, inScope, target, cluster, sameBase, legs, different,
    table, all, got, chosen, range, o, mem, eq, holds⟩

theorem asSpread_tables (p : Placement) (plain : p.spread = false) : Tables p.asSpread := by
  have rules : p.asSpread.prefixes = [] := (noRules plain).1
  refine ⟨⟨?_, ?_⟩, ?_, ?_, ?_⟩
  · exact tiled_full p.primary
  · intro o mem
    have eq : o = ⟨fullRange.lo, fullRange.hi, p.primary⟩ := by
      simpa [Placement.asSpread] using mem
    rw [eq]
    exact Std.ExtTreeMap.mem_insert_self
  · rw [rules]
    rintro rule ⟨⟩
  · rw [rules]
    rintro rule ⟨⟩
  · rw [rules]
    exact List.Pairwise.nil

theorem spreadBase_tables (formed : Formed p) : Tables p.spreadBase := by
  unfold Placement.spreadBase
  rcases formed with plain | spread
  · rw [if_neg (ne_true_of_eq_false plain.plain)]
    exact asSpread_tables p plain.plain
  · rw [if_pos spread.spread]
    exact spread.tables

theorem spreadBase_ids (formed : Formed p) : ∀ id ∈ p.spreadBase.legs, id ≠ "" := by
  unfold Placement.spreadBase
  rcases formed with plain | spread
  · rw [if_neg (ne_true_of_eq_false plain.plain)]
    intro id mem
    simp only [Placement.asSpread, mem_insert, not_mem_empty, or_false,
      Std.compare_eq_iff_eq] at mem
    rw [← mem]
    exact plain.primary
  · rw [if_pos spread.spread]
    exact spread.ids

theorem resolve_frame (solved : p.resolve t = .ok t') :
    t' = { t with range := t'.range, leg := t'.leg, share := t'.share } := by
  unfold Placement.resolve at solved
  cases shared : p.resolveShare t with
  | error => simp [shared] at solved
  | ok u =>
    simp only [shared] at solved
    have first : u = { t with range := u.range, share := u.share } := by
      unfold Placement.resolveShare at shared
      repeat' split at shared
      all_goals cases shared
      all_goals rfl
    have second : p.resolveRange u = { u with range := (p.resolveRange u).range } := by
      unfold Placement.resolveRange
      dsimp only
      repeat' split
      all_goals rfl
    have third : t' = { p.resolveRange u with leg := t'.leg } := by
      unfold Placement.resolveLeg at solved
      repeat' split at solved
      all_goals cases solved
      all_goals rfl
    rw [third, second, first]

theorem resolve_kind (solved : p.resolve t = .ok t') : t'.kind = t.kind := by
  rw [resolve_frame solved]
  rfl

theorem resolve_spread (spread : p.spread) (solved : p.resolve t = .ok t') : t' = t := by
  unfold Placement.resolve at solved
  cases shared : p.resolveShare t with
  | error => simp [shared] at solved
  | ok =>
    simp only [shared, Placement.resolveRange, Placement.resolveLeg, spread, reduceCtorEq,
      false_and, and_false, if_false] at solved
    cases solved
    simp only [Placement.resolveShare, spread, if_true] at shared
    repeat' split at shared
    all_goals cases shared
    all_goals rfl

theorem apply_plain (plain : p.spread = false) (noShare : t.share = 0)
    (noRange : t.range = none) (noLeg : t.leg = "") (noScope : t.scope = [])
    (noTarget : t.target = "") : p.apply t = p.applyRoles t := by
  have solved : p.resolve t = .ok t := by
    simp [Placement.resolve, Placement.resolveShare, Placement.resolveRange, Placement.resolveLeg,
      noShare, noRange, noLeg, noTarget]
  simp [Placement.apply, solved, plain, noRange, noScope]

inductive ApplyStep (p : Placement) (t : Transition) : Placement → Prop where
  | plain {q} (plain : p.spread = false) (step : RoleStep p t q) : ApplyStep p t q
  | start {plan nv} (plans : Planned p t plan)
      (view : RoleStep (firstView plan.base.legs plan.source) (plan.roleStep t) nv) :
      ApplyStep p t (plan.started t nv)
  | step {m nv} (moving : p.move = some m)
      (view : RoleStep (p.moveView m) t.forRoles nv) (still : nv.state ≠ .active) :
      ApplyStep p t (p.stepped m nv)
  | unwind {m nv} (moving : p.move = some m)
      (view : RoleStep (p.moveView m) t.forRoles nv) (active : nv.state = .active)
      (freed : t.release = true) : ApplyStep p t (p.rested nv).settle
  | finish {m nv} (moving : p.move = some m)
      (view : RoleStep (p.moveView m) t.forRoles nv) (active : nv.state = .active)
      (inForce : t.release = false) : ApplyStep p t (p.endMove m nv)

theorem moveView_ramped {m : Move} (ramped : Ramped p.state m.ramp) :
    Ramped (p.moveView m).state (p.moveView m).ramp := by
  cases stands : m.ramp with
  | none =>
    rw [stands] at ramped
    simpa [Placement.moveView, HashRange.limit, stands] using ramped
  | some r =>
    rw [stands] at ramped
    refine ⟨?_, ?_⟩
    · simpa [Placement.moveView, HashRange.limit, stands] using ramped.present
    intro r' eq unheld
    simp only [Placement.moveView, HashRange.limit, stands, map_some, Option.some.injEq] at eq
    subst eq
    exact ramped.moves r rfl unheld

theorem firstView_ramped (legs : StrMap Leg) (src : String) :
    Ramped (firstView legs src).state (firstView legs src).ramp :=
  ⟨by simp [firstView], by intro r no; cases no⟩

theorem apply_step {q : Placement} (formed : Formed p)
    (res : p.apply t = .ok q) : ∃ t', p.resolve t = .ok t' ∧ ApplyStep p t' q := by
  obtain ⟨u, solved, ran⟩ := apply_ran res
  have ramped : ∀ {m : Move}, p.move = some m →
      Ramped (p.moveView m).state (p.moveView m).ramp := fun moving =>
    moveView_ramped ((formed.spreadForm moving).moving _ moving).ramped
  refine ⟨u, solved, ?_⟩
  cases ran with
  | roles plain view =>
    exact .plain plain (applyRoles_step (formed.plainForm plain).ramped view)
  | starts plans view =>
    exact .start (planMove_planned (spreadBase_ids formed) (spreadBase_tables formed) plans)
      (applyRoles_step (firstView_ramped _ _) view)
  | steps moving _ view still => exact .step moving (applyRoles_step (ramped moving) view) still
  | unwinds moving _ view active freed =>
    exact .unwind moving (applyRoles_step (ramped moving) view) active freed
  | ends moving _ view active inForce =>
    exact .finish moving (applyRoles_step (ramped moving) view) active inForce

end Shunt.Directory
