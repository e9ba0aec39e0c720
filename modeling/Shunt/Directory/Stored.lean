/-
Placements survive storage.  A stored placement is read back through the conversion
of schema v2, which keeps the legs of some placements and gives others their plain
form.  Every mutation writes placements that are read back as they were written.
-/

import Shunt.Directory.Completion
import Shunt.Directory.Mutations

namespace Shunt.Directory

open Std.ExtTreeMap

variable {p q : Placement} {t u : Transition}

structure Storable (p : Placement) : Prop where
  roles : p.legClusters = ∅
  plain : p.spread = false → p.legs = ∅ ∧ p.owners = []
  split : p.spread = true → p.keepsLegs = true

theorem Storable.fromV2 (storable : Storable p) (valid : p.Valid) : p.fromV2 = .ok p := by
  obtain ⟨f, key, used, ok⟩ := valid.checked
  simp only [validatePlacement, List.append_eq_nil_iff] at ok
  by_cases spread : p.spread
  · rw [if_pos spread] at ok
    obtain ⟨v2, sent, -, ⟨primary, source, names, ramp, cutover⟩, -⟩ := validateSpread_parts ok.2
    unfold Placement.fromV2
    split
    · rfl
    · rw [if_neg (by simp [primary, source, names, ramp, cutover]), v2]
      simp only [storable.split spread, if_true, sent]
  have plain : p.spread = false := by simpa using spread
  obtain ⟨legs, owners⟩ := storable.plain plain
  have v1 : p.isV2 = false := by
    simp [Placement.isV2, legs, owners, noRules plain]
  rw [Placement.fromV2, if_pos v1]

theorem keepsLegs_of_spread (spread : p.spread) (rests : p.move = none) : p.keepsLegs = true := by
  simp only [Placement.spread, rests, Option.isSome_none, Bool.or_false] at spread
  simpa [Placement.keepsLegs, rests] using spread

theorem Storable.settle (roles : p.legClusters = ∅) (rests : p.move = none)
    (owned : p.owners ≠ []) : Storable p.settle := by
  have stays : p.settle = p → p.spread → Storable p.settle := by
    intro eq spread
    rw [eq]
    refine ⟨roles, fun plain => ?_, fun _ => keepsLegs_of_spread spread rests⟩
    rw [spread] at plain
    cases plain
  cases owners : p.owners with
  | nil => exact absurd owners owned
  | cons o rest =>
    cases rest with
    | nil =>
      by_cases ruled : p.prefixes = []
      · have settled : p.settle = p.settledOn o := by
          simp [Placement.settle, Placement.settledOn, owners, rests, ruled]
        rw [settled]
        refine ⟨roles, fun _ => ⟨rfl, rfl⟩, fun spread => ?_⟩
        simp [Placement.spread, Placement.settledOn, rests, ruled] at spread
      refine stays ?_ ?_
      · simp [Placement.settle, owners, ruled]
      · simp [Placement.spread, ruled]
    | cons =>
      refine stays ?_ ?_
      · simp [Placement.settle, owners]
      · simp [Placement.spread, owners]

theorem SpreadCore.owned (core : SpreadCore p) : p.owners ≠ [] := by
  obtain ⟨o, mem, -⟩ := exists_owner core.tables.own.1 0
  exact List.ne_nil_of_mem mem

theorem planned_onCluster {plan : MovePlan} (form : PlainForm p) (solved : p.resolve t = .ok u)
    (plans : Planned p u plan) (all : plan.range = fullRange) :
    (legIn plan.base.legs plan.dest).cluster = (legIn plan.base.legs plan.source).cluster := by
  obtain ⟨unshared, noLeg, -, ranged⟩ := resolve_plain form.plain plans.active solved
  obtain ⟨scope, source, -⟩ := plans.plainTable form
  have range := plans.plainRange form unshared
  have frame := resolve_frame solved
  have own : p.spreadBase.legs[p.primary]? = some ⟨p.primary, nameIn p.names p.primary⟩ := by
    simp [Placement.spreadBase, form.plain, Placement.asSpread]
  -- the target is the placement's own cluster
  have home : u.target = p.primary → u.target ≠ "" →
      (legIn plan.base.legs plan.dest).cluster = p.primary := by
    intro eq given
    rw [plans.destCluster, Placement.startTarget, if_pos, eq]
    rcases plans.target with spread | unset | empty | noted
    · rw [form.plain] at spread
      cases spread
    · exact .inr unset
    · exact absurd empty given
    · exact absurd (noted.symm.trans eq) form.away
  have atSource : (legIn plan.base.legs plan.source).cluster = p.primary := by
    rw [source, legIn_of_getElem? (plans.legs.kept.1 _ _ own)]
  have unranged : u.range ≠ none := fun none => plans.named ⟨none, noLeg, scope⟩
  rw [atSource]
  have target : u.target = t.target := by rw [frame]
  rw [target] at home
  generalize u.range = given at ranged range unranged
  cases ranged with
  | every other => exact home other.2.1 other.1
  | whole => exact absurd rfl unranged
  | kept eq part =>
    cases shared : t.shared with
    | none => exact absurd shared unranged
    | some =>
      rw [shared, Option.getD_some] at range
      have here : t.target = p.primary := by
        by_contra away
        exact part ⟨by rw [shared, ← range, all], away⟩
      exact home here (by rw [here]; exact form.primary)

theorem Storable.started {plan : MovePlan} (formed : Formed p) (storable : Storable p)
    (solved : p.resolve t = .ok u) (plans : Planned p u plan) (nv : Placement) :
    Storable (plan.started u nv) := by
  have base := plans.base
  have moves : (plan.started u nv).spread := by
    simp [Placement.spread, MovePlan.started]
  have owners : plan.base.owners = p.spreadBase.owners := by rw [base]
  have rules : plan.base.prefixes = p.prefixes := by rw [base]; exact spreadBase_prefixes p
  refine ⟨?_, fun plain => ?_, fun _ => ?_⟩
  · change plan.base.legClusters = ∅
    rw [base, ← storable.roles]
    change p.spreadBase.legClusters = p.legClusters
    unfold Placement.spreadBase
    split <;> rfl
  · rw [moves] at plain
    cases plain
  rcases formed with form | form
  · by_cases all : plan.range = fullRange
    · have source : plan.source ∈ plan.base.legs := by
        obtain ⟨table, -, got, -, -, o, mem, eq, -⟩ := plans.range
        obtain ⟨l, at_⟩ := exists_leg
          ((scopeTable_over (spreadBase_tables (.inl form)) got).2 o mem)
        rw [← eq]
        exact isSome_getElem?_iff_mem.mp (by rw [plans.legs.kept.1 _ _ at_]; rfl)
      obtain ⟨from_, atSource⟩ := exists_leg source
      obtain ⟨to_, atDest⟩ := exists_leg plans.legs.kept.2
      have together := planned_onCluster form solved plans all
      rw [legIn_of_getElem? atSource, legIn_of_getElem? atDest] at together
      simp [Placement.keepsLegs, Placement.sameClusterMove, MovePlan.started, MovePlan.move,
        atSource, atDest, together]
    · simp [Placement.keepsLegs, MovePlan.started, MovePlan.move, all]
  · have kept := keepsLegs_of_spread form.spread (form.rest.mp plans.active)
    have eq : p.spreadBase.owners = p.owners := by
      rw [Placement.spreadBase, if_pos form.spread]
    simp only [Placement.keepsLegs, form.rest.mp plans.active, Bool.or_false] at kept
    simp only [Placement.keepsLegs, MovePlan.started, owners, eq, rules, kept, Bool.true_or]

theorem Storable.apply (formed : Formed p) (storable : Storable p) (res : p.apply t = .ok q) :
    Storable q := by
  obtain ⟨u, solved, step⟩ := apply_step formed res
  cases step with
  | plain plain step =>
    have post := step.plainForm (formed.plainForm plain)
    obtain ⟨legs, owners⟩ := storable.plain plain
    refine ⟨post.roles, fun _ => ?_, fun spread => ?_⟩
    · cases step with
      | leave | within | unwind | finish => exact ⟨legs, owners⟩
    · rw [post.plain] at spread
      cases spread
  | start plans => exact storable.started formed solved plans _
  | @step m nv moves =>
    have form := formed.spreadForm moves
    refine ⟨storable.roles, fun plain => ?_, fun _ => ?_⟩
    · simp [Placement.spread, Placement.stepped] at plain
    have kept := storable.split form.spread
    simp only [Placement.keepsLegs, Placement.sameClusterMove, moves] at kept
    exact kept
  | unwind moves =>
    have core := (formed.spreadForm moves).toSpreadCore.rested
    exact .settle (core _).roles rfl (core _).owned
  | @finish m nv moves =>
    rw [endMove_eq]
    have core := ended_core nv (formed.spreadForm moves) moves
    exact .settle core.roles (setScopeTable_move _ _ _) core.owned

def File.Stored (f : File) : Prop :=
  ∀ (k : String) (p : Placement), f.placements[k]? = some p → Storable p

variable {f g : File} {k : String}

theorem File.Stored.insert (stored : f.Stored) (storable : Storable p)
    (placements : g.placements = f.placements.insert k p) : g.Stored := by
  intro key q got
  simp only [placements, Std.ExtTreeMap.getElem?_insert, Std.compare_eq_iff_eq] at got
  split at got
  · cases got
    exact storable
  · exact stored key q got

theorem newPlacement_storable (cluster backend : String) (now : Int) :
    Storable (newPlacement cluster backend now) :=
  ⟨rfl, fun _ => ⟨rfl, rfl⟩, fun spread => by simp [Placement.spread, newPlacement] at spread⟩

theorem evenOwners_length (legs : List String) : (evenOwners legs).length = legs.length := by
  simp [evenOwners]

theorem mem_insertRule {rule r : PrefixRule} {rules : List PrefixRule} :
    rule ∈ insertRule r rules ↔ rule = r ∨ rule ∈ rules := by
  induction rules with
  | nil => simp [insertRule]
  | cons head rest ih =>
    unfold insertRule
    split <;> simp [ih, or_left_comm]

theorem carved_ruled (p : Placement) (pre : Key) :
    (p.carved pre).prefixes ≠ [] ∧ (p.carved pre).spread := by
  have ruled : (p.carved pre).prefixes ≠ [] := by
    simp only [Placement.carved]
    exact List.ne_nil_of_mem (mem_insertRule.mpr (.inl rfl))
  exact ⟨ruled, by simp [Placement.spread, ruled]⟩

theorem Storable.carved (storable : Storable p) (pre : Key) : Storable (p.carved pre) := by
  obtain ⟨ruled, spread⟩ := carved_ruled p pre
  refine ⟨?_, fun plain => ?_, fun _ => by simp [Placement.keepsLegs, ruled]⟩
  · rw [← storable.roles]
    unfold Placement.carved
    split <;> rfl
  · rw [spread] at plain
    cases plain

theorem Formed.ruled (formed : Formed p) {rule : PrefixRule} (mem : rule ∈ p.prefixes) :
    SpreadForm p := by
  refine formed.spreading ?_
  simp [Placement.spread, List.ne_nil_of_mem mem]

theorem Changed.storable {m : Mutation} (change : Changed m p q) (formed : Formed p)
    (storable : Storable p) : Storable q := by
  cases change with
  | stepped is_ res => exact storable.apply formed res
  | switched | watched | targeted | untargeted =>
    exact ⟨storable.roles, storable.plain, storable.split⟩
  | @carved pre => exact storable.carved pre
  | merged rests mem =>
    exact .settle storable.roles rests.2 (formed.ruled mem).toSpreadCore.owned
  | retired active spread =>
    have form := formed.spreading spread
    exact .settle storable.roles (form.rest.mp active) form.toSpreadCore.owned

theorem Mutation.stored {now : Int} {m : Mutation}
    (formed : ∀ (k : String) (p : Placement), f.placements[k]? = some p → Formed p)
    (stored : f.Stored) (res : m.run now f = .ok g) : g.Stored := by
  cases Mutation.mutated res with
  | opened gone placements => exact stored.insert (newPlacement_storable _ _ _) placements
  | spread gone several placements =>
    refine stored.insert ⟨rfl, fun plain => ?_, fun _ => ?_⟩ placements
    · simp [Placement.spread, evenOwners_length] at plain
      omega
    · simp [Placement.keepsLegs, evenOwners_length]
      omega
  | changed got change =>
    exact stored.insert (change.storable (formed _ _ got) (stored _ _ got)) rfl
  | deleted =>
    intro key q got
    simp only [getElem?_erase] at got
    split at got
    · cases got
    · exact stored key q got
  | beside placements =>
    intro key q got
    rw [placements] at got
    exact stored key q got

end Shunt.Directory
