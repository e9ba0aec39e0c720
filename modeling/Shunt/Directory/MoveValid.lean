/-
A move of a sound placement keeps it sound: its first step, which may add a leg, a later
one, and its end, after which the placement may settle into its plain form.
-/

import Shunt.Directory.StepValid

namespace Shunt.Directory

open List Option Std.ExtTreeMap

open Config (Barrier Cluster)

structure SpreadRest (configured : StrMap Cluster) (p : Placement) : Prop where
  named : ∀ id ∈ p.legs, legID id = true
  held : ∀ (id : String) (l : Leg), p.legs[id]? = some l → Holdable configured (l.cluster, l.bucket)
  hash : p.keyHash ≠ "" → validRampHashName p.keyHash = true
  split : 1 < p.owners.length ∨ p.prefixes ≠ [] → p.keyHash ≠ ""
  ruled : RulesOk (p.prefixes.map PrefixRule.pre)
  untiered : p.cold = "" ∧ p.tier = "" ∧ p.lifecycle = ""
  unset : p.primary = "" ∧ p.names = ∅ ∧ p.cutover = none

section

variable {clusters : StrMap Cluster} {p nv : Placement} {t : Transition} {m : Move}
  {plan : MovePlan}
variable {legs : List (String × Leg)}

theorem SpreadRest.valid (rest : SpreadRest clusters p) (form : SpreadForm p)
    (few : p.legs.size ≤ maxLegs) (moves : ∀ m, p.move = some m → MoveOk p m)
    (barrier : BarrierOk p.state p.barrier) : SpreadValid clusters p :=
  ⟨form, few, rest.named, rest.held, rest.hash, rest.split, rest.ruled, rest.untiered, moves,
    rest.unset, barrier⟩

theorem SpreadValid.resting (valid : SpreadValid clusters p) : SpreadRest clusters p :=
  ⟨valid.named, valid.held, valid.hash, valid.split, valid.ruled, valid.untiered, valid.unset⟩

theorem limit_valid {s : State} {ramp : Option Ramp} {rg : HashRange} (ordered : rg.lo ≤ rg.hi)
    (valid : RampValid s ramp) : RampValid s (rg.limit ramp) := by
  cases ramp with
  | none => exact valid
  | some r =>
    have sound := valid.each r rfl
    refine ⟨by simpa [HashRange.limit] using valid.present, fun r' eq => ?_⟩
    cases eq
    exact ⟨sound.hash, sound.ratio, sound.moves, sound.hold,
      fun rg' eq => by cases eq; exact ordered⟩

theorem limit_byRatio {ramp : Option Ramp} {rg : HashRange} (plain : byRatio ramp) :
    byRatio (rg.limit ramp) := by
  cases ramp with
  | none => exact plain
  | some r =>
    intro r' eq
    cases eq
    exact plain r rfl

theorem moveOk_of_view {q : Placement} {scope : Key} {rg : HashRange} {source dest : String}
    (ordered : rg.lo ≤ rg.hi) (state : q.state = nv.state) (ramp : RampValid nv.state nv.ramp)
    (evidence : nv.cutover ≠ none → nv.state = .cutover) (plain : scope ≠ [] → byRatio nv.ramp) :
    MoveOk q { scope := scope, range := rg, source := source, dest := dest,
               ramp := rg.limit nv.ramp, cutover := nv.cutover } := by
  refine ⟨?_, ?_, ?_⟩
  · rw [state]
    exact limit_valid ordered ramp
  · rw [state]
    exact evidence
  · intro inScope
    exact rampsByPrefix_iff.mpr (limit_byRatio (plain inScope))

theorem spreadBase_rest (sound : p.Sound clusters) (ruled : ∀ cl ∈ clusters, legID cl)
    (active : p.state = .active) (untiered : p.spread = false → p.cold = "" ∧ p.tier = "") :
    SpreadRest clusters p.spreadBase := by
  rcases sound with valid | valid
  · have plain : ¬ p.spread = true := ne_true_of_eq_false valid.plain
    obtain ⟨noCold, noTier⟩ := untiered valid.plain
    have onlyLeg : ∀ (id : String) (l : Leg), p.asSpread.legs[id]? = some l →
        id = p.primary ∧ l = ⟨p.primary, nameIn p.names p.primary⟩ := by
      intro id l got
      simp only [Placement.asSpread, Std.ExtTreeMap.getElem?_insert, Std.compare_eq_iff_eq,
        getElem?_empty] at got
      split at got
      · rename_i eq
        cases got
        exact ⟨eq.symm, rfl⟩
      · cases got
    have primaryHeld : Holdable clusters (p.primary, nameIn p.names p.primary) := by
      obtain ⟨name, got⟩ := isSome_iff_exists.mp (isSome_getElem?_iff_mem.mpr valid.primaryNamed)
      rw [nameIn, got]
      exact valid.held p.primary name got
    rw [Placement.spreadBase, if_neg plain]
    exact
      { named := by
          intro id mem
          obtain ⟨l, got⟩ := exists_leg mem
          rw [(onlyLeg id l got).1]
          exact ruled p.primary valid.primaryKnown
        held := by
          intro id l got
          rw [(onlyLeg id l got).2]
          exact primaryHeld
        hash := fun _ => rampHash_valid
        split := fun _ => by simp [Placement.asSpread, rampHash]
        ruled := by
          simp only [Placement.asSpread, (noRules valid.plain).1, map_nil]
          exact ⟨by simp, by simp, by simp⟩
        untiered := ⟨noCold, noTier, (valid.tier.untiered noTier).2⟩
        unset := ⟨rfl, rfl, not_not.mp fun given => by
          have cutover := valid.evidence given
          rw [active] at cutover
          cases cutover⟩ }
  · rw [Placement.spreadBase, if_pos valid.spread]
    exact valid.resting

theorem moveDest_legs {np np' : Placement} {src dst : String}
    (ok : p.moveDest np t src = .ok (np', dst)) {id : String} {l : Leg}
    (got : np'.legs[id]? = some l) :
    np.legs[id]? = some l ∨ t.name ≠ "" ∧ l = ⟨t.target, t.name⟩ := by
  unfold Placement.moveDest at ok
  dsimp only at ok
  iterate 3
    split at ok
    · cases ok
  rename_i given
  split at ok
  · rename_i gone
    split at ok
    · cases ok
    cases ok
    simp only [Std.ExtTreeMap.getElem?_insert] at got
    split at got
    · cases got
      exact .inr ⟨fun empty => given ⟨gone, empty⟩, rfl⟩
    · exact .inl got
  · cases ok
    exact .inl got

theorem planMove_legs (plans : p.planMove t = .ok plan) :
    plan.base.legs.size ≤ maxLegs ∧ (p.spread = false → p.cold = "" ∧ p.tier = "") ∧
      (t.scope ≠ [] → t.prefixes = []) ∧ p.startTarget t ≠ "" ∧
      ∀ (id : String) (l : Leg), plan.base.legs[id]? = some l →
        p.spreadBase.legs[id]? = some l ∨ l.cluster = p.startTarget t ∧ l.bucket ≠ "" ∧
          (l.bucket = t.name ∨
            p.spread = false ∧ p.target ≠ "" ∧ l.bucket = nameIn p.names p.target) := by
  obtain ⟨np, u, leg, all, start, prepared, given, -, -, -, -, -, dest, few⟩ :=
    planMove_stages plans
  obtain ⟨-, -, -, ratioOnly, -⟩ := checkStart_ok start
  obtain ⟨rfl, -, untiered, name, rfl, source⟩ := prepareStart_ok prepared
  refine ⟨few, untiered, ratioOnly, given, fun id l got => ?_⟩
  rcases moveDest_legs dest got with prev | ⟨some_, rfl⟩
  · exact .inl prev
  · exact .inr ⟨rfl, some_, source⟩

theorem newLeg_held (sound : p.Sound clusters) (named : t.Named clusters) {l : Leg}
    (onTarget : l.cluster = p.startTarget t) (target : p.startTarget t ≠ "")
    (some_ : l.bucket ≠ "") (source : l.bucket = t.name ∨
      p.spread = false ∧ p.target ≠ "" ∧ l.bucket = nameIn p.names p.target) :
    Holdable clusters (l.cluster, l.bucket) ∧ ((l.cluster, l.bucket) ∈ p.buckets ∨
      t.name ≠ "" ∧ (l.cluster, l.bucket) = p.newBucket t) := by
  have known : p.startTarget t ∈ clusters := by
    unfold Placement.startTarget at target ⊢
    split
    · rename_i own
      rw [if_pos own] at target
      exact named.target target
    rename_i noted
    push Not at noted
    rcases sound with valid | valid
    · exact (valid.targetKnown noted.2).1
    · exact absurd valid.spread noted.1
  rcases source with given | ⟨plain, noted, given⟩
  · rw [given] at some_
    refine ⟨⟨by rw [onTarget]; exact target, by rw [onTarget]; exact known, ?_⟩,
      .inr ⟨some_, by rw [Placement.newBucket, onTarget, given]⟩⟩
    rw [given]
    exact named.name some_
  rcases sound with valid | valid
  · obtain ⟨name, got⟩ := isSome_iff_exists.mp
      (isSome_getElem?_iff_mem.mpr (valid.targetKnown noted).2)
    have onRecorded : p.startTarget t = p.target := by
      simp [Placement.startTarget, plain, noted]
    have sameName : l.bucket = name := by rw [given, nameIn, got]; rfl
    rw [onTarget, onRecorded, sameName]
    exact ⟨valid.held p.target name got, .inl ((mem_plain_buckets plain).mpr got)⟩
  · rw [valid.spread] at plain
    cases plain

theorem base_bucket (sound : p.Sound clusters) {id : String} {l : Leg}
    (got : p.spreadBase.legs[id]? = some l) : (l.cluster, l.bucket) ∈ p.buckets := by
  unfold Placement.spreadBase at got
  rcases sound with valid | valid
  · rw [if_neg (ne_true_of_eq_false valid.plain)] at got
    simp only [Placement.asSpread, Std.ExtTreeMap.getElem?_insert, getElem?_empty] at got
    split at got
    · cases got
      obtain ⟨name, there⟩ := isSome_iff_exists.mp (isSome_getElem?_iff_mem.mpr valid.primaryNamed)
      rw [mem_plain_buckets valid.plain, nameIn, there]
      rfl
    · cases got
  · rw [if_pos valid.spread] at got
    exact (mem_spread_buckets valid.spread).mpr ⟨id, l, got, rfl⟩

theorem start_sound (sound : p.Sound clusters) (ruled : ∀ cl ∈ clusters, legID cl)
    (named : t.Named clusters) (barred : t.BarrierNamed) (res : p.planMove t = .ok plan)
    (view : (firstView plan.base.legs plan.source).applyRoles (plan.roleStep t) = .ok nv) :
    SpreadValid clusters (plan.started t nv) ∧ HoldsOnly p t (plan.started t nv) := by
  have formed := sound.formed
  have plans := planMove_planned (spreadBase_ids formed) (spreadBase_tables formed) res
  obtain ⟨few, untiered, ratioOnly, target, legs⟩ := planMove_legs res
  have base := spreadBase_rest sound ruled plans.active untiered
  have form := plans.spreadForm formed (applyRoles_step (firstView_ramped _ _) view)
  have known : ∀ (id : String) (l : Leg), plan.base.legs[id]? = some l →
      Holdable clusters (l.cluster, l.bucket) ∧ ((l.cluster, l.bucket) ∈ p.buckets ∨
        t.name ≠ "" ∧ (l.cluster, l.bucket) = p.newBucket t) := by
    intro id l got
    rcases legs id l got with prev | ⟨onTarget, some_, source⟩
    · exact ⟨base.held id l prev, .inl (base_bucket sound prev)⟩
    · exact newLeg_held sound named onTarget target some_ source
  have ids : ∀ id ∈ plan.base.legs, legID id := by
    intro id mem
    have extends_ := plans.legs
    generalize plan.base.legs = post at extends_ mem
    cases extends_ with
    | known => exact base.named id mem
    | fresh gone wellNamed =>
      rcases mem_insert.mp mem with eq | prev
      · rw [← Std.compare_eq_iff_eq.mp eq]
        exact wellNamed
      · exact base.named id prev
  have rest : SpreadRest clusters plan.base := by
    rw [plans.base]
    exact ⟨ids, fun id l got => (known id l got).1, base.hash, base.split, base.ruled,
      base.untiered, base.unset⟩
  have atRest : RampValid (firstView plan.base.legs plan.source).state
      (firstView plan.base.legs plan.source).ramp := ⟨by simp [firstView], each_none⟩
  have ramped := firstView_ramped plan.base.legs plan.source
  refine ⟨?_, ?_⟩
  · have kept : SpreadRest clusters (plan.started t nv) := { rest with }
    refine kept.valid form few (fun m eq => ?_)
      (applyRoles_barrier (t := plan.roleStep t) (q := nv) ramped each_none barred view)
    cases eq
    exact moveOk_of_view (plans.ordered formed) rfl
      (applyRoles_ramp (t := plan.roleStep t) atRest named.ratio view)
      (applyRoles_evidence ramped (fun given => absurd rfl given) view)
      fun inScope =>
        applyRoles_byRatio (t := plan.roleStep t) ramped each_none (ratioOnly inScope) view
  · intro b mem
    obtain ⟨id, l, got, rfl⟩ := (mem_spread_buckets form.spread).mp mem
    exact (known id l got).2

theorem checkRepeat_ratio (ok : p.checkRepeat m t = .ok ()) (inScope : m.scope ≠ []) :
    t.prefixes = [] := by
  by_contra given
  unfold Placement.checkRepeat at ok
  dsimp only at ok
  rw [if_pos (show m.scope ≠ [] ∧ t.prefixes ≠ [] from ⟨inScope, given⟩)] at ok
  repeat' split at ok
  all_goals cases ok

structure ViewOk (nv : Placement) (scope : Key) : Prop where
  ramp : RampValid nv.state nv.ramp
  evidence : nv.cutover ≠ none → nv.state = .cutover
  plain : scope ≠ [] → byRatio nv.ramp
  barrier : BarrierOk nv.state nv.barrier

theorem stepMove_view (valid : SpreadValid clusters p) (moving : p.move = some m)
    (unit : ¬ t.ratio < 0 ∧ ¬ 1 < t.ratio) (barred : t.BarrierNamed)
    (repeats : p.checkRepeat m t = .ok ())
    (view : (p.moveView m).applyRoles t.forRoles = .ok nv) : ViewOk nv m.scope := by
  have form := valid.moving m moving
  have ok := valid.moves m moving
  have ramp : RampValid (p.moveView m).state (p.moveView m).ramp := limit_valid form.ordered ok.ramp
  refine ⟨applyRoles_ramp (t := t.forRoles) ramp unit view,
    applyRoles_evidence ramp.ramped ok.evidence view, ?_,
    applyRoles_barrier (t := t.forRoles) ramp.ramped valid.barrier barred view⟩
  intro inScope
  have ratioOnly := checkRepeat_ratio repeats inScope
  exact applyRoles_byRatio (t := t.forRoles) ramp.ramped
    (limit_byRatio (rampsByPrefix_iff.mp (ok.byRatio inScope))) ratioOnly view

theorem stepped_sound (valid : SpreadValid clusters p) (moving : p.move = some m)
    (ok : ViewOk nv m.scope) (still : nv.state ≠ .active) :
    SpreadValid clusters (p.stepped m nv) ∧ HoldsOnly p t (p.stepped m nv) := by
  have form := valid.toSpreadForm.stepped moving ok.ramp.ramped still
  refine ⟨?_, ?_⟩
  · have kept : SpreadRest clusters (p.stepped m nv) := { valid.resting with }
    refine kept.valid form valid.few (fun m' eq => ?_) ok.barrier
    cases eq
    exact moveOk_of_view (valid.moving m moving).ordered rfl ok.ramp ok.evidence ok.plain
  · intro b mem
    rw [mem_spread_buckets form.spread] at mem
    exact .inl ((mem_spread_buckets valid.spread).mpr mem)

theorem settledNames_found {names : StrMap String}
    {cl name : String} (got : (settledNames legs names)[cl]? = some name) :
    names[cl]? = some name ∨ ∃ e ∈ legs, e.2.cluster = cl ∧ e.2.bucket = name := by
  unfold settledNames at got
  induction legs generalizing names with
  | nil => exact .inl got
  | cons head rest ih =>
    rw [foldl_cons] at got
    rcases ih got with prev | ⟨e, mem, eq⟩
    · dsimp only at prev
      split at prev
      · exact .inl prev
      rw [Std.ExtTreeMap.getElem?_insert] at prev
      split at prev
      · rename_i eq
        cases prev
        exact .inr ⟨head, mem_cons_self, Std.compare_eq_iff_eq.mp eq, rfl⟩
      · exact .inl prev
    · exact .inr ⟨e, mem_cons_of_mem head mem, eq⟩

theorem settledNames_keeps {names : StrMap String} : (∀ cl ∈ names, cl ∈ settledNames legs names) ∧
      ∀ e ∈ legs, e.2.cluster ∈ settledNames legs names := by
  unfold settledNames
  induction legs generalizing names with
  | nil => exact ⟨fun cl mem => mem, nofun⟩
  | cons head rest ih =>
    have extended : (∀ cl ∈ names, cl ∈ if head.2.cluster ∈ names then names
          else names.insert head.2.cluster head.2.bucket) ∧
        head.2.cluster ∈ if head.2.cluster ∈ names then names
          else names.insert head.2.cluster head.2.bucket := by
      split
      · rename_i there
        exact ⟨fun cl mem => mem, there⟩
      · exact ⟨fun cl mem => mem_insert.mpr (.inr mem), mem_insert_self⟩
    rw [foldl_cons]
    refine ⟨fun cl mem => ih.1 cl (extended.1 cl mem), ?_⟩
    intro e mem
    rcases mem_cons.mp mem with eq | later
    · rw [eq]
      exact ih.1 _ extended.2
    · exact ih.2 e later

theorem settledTarget_leg {primary : String} (given : settledTarget legs primary "" ≠ "") :
    ∃ e ∈ legs, e.2.cluster = settledTarget legs primary "" := by
  unfold settledTarget at given ⊢
  rw [if_neg (not_not.mpr rfl)] at given ⊢
  cases got : legs.find? fun e => e.2.cluster ≠ primary with
  | none =>
    rw [got] at given
    exact absurd rfl given
  | some e => exact ⟨e, mem_of_find?_eq_some got, rfl⟩

theorem settle_sound (core : SpreadCore p) (rest : SpreadRest clusters p)
    (few : p.legs.size ≤ maxLegs) (active : p.state = .active) (resting : p.move = none)
    (barrier : BarrierOk p.state p.barrier) : p.settle.Sound clusters ∧
      ∀ b ∈ p.settle.buckets, ∃ (id : String) (l : Leg), p.legs[id]? = some l ∧
        (l.cluster, l.bucket) = b := by
  have formed := settle_formed core active resting
  rcases settle_shape core resting with ⟨eq, spread⟩ | ⟨o, alone, noRules, rests⟩
  · rw [eq] at formed ⊢
    refine ⟨.inr ?_, fun b => (mem_spread_buckets spread).mp⟩
    rcases formed with plain | form
    · rw [plain.plain] at spread
      cases spread
    exact rest.valid form few (fun m moving => by rw [resting] at moving; cases moving) barrier
  · have plain : (p.settledOn o).spread = false := by
      simp [Placement.spread, Placement.settledOn, resting, noRules]
    obtain ⟨l, got⟩ := exists_leg (core.tables.own.2 o (by rw [alone]; exact mem_cons_self))
    have owner := legIn_of_getElem? got
    have names : ∀ cl name : String, (p.settledOn o).names[cl]? = some name →
        ∃ (id : String) (l : Leg), p.legs[id]? = some l ∧ (l.cluster, l.bucket) = (cl, name) := by
      intro cl name held
      rcases settledNames_found held with first | ⟨e, mem, cluster, bucket⟩
      · rw [Std.ExtTreeMap.getElem?_insert] at first
        split at first
        · rename_i eq
          cases first
          rw [owner] at eq ⊢
          exact ⟨o.leg, l, got, by rw [Std.compare_eq_iff_eq.mp eq]⟩
        · rw [getElem?_empty] at first
          cases first
      · exact ⟨e.1, e.2, mem_toList_iff_getElem?_eq_some.mp mem,
          by rw [cluster, bucket]⟩
    have holds : ∀ cl name : String, (p.settledOn o).names[cl]? = some name →
        Holdable clusters (cl, name) := by
      intro cl name held
      obtain ⟨id, l, there, eq⟩ := names cl name held
      rw [← eq]
      exact rest.held id l there
    have primaryNamed : (p.settledOn o).primary ∈ (p.settledOn o).names :=
      settledNames_keeps.1 _ mem_insert_self
    have known : ∀ e ∈ p.legs.toList, e.2.cluster ∈ clusters ∧
        e.2.cluster ∈ (p.settledOn o).names := fun e mem =>
      ⟨(rest.held e.1 e.2 (mem_toList_iff_getElem?_eq_some.mp mem)).2.1,
        settledNames_keeps.2 e mem⟩
    have targetKnown : (p.settledOn o).target ≠ "" → (p.settledOn o).target ∈ clusters ∧
        (p.settledOn o).target ∈ (p.settledOn o).names := by
      intro given
      have shape : (p.settledOn o).target =
          settledTarget p.legs.toList (legIn p.legs o.leg).cluster "" := by
        rw [Placement.settledOn, core.target]
      rw [shape] at given ⊢
      obtain ⟨e, mem, eq⟩ := settledTarget_leg given
      rw [← eq]
      exact known e mem
    obtain ⟨noCold, noTier, noLifecycle⟩ := rest.untiered
    rw [rests] at formed ⊢
    refine ⟨.inl ?_, ?_⟩
    · exact
        { toPlainForm := formed.plainForm plain
          primaryKnown := by
            change (legIn p.legs o.leg).cluster ∈ clusters
            rw [owner]
            exact (rest.held o.leg l got).2.1
          sourceKnown := fun given => absurd core.source given
          targetKnown := targetKnown
          evidence := fun given => absurd rest.unset.2.2 given
          barrier := barrier
          ramp := by
            change RampValid p.state p.ramp
            rw [active, core.ramp]
            exact ⟨by simp, each_none⟩
          held := holds
          primaryNamed := primaryNamed
          sourceNamed := fun given => absurd core.source given
          coldNamed := fun given => absurd noCold given
          tier :=
            { mode := .inl noTier
              untiered := fun _ => ⟨noCold, noLifecycle⟩
              native := fun native => absurd (noTier.symm.trans native) (by decide)
              emulated := fun emulated => absurd (noTier.symm.trans emulated) (by decide) } }
    · rintro ⟨cl, name⟩ mem
      exact names cl name ((mem_plain_buckets plain).mp mem)

theorem reassign_full {o : Owner} {leg : String} : (reassign [o] fullRange leg).length ≤ 1 := by
  have low : ¬ o.lo < fullRange.lo := by simp [fullRange]
  have high : ¬ fullRange.hi < o.hi := by
    rw [UInt64.not_lt, UInt64.le_iff_toNat_le]
    exact Nat.le_of_lt_succ o.hi.toNat_lt
  have near : ¬ o.hi < fullRange.lo := by simp [fullRange]
  simp only [reassign, flatMap_cons, flatMap_nil, append_nil, cutOwner, near, low,
    high, false_or, if_false, nil_append]
  split
  · simp [addOwner]
  split
  · simp [addOwner]
  · simp

theorem ended_split (valid : SpreadValid clusters p) (moving : p.move = some m)
    (hashed : p.keyHash = "" → m.range = fullRange) :
    1 < (p.ended m nv).owners.length ∨ (p.ended m nv).prefixes ≠ [] → p.keyHash ≠ "" := by
  intro several noHash
  have prev : ¬ (1 < p.owners.length ∨ p.prefixes ≠ []) := fun split => valid.split split noHash
  push Not at prev
  obtain ⟨single, noRules⟩ := prev
  obtain ⟨table, got, o, mem, -⟩ := (valid.moving m moving).owned
  have all : m.scope = [] := by
    by_contra named
    simp [Placement.scopeTable, named, noRules] at got
  rw [all, Placement.scopeTable, if_pos rfl, Option.some.injEq] at got
  have ended : p.ended m nv =
      { p.rested nv with owners := reassign p.owners m.range m.dest } := by
    rw [Placement.ended, all, Placement.setScopeTable, if_pos rfl, Placement.scopeTable,
      if_pos rfl, getD_some]
  rw [ended, hashed noHash] at several
  obtain ⟨o, alone⟩ : ∃ o, p.owners = [o] := by
    rw [← length_eq_one_iff]
    have some_ := length_pos_of_mem mem
    rw [← got] at some_
    exact Nat.le_antisymm single some_
  rcases several with split | ruled
  · rw [alone] at split
    exact absurd reassign_full (not_le.mpr split)
  · exact ruled noRules

theorem ended_rest (valid : SpreadValid clusters p) (moving : p.move = some m)
    (hashed : p.keyHash = "" → m.range = fullRange) :
    SpreadRest clusters { p.ended m nv with legs := p.endedLegs m nv } := by
  have split : 1 < (p.ended m nv).owners.length ∨ (p.ended m nv).prefixes ≠ [] →
      p.keyHash ≠ "" := ended_split valid moving hashed
  have fewer : ∀ (id : String) (l : Leg), (p.endedLegs m nv)[id]? = some l →
      p.legs[id]? = some l := by
    intro id l got
    unfold Placement.endedLegs at got
    split at got
    · exact got
    rw [getElem?_erase] at got
    split at got
    · cases got
    · exact got
  have pres : (p.ended m nv).prefixes.map PrefixRule.pre = p.prefixes.map PrefixRule.pre := by
    unfold Placement.ended Placement.setScopeTable
    split
    · rfl
    simp only [List.map_map]
    refine map_congr_left fun rule _ => ?_
    simp only [Function.comp_apply]
    split
    · rfl
    · rfl
  have frame : p.ended m nv = { p.rested nv with
      owners := (p.ended m nv).owners, prefixes := (p.ended m nv).prefixes } :=
    setScopeTable_frame _ _ _
  generalize p.ended m nv = ended at frame split pres
  rw [frame]
  exact
    { named := by
        intro id mem
        obtain ⟨l, got⟩ := exists_leg mem
        exact valid.named id (isSome_getElem?_iff_mem.mp (by
          rw [fewer id l got]
          rfl))
      held := fun id l got => valid.held id l (fewer id l got)
      hash := valid.hash
      split := split
      ruled := by
        change RulesOk (ended.prefixes.map PrefixRule.pre)
        rw [pres]
        exact valid.ruled
      untiered := valid.untiered
      unset := valid.unset }

theorem endedLegs_few (few : p.legs.size ≤ maxLegs) : (p.endedLegs m nv).size ≤ maxLegs := by
  unfold Placement.endedLegs
  split
  · exact few
  · exact le_trans size_erase_le few

theorem endMove_sound (valid : SpreadValid clusters p) (moving : p.move = some m)
    (hashed : p.keyHash = "" → m.range = fullRange) (barrier : BarrierOk .active nv.barrier) :
    (p.endMove m nv).Sound clusters ∧ HoldsOnly p t (p.endMove m nv) := by
  have core := ended_core nv valid.toSpreadForm moving
  have rest : SpreadRest clusters { p.ended m nv with legs := p.endedLegs m nv } :=
    ended_rest valid moving hashed
  have state : (p.ended m nv).state = .active := setScopeTable_state _ _ _
  have still : (p.ended m nv).move = none := setScopeTable_move _ _ _
  have barred : (p.ended m nv).barrier = nv.barrier := by
    rw [Placement.ended, setScopeTable_frame]
    rfl
  obtain ⟨sound, buckets⟩ := settle_sound core rest (endedLegs_few valid.few) state still
    (by simp only [state, barred]; exact barrier)
  rw [endMove_eq]
  refine ⟨sound, fun b mem => .inl ?_⟩
  obtain ⟨id, l, got, eq⟩ := buckets b mem
  refine (mem_spread_buckets valid.spread).mpr ⟨id, l, ?_, eq⟩
  simp only [Placement.endedLegs] at got
  split at got
  · exact got
  rw [getElem?_erase] at got
  split at got
  · cases got
  · exact got

theorem rested_sound (valid : SpreadValid clusters p) (barrier : BarrierOk .active nv.barrier) :
    (p.rested nv).settle.Sound clusters ∧ HoldsOnly p t (p.rested nv).settle := by
  have rest : SpreadRest clusters (p.rested nv) :=
    ⟨valid.named, valid.held, valid.hash, valid.split, valid.ruled, valid.untiered, valid.unset⟩
  obtain ⟨sound, buckets⟩ := settle_sound (valid.toSpreadCore.rested nv) rest valid.few rfl rfl
    barrier
  exact ⟨sound, fun b mem => .inl ((mem_spread_buckets valid.spread).mpr (buckets b mem))⟩

theorem apply_sound {q : Placement} (sound : p.Sound clusters)
    (ruled : ∀ cl ∈ clusters, legID cl) (named : t.Named clusters)
    (barred : t.BarrierNamed) (fits : TierFits clusters p (p.nextPrimary t))
    (hashed : p.HashedEnd) (res : p.apply t = .ok q) : q.Sound clusters ∧ HoldsOnly p t q := by
  obtain ⟨u, solved, ran⟩ := apply_ran res
  have frame := resolve_frame solved
  have namedU : u.Named clusters := by
    rw [frame]
    exact ⟨named.target, named.name, named.ratio⟩
  have barredU : u.BarrierNamed := by
    rw [frame]
    exact barred
  have sameNext : p.nextPrimary u = p.nextPrimary t := by
    rw [frame]
    rfl
  have sameHolds : HoldsOnly p u q → HoldsOnly p t q := by
    rw [frame]
    exact id
  have spreading : ∀ {m : Move}, p.move = some m → SpreadValid clusters p := by
    intro m moving
    rcases sound with plain | valid
    · rw [plain.noMove] at moving
      cases moving
    · exact valid
  cases ran with
  | roles plain view =>
    rcases sound with valid | spread
    · rw [← sameNext] at fits
      obtain ⟨next, buckets⟩ := plain_sound valid namedU barredU fits view
      exact ⟨.inl next, sameHolds buckets⟩
    · rw [spread.spread] at plain
      cases plain
  | starts plans view =>
    obtain ⟨next, buckets⟩ := start_sound sound ruled namedU barredU plans view
    exact ⟨.inr next, sameHolds buckets⟩
  | steps moving repeats view still =>
    have ok := stepMove_view (spreading moving) moving namedU.ratio barredU repeats view
    obtain ⟨next, buckets⟩ := stepped_sound (t := u) (spreading moving) moving ok still
    exact ⟨.inr next, sameHolds buckets⟩
  | unwinds moving repeats view active =>
    have ok := stepMove_view (spreading moving) moving namedU.ratio barredU repeats view
    obtain ⟨next, buckets⟩ := rested_sound (t := u) (spreading moving) (active ▸ ok.barrier)
    exact ⟨next, sameHolds buckets⟩
  | @ends m nv moving repeats view active inForce =>
    have valid := spreading moving
    have ok := stepMove_view valid moving namedU.ratio barredU repeats view
    have ramped := moveView_ramped (valid.moving m moving).ramped
    have shift := (applyRoles_step ramped view).shift
    rw [active] at shift
    have cutover : p.state = .cutover := by
      rcases shift.toActive with ⟨-, cutover⟩ | ⟨freed, -⟩
      · exact cutover
      have releases : u.release := (Transition.kind_eq_release _).mp freed
      rw [inForce] at releases
      cases releases
    obtain ⟨next, buckets⟩ :=
      endMove_sound (t := u) valid moving (hashed m moving cutover) (active ▸ ok.barrier)
    exact ⟨next, sameHolds buckets⟩

end

end Shunt.Directory
