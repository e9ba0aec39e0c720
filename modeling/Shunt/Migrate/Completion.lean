/-
A held step completes to the step itself, and exactly when: the completion keeps
the step's share, which a placement that has left ACTIVE may refuse.
-/

import Shunt.Directory.Completion
import Shunt.Migrate.Order

namespace Shunt.Migrate

open Directory

variable {hash : Key → Hash} {p q c d h np : Placement} {t : Transition} {op : String}
variable {t₁ : Transition} {plan : MovePlan}

theorem hasAnyPrefix_alike {few many : List Key} (alike : ∀ pre, pre ∈ few ↔ pre ∈ many)
    (key : Key) : hasAnyPrefix key few = hasAnyPrefix key many := by
  refine Bool.eq_iff_iff.mpr ?_
  simp only [hasAnyPrefix, List.any_eq_true, alike]

theorem inRange_alike (hash : Key → Hash) {a b : Option Ramp} (alike : RampAlike a b) (key : Key) :
    inRange hash a key = inRange hash b key ∧ inHold hash a key = inHold hash b key := by
  match a, b, alike with
  | none, none, _ => exact ⟨rfl, rfl⟩
  | some a, some b, ⟨hashed, ratio, range, prefixes, unheld, unheld'⟩ =>
    have named := hasAnyPrefix_alike prefixes key
    refine ⟨?_, by simp only [inHold, unheld, unheld']⟩
    simp only [inRange, inRangeOf, hashed, ratio, range, named]

theorem limit_alike {a b : Option Ramp} (alike : RampAlike a b) (rg : HashRange) :
    RampAlike (rg.limit a) (rg.limit b) := by
  match a, b, alike with
  | none, none, _ => trivial
  | some a, some b, ⟨hashed, ratio, range, prefixes, unheld, unheld'⟩ =>
    exact ⟨hashed, ratio, rfl, prefixes, unheld, unheld'⟩

theorem decideRoute_alike (source : p.source = q.source) (state : p.state = q.state)
    (alike : RampAlike p.ramp q.ramp) (cls : OpClass) (key : Key) :
    decideRoute hash p cls key = decideRoute hash q cls key := by
  obtain ⟨isIn, held⟩ := inRange_alike hash alike key
  simp only [decideRoute, outOfRamp, source, state, isIn, held]

theorem dispatch_plain (plain : p.spread = false) (plain' : q.spread = false)
    (roles : p.source = q.source ∧ p.primary = q.primary ∧ p.names = q.names ∧
      p.legClusters = q.legClusters)
    (state : p.state = q.state) (alike : RampAlike p.ramp q.ramp) (cls : OpClass) (key : Key) :
    dispatch hash p cls key = dispatch hash q cls key := by
  obtain ⟨source, primary, names, clusters⟩ := roles
  have ends : ∀ side, endpoint p side = endpoint q side := by
    intro side
    cases side <;> simp only [endpoint, Placement.clusterOf, source, primary, names, clusters]
  simp only [dispatch, routedBy_plain plain, routedBy_plain plain',
    decideRoute_alike source state alike, ends]

/-- Two placements with the same legs and tables, and moves of the same keys between
the same legs by ramps that split alike. -/
structure MovesAlike (p q : Placement) (m n : Move) : Prop where
  moving : p.move = some m
  moving' : q.move = some n
  state : p.state = q.state
  hash : p.keyHash = q.keyHash
  legs : p.legs = q.legs
  tables : p.owners = q.owners ∧ p.prefixes = q.prefixes
  keys : m.scope = n.scope ∧ m.range = n.range
  ends : m.source = n.source ∧ m.dest = n.dest
  ramps : RampAlike m.ramp n.ramp

theorem dispatch_move {m n : Move} (alike : MovesAlike p q m n) (cls : OpClass) (key : Key) :
    dispatch hash p cls key = dispatch hash q cls key := by
  obtain ⟨moving, moving', state, hashed, legs, ⟨owners, prefixes⟩, ⟨scope, range⟩, ⟨source, dest⟩,
    ramps⟩ := alike
  have spread : p.spread := by simp [Placement.spread, moving]
  have spread' : q.spread := by simp [Placement.spread, moving']
  have sameScope : p.scope key = q.scope key := by
    simp only [Placement.scope, Placement.ruleOf, owners, prefixes]
  have sameMove : inMove hash p key = inMove hash q key := by
    simp only [inMove, moving, moving', range, scope, sameScope]
  have sameOwner : ownerOf hash p key = ownerOf hash q key := by
    simp only [ownerOf, hashed, sameScope]
  have onOwner : ∀ id, decideRoute hash (onLeg p id) cls key =
      decideRoute hash (onLeg q id) cls key := by
    intro id
    simp [decideRoute, onLeg]
  have views : RampAlike (p.moveView m).ramp (q.moveView n).ramp := by
    simp only [Placement.moveView, range]
    exact limit_alike ramps n.range
  have onView : decideRoute hash (p.moveView m) cls key =
      decideRoute hash (q.moveView n) cls key :=
    decideRoute_alike (p := p.moveView m) (q := q.moveView n) source state views cls key
  have ownerEnds : ∀ id side, endpoint (onLeg p id) side = endpoint (onLeg q id) side := by
    intro id side
    cases side <;> simp only [endpoint, Placement.clusterOf, onLeg, legs]
  have viewEnds : ∀ side, endpoint (p.moveView m) side = endpoint (q.moveView n) side := by
    intro side
    cases side <;>
      simp only [endpoint, Placement.clusterOf, Placement.moveView, roleMap, source, dest, legs]
  unfold dispatch routedBy narrow narrowToOwner
  rw [if_pos spread, if_pos spread']
  simp only [moving, moving', hashed, sameMove, sameOwner]
  by_cases has : q.keyHash = rampHash
  · simp only [has, ne_eq, not_true_eq_false, if_false]
    cases inMove hash q key with
    | true => simp only [if_true, onView, viewEnds]
    | false =>
      cases ownerOf hash q key with
      | error => rfl
      | ok => simp only [Bool.false_eq_true, if_false, onOwner, ownerEnds]
  · simp only [ne_eq, has, not_false_eq_true, if_true]

/-- The completion of a step succeeds on its hold, and routes every request as the
step itself. -/
def CompletesAs (h : Placement) (t : Transition) (d : Placement) : Prop :=
  ∃ c, h.apply t.completion = .ok c ∧ c.held = false ∧ c.barrier = none ∧
    ∀ (hash : Key → Hash) (cls : OpClass) (key : Key),
      dispatch hash c cls key = dispatch hash d cls key

/-- Where a completion is refused: the first step gives a ratio below zero, or a
share of a plain bucket that it did not move by.  A share of every key, to another
cluster, is a migration; and another bucket on the cluster is a move of every key,
whatever the share. -/
def CompletionRefused (p : Placement) (t : Transition) : Prop :=
  p.state = .active ∧
    (t.toState = some .ramping ∧ t.ratio < 0 ∨
      p.spread = false ∧ t.share ≠ 0 ∧
        (t.target ≠ p.primary ∧ leadingShare fullRange t.share = fullRange ∨
          OtherBucket p t ∧ leadingShare fullRange t.share ≠ fullRange))

theorem plain_completes (form : PlainForm p) (own : t.barrier = "" ∨ t.barrier = op)
    (step : t.hold = false) (inForce : t.release = false) (solved : p.resolve t = .ok t₁)
    (holds : HoldsStep p t₁ op d h np) : CompletesAs h t d ↔
      t.share = 0 ∧ ¬ (p.state = .active ∧ t.toState = some .ramping ∧ t.ratio < 0) := by
  have frame := resolve_frame solved
  obtain ⟨target, name, stepped⟩ := holds.stepped
  obtain ⟨spread, noMove, roles⟩ := stepped.plainFrame
  rw [form.plain] at spread
  rw [form.noMove] at noMove
  obtain ⟨barrier, shape, eq⟩ := holds.held
  have plain : h.spread = false := by
    rw [shape]
    exact spread
  have ramping : h.state = .ramping := by rw [shape]
  have asks : t.completion.ratio = t₁.ratio ∧ t.completion.prefixes = t₁.prefixes ∧
      t.completion.cutover = t₁.cutover := by
    rw [frame]
    exact ⟨rfl, rfl, rfl⟩
  have goal : t.toState = some np.state := by
    have state := holds.state
    rw [frame] at state
    exact state
  have completable : Completable p h np t.completion p.rampInForce.range :=
    { step := step
      inForce := inForce
      completes := rfl
      named := goal
      unnamed := ⟨rfl, rfl⟩
      barrier := carries_own own eq (by rw [shape])
      noMove := by rw [shape]; exact noMove
      state := ramping
      ramp := by rw [shape] }
  have byRoles : t.share = 0 → h.apply t.completion = h.applyRoles t.completion := fun share =>
    apply_plain plain (by exact share) rfl rfl rfl rfl
  constructor
  · rintro ⟨c, res, -⟩
    have share : t.share = 0 := by
      by_contra given
      obtain ⟨e, fails⟩ := resolveShare_refuses plain (by rw [ramping]; simp) given
      rw [fails] at res
      cases res
    refine ⟨share, ?_⟩
    rintro ⟨active, goes, below⟩
    rw [byRoles share] at res
    obtain ⟨e, fails⟩ := completable.refuses holds asks active
      (Option.some.inj (goal.symm.trans goes)) (asks.1 ▸ below)
    rw [fails] at res
    cases res
  · rintro ⟨share, forward⟩
    obtain ⟨ramp, res, alike⟩ := completable.completes_to form.ramped holds asks fun active
      goes => by
      rw [← asks.1]
      exact fun below => forward ⟨active, goes ▸ goal, below⟩
    refine ⟨_, (byRoles share).trans res, ?_, rfl, ?_⟩
    · simp only [Placement.held, completable.noMove]
      exact alike.unheld
    intro hash cls key
    rw [holds.direct]
    refine dispatch_plain (by exact plain) (by exact spread) ?_ (by exact rfl) (by exact alike) cls
      key
    rw [shape]
    exact ⟨rfl, rfl, rfl, rfl⟩

/-- A held step of a move beside the step itself: the same move, at the step the
hold records. -/
structure HeldMove (v : Placement) (t : Transition) (op : String) (d h np : Placement)
    (m n : Move) : Prop where
  moving : h.move = some m
  moving' : d.move = some n
  ramping : h.state = .ramping
  state : np.state = d.state
  hash : h.keyHash = d.keyHash
  legs : h.legs = d.legs
  tables : h.owners = d.owners ∧ h.prefixes = d.prefixes
  keys : m.scope = n.scope ∧ m.range = n.range
  ends : m.source = n.source ∧ m.dest = n.dest
  ramp : m.ramp = m.range.limit (some { v.rampInForce with hold := some (heldKeys np) })
  ramp' : n.ramp = m.range.limit np.ramp
  barrier : h.barrier = if op ≠ "" then some ⟨op, .mutations⟩ else none
  byRatio : m.scope = [] ∨ t.prefixes = []
  share : t.share = 0 ∨ ¬ (t.share < 0 ∨ 1 < t.share)

theorem HeldMove.apply {v : Placement} {m n : Move} (held : HeldMove v t op d h np m n) :
    h.apply t.completion = h.stepMove m t.completion := by
  have spread : h.spread := by simp [Placement.spread, held.moving]
  have solved : h.resolve t.completion = .ok t.completion := by
    have share : h.resolveShare t.completion = .ok t.completion := by
      have isIn : t.completion.share = 0 ∨ ¬ (t.completion.share < 0 ∨ 1 < t.completion.share) :=
        held.share
      have unnamed : ¬ t.completion.range ≠ none := by simp [Transition.completion]
      unfold Placement.resolveShare
      split
      · rfl
      · rename_i given
        simp only [if_neg (isIn.resolve_left given)]
    simp [Placement.resolve, share, Placement.resolveRange, Placement.resolveLeg, spread]
  simp only [Placement.apply, solved, spread, true_or, if_true, Placement.applyMove, held.moving]

theorem HeldMove.repeats {v : Placement} {m n : Move} (held : HeldMove v t op d h np m n) :
    (t.share ≠ 0 → h.sameShare m t.share = true) ↔ h.checkRepeat m t.completion = .ok () := by
  have byRatio : ¬ (m.scope ≠ [] ∧ t.prefixes ≠ []) := by
    rcases held.byRatio with none | none <;> simp [none]
  constructor
  · intro eq
    have shared : ¬ (t.share ≠ 0 ∧ h.sameShare m t.share = false) := by
      rintro ⟨given, other⟩
      rw [eq given] at other
      cases other
    simp [Placement.checkRepeat, Transition.completion, if_neg shared, if_neg byRatio]
  intro ok given
  by_contra other
  have fails : t.share ≠ 0 ∧ h.sameShare m t.share = false := ⟨given, by simpa using other⟩
  simp [Placement.checkRepeat, Transition.completion, if_pos fails, Placement.fail] at ok

theorem HeldMove.completes {v nd nh : Placement} {tv : Transition} {m n : Move}
    (ramped : Ramped v.state v.ramp) (holds : HoldsStep v tv op nd nh np)
    (held : HeldMove v t op d h np m n)
    (asks : tv.toState = t.toState ∧ t.ratio = tv.ratio ∧ t.prefixes = tv.prefixes ∧
      t.cutover = tv.cutover)
    (own : t.barrier = "" ∨ t.barrier = op) (step : t.hold = false) (inForce : t.release = false) :
    CompletesAs h t d ↔ (t.share ≠ 0 → h.sameShare m t.share = true) ∧
      ¬ (v.state = .active ∧ t.toState = some .ramping ∧ t.ratio < 0) := by
  obtain ⟨sameState, asks⟩ := asks
  have goal : t.toState = some np.state := sameState ▸ holds.state
  have completable : Completable v (h.moveView m) np t.completion.forRoles (some m.range) :=
    { step := step
      inForce := inForce
      completes := rfl
      named := goal
      unnamed := ⟨rfl, rfl⟩
      barrier := carries_own own held.barrier (by exact rfl)
      noMove := rfl
      state := held.ramping
      ramp := by
        change m.range.limit m.ramp = _
        rw [held.ramp]
        rfl }
  rw [held.repeats]
  constructor
  · rintro ⟨c, res, -⟩
    rw [held.apply] at res
    unfold Placement.stepMove at res
    cases ok : h.checkRepeat m t.completion with
    | error => simp [ok] at res
    | ok =>
      refine ⟨rfl, ?_⟩
      rintro ⟨active, goes, below⟩
      obtain ⟨e, fails⟩ := completable.refuses holds asks active
        (Option.some.inj (goal.symm.trans goes)) (asks.1 ▸ below)
      simp [ok, fails] at res
  · rintro ⟨ok, forward⟩
    obtain ⟨ramp, res, alike⟩ := completable.completes_to ramped holds asks fun active goes => by
      rw [← asks.1]
      exact fun below => forward ⟨active, goes ▸ goal, below⟩
    have away : np.state ≠ .active := by
      rcases holds.holdable with eq | eq <;> rw [eq] <;> simp
    have moves : MovesAlike
        (h.stepped m { h.moveView m with state := np.state, barrier := none, ramp := ramp }) d
        { m with ramp := m.range.limit ramp, cutover := m.cutover } n :=
      { moving := rfl
        moving' := held.moving'
        state := held.state
        hash := held.hash
        legs := held.legs
        tables := held.tables
        keys := held.keys
        ends := held.ends
        ramps := by
          rw [held.ramp']
          exact limit_alike alike m.range }
    refine ⟨_, ?_, ?_, ?_, fun hash cls key => dispatch_move moves cls key⟩
    · rw [held.apply]
      simp [Placement.stepMove, ok, res, away]
    · exact (limit_alike alike m.range).unheld
    · rfl

theorem step_completes {m : Move} (form : SpreadForm p) (moving : p.move = some m)
    (unheld : p.held = false) (own : t.barrier = "" ∨ t.barrier = op) (step : t.hold = false)
    (inForce : t.release = false) (wanted : t.toState = some .ramping ∨ t.toState = some .migrating)
    (isIn : t.share = 0 ∨ ¬ (t.share < 0 ∨ 1 < t.share))
    (direct : p.stepMove m t = .ok d) (hold : p.stepMove m (t.heldBy op) = .ok h) :
    CompletesAs h t d := by
  have repeats : p.checkRepeat m (t.heldBy op) = p.checkRepeat m t := rfl
  have freed : (t.heldBy op).release = false := inForce
  unfold Placement.stepMove at direct hold
  rw [repeats] at hold
  cases ok : p.checkRepeat m t with
  | error => simp [ok] at direct
  | ok =>
    simp only [ok] at direct hold
    have ramped := moveView_ramped (form.moving m moving).ramped
    have unheldView : heldRamp (p.moveView m).ramp = false := by
      change heldRamp (m.range.limit m.ramp) = false
      rw [Placement.held, moving] at unheld
      rw [limit_eq_relimit, heldRamp_relimit]
      exact unheld
    cases directView : (p.moveView m).applyRoles t.forRoles with
    | error => simp [directView] at direct
    | ok nd =>
      have sameRoles : (t.heldBy op).forRoles = t.forRoles.heldBy op := rfl
      rw [sameRoles] at hold
      cases holdView : (p.moveView m).applyRoles (t.forRoles.heldBy op) with
      | error => simp [holdView] at hold
      | ok nh =>
        obtain ⟨np, holds⟩ := holdsStep_of_ok ramped unheldView (by exact step)
          (by exact inForce) (by exact wanted) directView holdView
        obtain ⟨barrier, shape, eq⟩ := holds.held
        have away : nd.state ≠ .active := by
          rw [holds.direct]
          rcases holds.holdable with eq | eq <;> simp [eq]
        have still : nh.state ≠ .active := by
          rw [shape]
          simp
        simp only [directView, if_neg away, Except.ok.injEq] at direct
        simp only [holdView, if_neg still, Except.ok.injEq] at hold
        subst direct hold
        have held : HeldMove (p.moveView m) t op (p.stepped m nd) (p.stepped m nh) np
            { m with ramp := m.range.limit nh.ramp, cutover := nh.cutover }
            { m with ramp := m.range.limit nd.ramp, cutover := nd.cutover } :=
          { moving := rfl
            moving' := rfl
            ramping := by rw [shape]; rfl
            state := by rw [holds.direct]; rfl
            hash := rfl
            legs := rfl
            tables := ⟨rfl, rfl⟩
            keys := ⟨rfl, rfl⟩
            ends := ⟨rfl, rfl⟩
            ramp := by rw [shape]
            ramp' := by rw [holds.direct]
            barrier := by
              rw [← eq]
              change nh.barrier = barrier
              rw [shape]
            byRatio := (checkRepeat_ok ok).2
            share := isIn }
        refine (held.completes ramped holds ⟨rfl, rfl, rfl, rfl⟩ own step inForce).mpr
          ⟨(checkRepeat_ok ok).1, fun leaves => ?_⟩
        rw [form.rest.mp leaves.1] at moving
        cases moving

theorem start_completes {nd nh : Placement}
    (own : t.barrier = "" ∨ t.barrier = op) (step : t.hold = false) (inForce : t.release = false)
    (wanted : t.toState = some .ramping ∨ t.toState = some .migrating)
    (solved : p.resolve t = .ok t₁) (plans : p.planMove t₁ = .ok plan)
    (direct : (firstView plan.base.legs plan.source).applyRoles (plan.roleStep t₁) = .ok nd)
    (hold : (firstView plan.base.legs plan.source).applyRoles ((plan.roleStep t₁).heldBy op) =
      .ok nh) : CompletesAs (plan.started t₁ nh) t (plan.started t₁ nd) ↔
      (t.share ≠ 0 → (plan.started t₁ nh).sameShare (plan.move t₁ nh) t.share = true) ∧
        ¬ (t.toState = some .ramping ∧ t.ratio < 0) := by
  have frame := resolve_frame solved
  have state : t₁.toState = t.toState := by rw [frame]
  have asks : t.ratio = t₁.ratio ∧ t.prefixes = t₁.prefixes ∧ t.cutover = t₁.cutover := by
    rw [frame]
    exact ⟨rfl, rfl, rfl⟩
  have flags : t₁.hold = false ∧ t₁.release = false := by
    rw [frame]
    exact ⟨step, inForce⟩
  have ramped := firstView_ramped plan.base.legs plan.source
  obtain ⟨np, holds⟩ := holdsStep_of_ok ramped rfl (by exact flags.1) (by exact flags.2)
    (by rw [← state] at wanted; exact wanted) direct hold
  obtain ⟨barrier, shape, eq⟩ := holds.held
  have held : HeldMove (firstView plan.base.legs plan.source) t op (plan.started t₁ nd)
      (plan.started t₁ nh) np (plan.move t₁ nh) (plan.move t₁ nd) :=
    { moving := rfl
      moving' := rfl
      ramping := by rw [shape]; rfl
      state := by rw [holds.direct]; rfl
      hash := rfl
      legs := rfl
      tables := ⟨rfl, rfl⟩
      keys := ⟨rfl, rfl⟩
      ends := ⟨rfl, rfl⟩
      ramp := by rw [shape]; rfl
      ramp' := by rw [holds.direct]; rfl
      barrier := by
        rw [← eq]
        change nh.barrier = barrier
        rw [shape]
      byRatio := by
        rw [asks.2.1]
        exact planMove_byRatio plans
      share := resolve_inside solved }
  rw [held.completes ramped holds ⟨state, asks⟩ own step inForce]
  simp [firstView]

theorem start_sameShare_spread {nh : Placement} (formed : Formed p)
    (solved : p.resolve t = .ok t) (plans : Planned p t plan)
    (given : t.share ≠ 0) : (plan.started t nh).sameShare (plan.move t nh) t.share = true := by
  obtain ⟨table, whole, got, names, range, o, mem, source, holds⟩ := plans.range
  have tiled := (scopeTable_over (spreadBase_tables formed) got).1
  have sameTable : (plan.started t nh).scopeTable (plan.move t nh).scope = some table := by
    change plan.base.scopeTable t.scope = some table
    rw [plans.base, ← got]
    rfl
  have ordered := plans.ordered formed
  have starts : plan.range.lo = whole.lo := by
    rw [range]
    exact (shareOf_inside t (names.ordered tiled)).1
  rw [sameShare_iff tiled sameTable mem source holds ordered,
    ← names.entry tiled (resolve_share_unranged given solved) mem holds ordered starts,
    leadingShare_of_shareOf given ((resolve_inside solved).resolve_left given)]
  exact range.symm

theorem start_sameShare_plain {nh : Placement} (form : PlainForm p) (plans : Planned p t₁ plan)
    (unshared : t₁.share = 0) {rg : HashRange} (ranged : t₁.range = some rg) (share : ℚ) :
    (plan.started t₁ nh).sameShare (plan.move t₁ nh) share ↔ leadingShare fullRange share = rg := by
  have formed : Formed p := .inl form
  obtain ⟨table, whole, got, names, range, o, mem, source, holds⟩ := plans.range
  have tiled := (scopeTable_over (spreadBase_tables formed) got).1
  have sameTable : (plan.started t₁ nh).scopeTable (plan.move t₁ nh).scope = some table := by
    change plan.base.scopeTable t₁.scope = some table
    rw [plans.base, ← got]
    rfl
  have entry : o = ⟨fullRange.lo, fullRange.hi, p.primary⟩ := by
    rw [(plans.plainTable form).2.2] at got
    cases got
    exact List.mem_singleton.mp mem
  have moved : (plan.move t₁ nh).range = rg := by
    change plan.range = rg
    rw [plans.plainRange form unshared, ranged, Option.getD_some]
  rw [sameShare_iff tiled sameTable mem source holds (plans.ordered formed), moved, entry]

theorem release_needs_hold (formed : Formed p) (unheld : p.held = false)
    (res : p.apply t = .ok q) : t.release = false := by
  by_contra freed
  obtain ⟨t₁, solved, step⟩ := apply_step formed res
  have kind : t₁.kind = .release :=
    (resolve_kind solved).trans (t.kind_eq_release.mpr (by simpa using freed))
  have held : ∀ {s s' : State} {ramp ramp' : Option Ramp}, Shift .release s ramp s' ramp' →
      heldRamp ramp = true := by
    intro s s' ramp ramp' shift
    cases shift with
    | releaseFirst held | release held => simp [heldRamp, held]
  have view : ∀ {m : Move} {nv : Placement}, p.move = some m →
      RoleStep (p.moveView m) t₁.forRoles nv → False := by
    intro m nv moving view
    have shift : Shift t₁.kind p.state (m.range.limit m.ramp) nv.state nv.ramp := view.shift
    have pending := held (kind ▸ shift)
    rw [limit_eq_relimit, heldRamp_relimit] at pending
    simp [Placement.held, moving, pending] at unheld
  cases step with
  | plain plain step =>
    have pending := held (kind ▸ step.shift)
    simp [Placement.held, (formed.plainForm plain).noMove, pending] at unheld
  | @start plan nv plans first =>
    have shift : Shift t₁.kind .active none nv.state nv.ramp := first.shift
    cases held (kind ▸ shift)
  | step moving first | unwind moving first | finish moving first =>
    exact view moving first

theorem start_repeats (nh : Placement) (formed : Formed p) (solved : p.resolve t = .ok t₁)
    (named : p.spread ∨ t₁.range ≠ none ∨ t₁.scope ≠ []) (plans : Planned p t₁ plan)
    (given : t.share ≠ 0) : (plan.started t₁ nh).sameShare (plan.move t₁ nh) t.share ↔
      ¬ (p.spread = false ∧ (t.target ≠ p.primary ∧ leadingShare fullRange t.share = fullRange ∨
          OtherBucket p t ∧ leadingShare fullRange t.share ≠ fullRange)) := by
  by_cases spread : p.spread
  · have eq := resolve_spread spread solved
    subst eq
    simp [start_sameShare_spread formed solved plans given, spread]
  have plain : p.spread = false := by simpa using spread
  have form := formed.plainForm plain
  obtain ⟨unshared, -, -, range_⟩ := resolve_plain plain plans.active solved
  have shared : t.shared = some (leadingShare fullRange t.share) := if_neg given
  have ranged : t₁.range ≠ none := by
    intro none
    have scope := (named.resolve_left spread).resolve_left (not_not.mpr none)
    obtain ⟨rule, listed, -⟩ := plans.inScope.resolve_left scope
    rw [(noRules plain).1] at listed
    cases listed
  obtain ⟨rg, at_⟩ := Option.ne_none_iff_exists'.mp ranged
  rw [start_sameShare_plain form plans unshared at_]
  rw [at_] at range_
  simp only [plain, true_and]
  generalize eq : some rg = range at range_
  cases range_ with
  | every other =>
    cases eq
    simp [other, other.2.1]
  | whole => cases eq
  | kept sameBucket part =>
    rw [shared] at eq part
    cases eq
    simp only [true_iff, not_or, not_and, ne_eq, not_not]
    exact ⟨fun away full => part ⟨congrArg some full, away⟩, fun other => absurd other sameBucket⟩

theorem start_completes_iff (formed : Formed p)
    (own : t.barrier = "" ∨ t.barrier = op) (step : t.hold = false) (inForce : t.release = false)
    (wanted : t.toState = some .ramping ∨ t.toState = some .migrating)
    (solved : p.resolve t = .ok t₁) (named : p.spread ∨ t₁.range ≠ none ∨ t₁.scope ≠ [])
    (direct : p.startMove t₁ = .ok d) (hold : p.startMove (t₁.heldBy op) = .ok h) :
    CompletesAs h t d ↔ ¬ CompletionRefused p t := by
  unfold Placement.startMove at direct hold
  rw [planMove_heldBy] at hold
  cases located : p.planMove t₁ with
  | error => simp [located] at direct
  | ok plan =>
    simp only [located] at direct hold
    have sameRoles : plan.roleStep (t₁.heldBy op) = (plan.roleStep t₁).heldBy op := rfl
    rw [sameRoles] at hold
    cases directView : (firstView plan.base.legs plan.source).applyRoles (plan.roleStep t₁) with
    | error => simp [directView] at direct
    | ok =>
      cases holdView : (firstView plan.base.legs plan.source).applyRoles
          ((plan.roleStep t₁).heldBy op) with
      | error => simp [holdView] at hold
      | ok nh =>
        simp only [directView, Except.ok.injEq] at direct
        simp only [holdView, Except.ok.injEq] at hold
        subst direct hold
        have plans := planMove_planned (spreadBase_ids formed) (spreadBase_tables formed) located
        have active := plans.active
        have sameStart : plan.started (t₁.heldBy op) nh = plan.started t₁ nh := rfl
        rw [sameStart, start_completes own step inForce wanted solved located directView holdView]
        unfold CompletionRefused
        by_cases given : t.share = 0
        · simp [given, active]
        rw [start_repeats nh formed solved named plans given]
        constructor
        · rintro ⟨repeats, forward⟩ ⟨-, below | ⟨plain, -, lost⟩⟩
          · exact forward below
          · exact repeats given ⟨plain, lost⟩
        intro completes
        exact ⟨fun _ lost => completes ⟨active, .inr ⟨lost.1, given, lost.2⟩⟩,
          fun below => completes ⟨active, .inl below⟩⟩

/-- A held step completes to the step itself, on every placement and for every step,
unless its completion repeats a share it did not move by or a ratio below zero. -/
theorem completesAs_iff (valid : p.Valid) (unheld : p.held = false) (step : t.hold = false)
    (wanted : t.toState = some .ramping ∨ t.toState = some .migrating)
    (own : t.barrier = "" ∨ t.barrier = op) (direct : p.apply t = .ok d)
    (hold : p.apply (t.heldBy op) = .ok h) : CompletesAs h t d ↔ ¬ CompletionRefused p t := by
  have formed := valid.formed
  have inForce := release_needs_hold formed unheld direct
  unfold Placement.apply at direct hold
  rw [resolve_heldBy] at hold
  cases solved : p.resolve t with
  | error => simp [solved] at direct
  | ok t₁ =>
    simp only [solved, Except.map] at direct hold
    have sameRange : (t₁.heldBy op).range = t₁.range := rfl
    have sameScope : (t₁.heldBy op).scope = t₁.scope := rfl
    rw [sameRange, sameScope] at hold
    split at direct
    · rename_i named
      rw [if_pos named] at hold
      unfold Placement.applyMove at direct hold
      cases moving : p.move with
      | none =>
        simp only [moving] at direct hold
        exact start_completes_iff formed own step inForce wanted solved named direct hold
      | some =>
        have form := formed.spreadForm moving
        have eq := resolve_spread form.spread solved
        subst eq
        simp only [moving] at direct hold
        have completes := step_completes form moving unheld own step inForce wanted
          (resolve_inside solved) direct hold
        refine iff_of_true completes fun fails => ?_
        rw [form.rest.mp fails.1] at moving
        cases moving
    · rename_i unnamed
      rw [if_neg unnamed] at hold
      push Not at unnamed
      have plain : p.spread = false := by simpa using unnamed.1
      have form := formed.plainForm plain
      have unheldRamp : heldRamp p.ramp = false := by
        simpa [Placement.held, form.noMove] using unheld
      have frame := resolve_frame solved
      have flags : t₁.hold = false ∧ t₁.release = false ∧ t₁.toState = t.toState := by
        rw [frame]
        exact ⟨step, inForce, rfl⟩
      obtain ⟨np, holds⟩ := holdsStep_of_ok form.ramped unheldRamp flags.1 flags.2.1
        (by rw [flags.2.2]; exact wanted) direct hold
      rw [plain_completes form own step inForce solved holds]
      unfold CompletionRefused
      by_cases given : t.share = 0
      · simp [given]
      have active := resolve_share_active plain given solved
      have range := (resolve_plain plain active solved).2.2.2
      have shared : t.shared = some (leadingShare fullRange t.share) := if_neg given
      rw [unnamed.2.1] at range
      generalize eq : (none : Option HashRange) = ranged at range
      cases range with
      | every => cases eq
      | whole away full =>
        rw [shared] at full
        simp [given, active, plain, away, Option.some.inj full]
      | kept =>
        rw [shared] at eq
        cases eq

def toWest : Transition :=
  { toState := some .migrating, target := "west", name := "acme-photos" }

def shareToWest : Transition := { toWest with share := 1 }

def photosHeld : Placement :=
  { photosMigrating with
    state := .ramping, barrier := some ⟨"op1", .mutations⟩
    ramp := some { hash := rampHash, hold := some { ratio := 1 } } }

/-- The step and its hold both succeed, and the completion is refused: the writes of
the bucket stay paused. -/
theorem shareToWest_not_completed :
    photos.Valid ∧ photos.held = false ∧ photos.apply shareToWest = .ok photosMigrating ∧
      photos.apply (shareToWest.heldBy "op1") = .ok photosHeld ∧
      writeTo (fun _ => 0) photosHeld [] = .ok none ∧
      photosHeld.apply shareToWest.completion = .error ⟨.ramping, some .migrating,
        "a share names part of a bucket to move, on the move's first step"⟩ ∧
      ¬ CompletesAs photosHeld shareToWest photosMigrating := by
  have fails : photosHeld.apply shareToWest.completion = .error ⟨.ramping, some .migrating,
      "a share names part of a bucket to move, on the move's first step"⟩ := by decide
  refine ⟨valid_of_directory rfl (by decide), rfl, by decide, by decide,
    by decide, fails, ?_⟩
  rintro ⟨c, res, -⟩
  rw [fails] at res
  cases res

theorem toWest_completes : CompletesAs photosHeld toWest photosMigrating := by
  have valid : photos.Valid := valid_of_directory rfl (by decide)
  have hold : photos.apply (toWest.heldBy "op1") = .ok photosHeld := by decide
  refine (completesAs_iff valid rfl rfl (Or.inr rfl) (Or.inl rfl) (by decide) hold).mpr ?_
  rintro ⟨-, ⟨no, -⟩ | ⟨-, unshared, -⟩⟩
  · cases no
  · exact unshared rfl

end Shunt.Migrate
