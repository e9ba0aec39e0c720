/-
Every transition moves every key as one step of its handover: said once, for
both forms of a placement and every kind of step.
-/

import Shunt.Migrate.Homes

namespace Shunt.Migrate

open Directory
open Library (Phase HandKind Hand HandStep)

variable {hash : Key → Hash} {p q : Placement} {t : Transition} {key : Key}
variable {ramp : Option Ramp} {nv : Placement}

def rampOf (p : Placement) : Option Ramp :=
  match p.move with
  | some m => m.ramp
  | none => p.ramp

/-- The ramp splits keys by the hash this build knows, and a plain placement's
covers the whole key space. -/
structure Clean (p : Placement) : Prop where
  known : KnownHash (rampOf p)
  whole : p.spread = false → ∀ r, p.ramp = some r → r.range = none

def stepKind (p : Placement) (t : Transition) : HandKind := handKind t.kind (rampOf p)

theorem shift_knownHash {kind : StepKind} {s s' : State} {ramp' : Option Ramp}
    (shift : Shift kind s ramp s' ramp') (known : KnownHash ramp) : KnownHash ramp' := by
  intro r eq
  cases shift with
  | leave | leaveHeld => cases eq; rfl
  | @grow old | @holdGrowth old | @holdWhole old | @release old => cases eq; exact known old rfl
  | leaveWhole | migrate | cutover | finish | releaseFirst => cases eq

theorem shift_wholeRange {kind : StepKind} {s s' : State} {ramp' : Option Ramp}
    (shift : Shift kind s ramp s' ramp') (whole : ∀ r, ramp = some r → r.range = none) :
    ∀ r, ramp' = some r → r.range = none := by
  intro r eq
  cases shift with
  | leave | leaveHeld | grow => cases eq; rfl
  | @holdGrowth old | @holdWhole old | @release old => cases eq; exact whole old rfl
  | leaveWhole | migrate | cutover | finish | releaseFirst => cases eq

theorem relimit_whole (whole : ∀ r, ramp = some r → r.range = none) : relimit none ramp = ramp := by
  cases ramp with
  | none => rfl
  | some r =>
    have eq := whole r rfl
    obtain ⟨hashed, ratio, prefixes, range, hold⟩ := r
    simp only at eq
    subst eq
    rfl

theorem leave_source {target name : String} {s : State} {barrier : Option Config.Barrier}
    (roles : p.legClusters = ∅) (away : target ≠ p.primary) :
    endpoint { p with
      state := s, source := p.primary, primary := target, target := ""
      names := p.names.insert target name, ramp := ramp, barrier := barrier } .source =
      endpoint p .primary := by
  rw [endpoint_plain roles, endpoint_plain (by exact roles)]
  simp [nameIn, Std.ExtTreeMap.getElem?_insert, away]

theorem finish_primary (roles : p.legClusters = ∅) (apart : p.source ≠ p.primary) :
    endpoint p.finish .primary = endpoint p .primary := by
  rw [endpoint_plain roles, endpoint_plain (by exact roles)]
  have kept : nameIn p.finish.names p.primary = nameIn p.names p.primary := by
    simp only [Placement.finish, nameIn]
    split
    · rw [Std.ExtTreeMap.getElem?_erase, if_neg (by simpa [Std.compare_eq_iff_eq] using apart)]
    · rfl
  simpa [Placement.finish] using kept

theorem roleStep_hand (form : PlainForm p) (clean : Clean p) (step : RoleStep p t q)
    (numbers : t.kind = .step → Numbered (rampOf p) ∧ Numbered (rampOf q)) :
    ∃ a b, handOf hash p key = .ok a ∧ handOf hash q key = .ok b ∧ HandStep (stepKind p t) a b := by
  have sameRamp : rampOf p = p.ramp := by rw [rampOf, form.noMove]
  have whole := clean.whole form.plain
  have known : KnownHash p.ramp := sameRamp ▸ clean.known
  have plainAfter := (step.plainForm form).plain
  have sameAfter : rampOf q = q.ramp := by rw [rampOf, (step.plainForm form).noMove]
  rw [sameRamp, sameAfter] at numbers
  have phases : ∀ {s : State} {ramp : Option Ramp}, Shift t.kind p.state p.ramp s ramp →
      (t.kind = .step → Numbered ramp) →
      ∃ prev post, phaseOf hash p.state p.ramp key = .ok prev ∧
        phaseOf hash s ramp key = .ok post ∧
        prev.steps (stepKind p t) post = true := by
    intro s ramp shift post
    have got : ∃ prev post, phaseOf hash p.state (relimit none p.ramp) key = .ok prev ∧
        phaseOf hash s (relimit none ramp) key = .ok post ∧
        prev.steps (handKind t.kind p.ramp) post = true :=
      shift_phases shift known (fun step => ⟨(numbers step).1, post step⟩) rfl
    rw [relimit_whole whole, relimit_whole (shift_wholeRange shift whole)] at got
    rw [stepKind, sameRamp]
    exact got
  rw [handOf_plain form.plain, handOf_plain plainAfter]
  cases step with
  | leave active shift named =>
    obtain ⟨prev, post, atBefore, atAfter, steps⟩ := phases shift fun step => (numbers step).2
    have rests : prev = .rest := by
      rw [active] at atBefore
      exact (Except.ok.inj atBefore).symm
    have moves := phaseOf_ne_rest (active ▸ shift).leaves atAfter
    refine ⟨_, _, by rw [atBefore]; rfl, by rw [atAfter]; rfl, steps, ?_, ?_⟩
    · simp only [handIn, rests, moves, reduceCtorEq, false_and, if_false, if_true]
      exact leave_source form.roles named.2.2
    · intro started
      exact absurd rests started
  | within moves still shift =>
    obtain ⟨prev, post, atBefore, atAfter, steps⟩ := phases shift fun step => (numbers step).2
    have movedBefore := phaseOf_ne_rest moves atBefore
    have movedAfter := phaseOf_ne_rest still atAfter
    refine ⟨_, _, by rw [atBefore]; rfl, by rw [atAfter]; rfl, steps, ?_, ?_⟩
    · simp only [handIn, movedBefore, movedAfter, and_false, if_false]
      rfl
    · intro _ _
      rfl
  | unwind shift freed =>
    obtain ⟨prev, post, atBefore, atAfter, steps⟩ := phases shift fun _ => numbered_none
    have rests : post = .rest := (Except.ok.inj atAfter).symm
    have movedBefore := phaseOf_ne_rest shift.returns atBefore
    have early : prev ≠ .cut := by
      intro cut
      have kind : stepKind p t = .release := by
        simp [stepKind, handKind, Transition.kind, freed]
      rw [cut, rests, kind] at steps
      cases steps
    refine ⟨_, _, by rw [atBefore]; rfl, by rw [atAfter]; rfl, steps, ?_, ?_⟩
    · simp only [handIn, rests, movedBefore, early, false_and, if_false, if_true]
      rw [endpoint_plain form.roles, endpoint_plain (by exact form.roles)]
    · intro _ started
      exact absurd rests started
  | finish shift cutover =>
    obtain ⟨prev, post, atBefore, atAfter, steps⟩ := phases shift fun _ => numbered_none
    have rests : post = .rest := (Except.ok.inj atAfter).symm
    have cut : prev = .cut := by
      rw [cutover] at atBefore
      exact (Except.ok.inj atBefore).symm
    have state : p.finish.state = .active := rfl
    refine ⟨_, _, by rw [atBefore]; rfl, by rw [state]; rfl, ?_, ?_, ?_⟩
    · simpa only [handIn, rests] using steps
    · simp only [handIn, cut, and_self, if_true]
      exact finish_primary form.roles form.apart
    · intro _ started
      exact absurd rfl started

variable {m : Move}

theorem limit_eq_relimit (rg : HashRange) (ramp : Option Ramp) :
    rg.limit ramp = relimit (some rg) ramp := rfl

theorem relimit_relimit (range other : Option HashRange) (ramp : Option Ramp) :
    relimit range (relimit other ramp) = relimit range ramp := by
  cases ramp <;> rfl

theorem knownHash_relimit {range : Option HashRange} (known : KnownHash ramp) : KnownHash
    (relimit range ramp) := by
  intro r eq
  obtain ⟨prev, stands, rfl⟩ := Option.map_eq_some_iff.mp eq
  exact known prev stands

theorem heldRamp_relimit (range : Option HashRange) (ramp : Option Ramp) :
    heldRamp (relimit range ramp) = heldRamp ramp := by
  cases ramp <;> rfl

theorem inScope_of_inMove (moves : p.move = some m) (isIn : inMove hash p key) :
    inScope hash (some m.range) key = true := by
  simp only [inMove, moves, Bool.and_eq_true] at isIn
  exact isIn.1

theorem view_phases {s : State} {rg : HashRange} {kind : StepKind}
    {prev : State} {old : Option Ramp} (known : KnownHash old)
    (numbers : kind = .step → Numbered old ∧ Numbered (rg.limit ramp))
    (scope : inScope hash (some rg) key) (shift : Shift kind prev (rg.limit old) s ramp) :
    ∃ first last, phaseOf hash prev (rg.limit old) key = .ok first ∧
      phaseOf hash s (rg.limit (rg.limit ramp)) key = .ok last ∧
      first.steps (handKind kind old) last = true := by
  rw [limit_eq_relimit] at shift
  rw [limit_eq_relimit, numbered_relimit, ← @numbered_relimit (some rg)] at numbers
  obtain ⟨first, last, atFirst, atLast, steps⟩ :=
    shift_phases shift (knownHash_relimit known) numbers scope
  rw [relimit_relimit] at atFirst
  have sameKind : handKind kind (relimit (some rg) old) = handKind kind old := by
    cases kind <;> simp only [handKind, heldRamp_relimit]
  refine ⟨first, last, atFirst, ?_, sameKind ▸ steps⟩
  simp only [limit_eq_relimit, relimit_relimit]
  exact atLast

theorem numbered_active {s : State} {rg : HashRange} {old : Option Ramp}
    (shift : Shift .step s (rg.limit old) .active ramp) :
    Numbered old ∧ Numbered (rg.limit ramp) := by
  rw [← @numbered_relimit (some rg), ← limit_eq_relimit]
  generalize rg.limit old = prev at shift
  cases shift with
  | finish => exact ⟨numbered_none, numbered_none⟩

theorem rampOf_active (formed : Formed p) (active : p.state = .active) : rampOf p = none := by
  rcases formed with plain | spread
  · rw [rampOf, plain.noMove]
    exact plain.ramped.noRamp (by rw [active]; simp)
  · rw [rampOf, spread.rest.mp active]
    exact spread.ramp

theorem steps_rest (kind : HandKind) : Phase.rest.steps kind .rest = true := by
  cases kind <;> rfl

theorem handOf_moving {phase : Phase} (form : SpreadForm p) (known : p.keyHash = rampHash)
    (moves : p.move = some m) (isIn : inMove hash p key)
    (got : phaseOf hash p.state (m.range.limit m.ramp) key = .ok phase) :
    handOf hash p key = .ok ⟨phase, ownerLeg hash p key, legIn p.legs m.dest⟩ := by
  have away := form.away moves
  rw [handOf_move form known moves isIn, got]
  simp [Except.map, phaseOf_ne_rest away got]

theorem started_keyHash {plan : MovePlan} (split : KnownSplit p)
    (plans : Planned p t plan) : (plan.started t nv).keyHash = rampHash := by
  change plan.base.keyHash = rampHash
  rw [plans.base]
  change p.spreadBase.keyHash = rampHash
  unfold Placement.spreadBase
  by_cases spread : p.spread
  · rw [if_pos spread]
    exact split spread
  · rw [if_neg spread]
    rfl

theorem ended_keyHash (p : Placement) (m : Move) (nv : Placement) :
    (p.ended m nv).keyHash = p.keyHash := by
  unfold Placement.ended
  rw [setScopeTable_frame]
  rfl

theorem start_hand {plan : MovePlan} (formed : Formed p)
    (split : KnownSplit p) (plans : Planned p t plan)
    (view : RoleStep (firstView plan.base.legs plan.source) (plan.roleStep t) nv)
    (numbers : t.kind = .step → Numbered (rampOf (plan.started t nv))) :
    ∃ a b, handOf hash p key = .ok a ∧ handOf hash (plan.started t nv) key = .ok b ∧
      HandStep (stepKind p t) a b := by
  have form := plans.spreadForm formed view
  have known : (plan.started t nv).keyHash = rampHash := started_keyHash split plans
  have home : ownerLeg hash (plan.started t nv) key = homeLeg hash p key :=
    ownerLeg_planned formed plans key
  rw [handOf_rest formed split plans.active]
  cases isIn : inMove hash (plan.started t nv) key with
  | false =>
    refine ⟨_, _, rfl, handOf_owner form.toSpreadCore form.spread known isIn, ?_⟩
    exact ⟨steps_rest _, by simp [home], fun away => absurd rfl away⟩
  | true =>
    have moves : (plan.started t nv).move = some (plan.move t nv) := rfl
    have scope := inScope_of_inMove moves isIn
    have shift : Shift t.kind .active (plan.range.limit none) nv.state nv.ramp := view.shift
    have noRamp : KnownHash none := by
      rintro r ⟨⟩
    obtain ⟨prev, post, atBefore, atAfter, steps⟩ :=
      view_phases noRamp (fun step => ⟨numbered_none, numbers step⟩) scope shift
    cases atBefore
    have moved := phaseOf_ne_rest (view.leaves rfl) atAfter
    refine ⟨_, _, rfl, handOf_moving form known moves isIn atAfter, ?_, ?_,
      fun away => absurd rfl away⟩
    · rw [stepKind, rampOf_active formed plans.active]
      exact steps
    · simp [moved, home]

theorem inMove_stepped (moves : p.move = some m) (nv : Placement) (key : Key) :
    inMove hash (p.stepped m nv) key = inMove hash p key := by
  simp only [inMove, moves]
  rfl

theorem stepped_hand (form : SpreadForm p) (clean : Clean p)
    (known : p.keyHash = rampHash) (moves : p.move = some m)
    (view : RoleStep (p.moveView m) t.forRoles nv) (still : nv.state ≠ .active)
    (numbers : t.kind = .step → Numbered (rampOf p) ∧ Numbered (rampOf (p.stepped m nv))) :
    ∃ a b, handOf hash p key = .ok a ∧ handOf hash (p.stepped m nv) key = .ok b ∧
      HandStep (stepKind p t) a b := by
  have formAfter := form.stepped moves view.ramped still
  have sameInside : inMove hash (p.stepped m nv) key = inMove hash p key :=
    inMove_stepped moves nv key
  have home : ownerLeg hash (p.stepped m nv) key = ownerLeg hash p key := rfl
  have sameKind : stepKind p t = handKind t.kind m.ramp := by rw [stepKind, rampOf, moves]
  cases isIn : inMove hash p key with
  | false =>
    refine ⟨_, _, handOf_owner form.toSpreadCore form.spread known isIn,
      handOf_owner formAfter.toSpreadCore formAfter.spread known (sameInside.trans isIn), ?_⟩
    exact ⟨steps_rest _, by simp [home], fun away => absurd rfl away⟩
  | true =>
    have knownRamp : KnownHash m.ramp := by
      have known := clean.known
      rwa [rampOf, moves] at known
    have scope := inScope_of_inMove moves isIn
    have shift : Shift t.kind p.state (m.range.limit m.ramp) nv.state nv.ramp := view.shift
    rw [rampOf, moves] at numbers
    obtain ⟨prev, post, atBefore, atAfter, steps⟩ := view_phases knownRamp numbers scope shift
    have movedAfter := phaseOf_ne_rest still atAfter
    refine ⟨_, _, handOf_moving form known moves isIn atBefore,
      handOf_moving formAfter known rfl (sameInside.trans isIn) atAfter, ?_⟩
    exact ⟨sameKind ▸ steps, by simp [movedAfter, home], fun _ _ => rfl⟩

theorem last_hand (form : SpreadForm p) (clean : Clean p) (known : p.keyHash = rampHash)
    (moves : p.move = some m) (view : RoleStep (p.moveView m) t.forRoles nv)
    (active : nv.state = .active) (isIn : inMove hash p key) : ∃ prev, handOf hash p key =
        .ok ⟨prev, ownerLeg hash p key, legIn p.legs m.dest⟩ ∧
      prev.steps (stepKind p t) .rest ∧ prev ≠ .rest ∧ (prev = .cut ↔ t.release = false) := by
  have knownRamp : KnownHash m.ramp := by
    have known := clean.known
    rwa [rampOf, moves] at known
  have away := form.away moves
  have shift : Shift t.kind p.state (m.range.limit m.ramp) .active nv.ramp := active ▸ view.shift
  obtain ⟨prev, post, atBefore, atAfter, steps⟩ :=
    view_phases knownRamp (fun step => numbered_active (step ▸ shift))
      (inScope_of_inMove moves isIn) shift
  have sameKind : stepKind p t = handKind t.kind m.ramp := by rw [stepKind, rampOf, moves]
  have rests : post = .rest := (Except.ok.inj atAfter).symm
  have movedBefore := phaseOf_ne_rest away atBefore
  subst rests
  refine ⟨prev, handOf_moving form known moves isIn atBefore, sameKind ▸ steps, movedBefore, ?_⟩
  rcases shift.toActive with ⟨kind, state⟩ | ⟨kind, state⟩
  · rw [state] at atBefore
    have inForce : t.release = false := by
      by_contra freed
      have no := t.kind_eq_release.mpr (by simpa using freed)
      rw [kind] at no
      cases no
    exact ⟨fun _ => inForce, fun _ => (Except.ok.inj atBefore).symm⟩
  rw [t.kind_eq_release.mp kind]
  refine ⟨fun cut => ?_, fun no => by cases no⟩
  rw [cut, kind] at steps
  cases steps

theorem settle_keyHash (core : SpreadCore p) (rests : p.move = none)
    (known : p.keyHash = rampHash) : KnownSplit p.settle := by
  intro spread
  rcases settle_shape core rests with ⟨eq, -⟩ | ⟨o, alone, noRules, settled⟩
  · rw [eq]
    exact known
  · rw [settled] at spread
    simp [Placement.spread, Placement.settledOn, rests, noRules] at spread

theorem settle_state (core : SpreadCore p) (rests : p.move = none) : p.settle.state = p.state := by
  rcases settle_shape core rests with ⟨eq, -⟩ | ⟨o, alone, noRules, settled⟩
  · rw [eq]
  · rw [settled]
    rfl

theorem unwind_hand (form : SpreadForm p) (clean : Clean p) (known : p.keyHash = rampHash)
    (moves : p.move = some m) (view : RoleStep (p.moveView m) t.forRoles nv)
    (active : nv.state = .active) (freed : t.release) :
    ∃ a b, handOf hash p key = .ok a ∧ handOf hash (p.rested nv).settle key = .ok b ∧
      HandStep (stepKind p t) a b := by
  have core := form.toSpreadCore.rested nv
  have formAfter := settle_formed core rfl rfl
  have home : homeLeg hash (p.rested nv).settle key = ownerLeg hash p key :=
    homeLeg_settle core rfl key
  have post : handOf hash (p.rested nv).settle key = _ :=
    handOf_rest formAfter (settle_keyHash core rfl known) (settle_state core rfl)
  cases isIn : inMove hash p key with
  | false =>
    refine ⟨_, _, handOf_owner form.toSpreadCore form.spread known isIn, post, ?_⟩
    exact ⟨steps_rest _, by simp [home], fun away => absurd rfl away⟩
  | true =>
    obtain ⟨prev, got, steps, moved, ends⟩ := last_hand form clean known moves view active isIn
    have early : prev ≠ .cut := by
      intro cut
      rw [freed] at ends
      cases ends.mp cut
    exact ⟨_, _, got, post, steps, by simp [early, home], fun _ away => absurd rfl away⟩

theorem finish_hand (form : SpreadForm p) (clean : Clean p) (known : p.keyHash = rampHash)
    (moves : p.move = some m) (view : RoleStep (p.moveView m) t.forRoles nv)
    (active : nv.state = .active) (inForce : t.release = false) :
    ∃ a b, handOf hash p key = .ok a ∧ handOf hash (p.endMove m nv) key = .ok b ∧
      HandStep (stepKind p t) a b := by
  have core := ended_core nv form moves
  have sameState : (p.ended m nv).state = .active := setScopeTable_state _ _ _
  have rests : (p.ended m nv).move = none := setScopeTable_move _ _ _
  rw [endMove_eq]
  have formAfter := settle_formed core sameState rests
  have home : homeLeg hash _ key = _ := homeLeg_settle core rests key
  rw [ownerLeg_ended form moves nv key] at home
  have post : handOf hash _ key = _ :=
    handOf_rest formAfter (settle_keyHash core rests ((ended_keyHash p m nv).trans known))
      ((settle_state core rests).trans sameState)
  cases isIn : inMove hash p key with
  | false =>
    rw [isIn, if_neg Bool.false_ne_true] at home
    refine ⟨_, _, handOf_owner form.toSpreadCore form.spread known isIn, post, ?_⟩
    exact ⟨steps_rest _, by simp [home], fun away => absurd rfl away⟩
  | true =>
    rw [isIn, if_pos rfl] at home
    obtain ⟨prev, got, steps, moved, ends⟩ := last_hand form clean known moves view active isIn
    exact ⟨_, _, got, post, steps, by simp [ends.mpr inForce, home], fun _ away => absurd rfl away⟩

variable (hash) in
theorem applyStep_hand (formed : Formed p) (clean : Clean p) (split : KnownSplit p)
    (step : ApplyStep p t q) (numbers : t.kind = .step → Numbered (rampOf p) ∧ Numbered (rampOf q))
    (key : Key) : ∃ a b, handOf hash p key = .ok a ∧ handOf hash q key = .ok b ∧
      HandStep (stepKind p t) a b := by
  cases step with
  | plain plain step => exact roleStep_hand (formed.plainForm plain) clean step numbers
  | start plans view => exact start_hand formed split plans view fun step => (numbers step).2
  | step moves view still =>
    have form := formed.spreadForm moves
    exact stepped_hand form clean (split form.spread) moves view still numbers
  | unwind moves view active freed =>
    have form := formed.spreadForm moves
    exact unwind_hand form clean (split form.spread) moves view active freed
  | finish moves view active inForce =>
    have form := formed.spreadForm moves
    exact finish_hand form clean (split form.spread) moves view active inForce

theorem settle_clean (core : SpreadCore p) (rests : p.move = none) : Clean p.settle := by
  have noRamp : p.settle.move = none ∧ p.settle.ramp = none := by
    rcases settle_shape core rests with ⟨eq, -⟩ | ⟨o, alone, noRules, settled⟩
    · rw [eq]
      exact ⟨rests, core.ramp⟩
    · rw [settled]
      exact ⟨rests, core.ramp⟩
  refine ⟨?_, ?_⟩
  · rw [rampOf, noRamp.1]
    intro r stands
    rw [noRamp.2] at stands
    cases stands
  intro _ r stands
  rw [noRamp.2] at stands
  cases stands

theorem applyStep_clean (formed : Formed p) (clean : Clean p) (step : ApplyStep p t q) :
    Clean q := by
  cases step with
  | plain plain step =>
    have form := formed.plainForm plain
    have formAfter := step.plainForm form
    have known := clean.known
    rw [rampOf, form.noMove] at known
    refine ⟨?_, fun _ => shift_wholeRange step.shift (clean.whole plain)⟩
    rw [rampOf, formAfter.noMove]
    exact shift_knownHash step.shift known
  | @start plan nv plans view =>
    refine ⟨?_, ?_⟩
    · change KnownHash (plan.range.limit nv.ramp)
      exact knownHash_relimit (shift_knownHash view.shift (by intro r no; cases no))
    intro plain
    rw [(plans.spreadForm formed view).spread] at plain
    cases plain
  | @step m nv moves view still =>
    have known := clean.known
    rw [rampOf, moves] at known
    refine ⟨?_, ?_⟩
    · change KnownHash (m.range.limit nv.ramp)
      exact knownHash_relimit (shift_knownHash view.shift (knownHash_relimit known))
    intro plain
    rw [((formed.spreadForm moves).stepped moves view.ramped still).spread] at plain
    cases plain
  | unwind moves =>
    exact settle_clean ((formed.spreadForm moves).toSpreadCore.rested _) rfl
  | @finish m nv moves =>
    rw [endMove_eq]
    exact settle_clean (ended_core nv (formed.spreadForm moves) moves) (setScopeTable_move _ _ _)

theorem applyStep_split (formed : Formed p) (split : KnownSplit p) (step : ApplyStep p t q) :
    KnownSplit q := by
  cases step with
  | plain plain step =>
    intro spread
    rw [(step.plainForm (formed.plainForm plain)).plain] at spread
    cases spread
  | start plans => exact fun _ => started_keyHash split plans
  | step moves => exact fun _ => split (formed.spreadForm moves).spread
  | unwind moves =>
    have form := formed.spreadForm moves
    exact settle_keyHash (form.toSpreadCore.rested _) rfl (split form.spread)
  | @finish m nv moves =>
    have form := formed.spreadForm moves
    rw [endMove_eq]
    exact settle_keyHash (ended_core nv form moves) (setScopeTable_move _ _ _)
      ((ended_keyHash p m nv).trans (split form.spread))

end Shunt.Migrate
