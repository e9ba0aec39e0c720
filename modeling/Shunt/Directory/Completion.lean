/-
A held step and its completion.  The hold records the step a transition asks
for, and the completion is the same transition without what named its keys: the
part of a completion that the two roles decide.
-/

import Shunt.Directory.Formed

namespace Shunt.Directory

open List Option
open Library (Number)

variable {v w d h np : Placement} {t tc : Transition} {to_ : State} {op : String}
variable {range : Option HashRange} {p : Placement} {u : Transition}

def Transition.heldBy (t : Transition) (op : String) : Transition :=
  { t with hold := true, barrier := op }

def Transition.completion (t : Transition) : Transition :=
  { t with target := "", name := "", complete := true, range := none, leg := "", scope := [] }

theorem resolve_heldBy (p : Placement) (t : Transition) (op : String) :
    p.resolve (t.heldBy op) = (p.resolve t).map fun t' => t'.heldBy op := by
  have share : p.resolveShare (t.heldBy op) = (p.resolveShare t).map fun t' => t'.heldBy op := by
    unfold Placement.resolveShare Transition.heldBy Placement.fail
    dsimp only
    repeat' split
    all_goals rfl
  have range : ∀ u : Transition, p.resolveRange (u.heldBy op) = (p.resolveRange u).heldBy op := by
    intro u
    unfold Placement.resolveRange Transition.heldBy
    dsimp only
    repeat' split
    all_goals rfl
  have leg : ∀ u : Transition,
      p.resolveLeg (u.heldBy op) = (p.resolveLeg u).map fun t' => t'.heldBy op := by
    intro u
    unfold Placement.resolveLeg Transition.heldBy Placement.fail
    dsimp only
    repeat' split
    all_goals rfl
  unfold Placement.resolve
  rw [share]
  cases p.resolveShare t with
  | error => rfl
  | ok => simp only [Except.map, range, leg]

theorem planMove_heldBy (p : Placement) (t : Transition) (op : String) :
    p.planMove (t.heldBy op) = p.planMove t := by
  have start : p.checkStart (t.heldBy op) = p.checkStart t := rfl
  have prepare : p.prepareStart (t.heldBy op) =
      (p.prepareStart t).map fun pair => (pair.1, pair.2.heldBy op) := by
    unfold Placement.prepareStart Transition.heldBy Placement.fail
    dsimp only
    repeat' split
    all_goals rfl
  unfold Placement.planMove
  rw [start, prepare]
  cases p.checkStart t with
  | error => rfl
  | ok =>
    cases p.prepareStart t with
    | error | ok => rfl

theorem inheritTarget_heldBy (v : Placement) (t : Transition) (op : String) :
    v.inheritTarget (t.heldBy op) = (v.inheritTarget t).map fun t' => t'.heldBy op := by
  unfold Placement.inheritTarget Transition.heldBy Placement.fail
  dsimp only
  repeat' split
  all_goals rfl

theorem stepTo_heldBy (unheld : heldRamp v.ramp = false) (t : Transition) (to_ : State)
    (op : String) : v.stepTo (t.heldBy op) to_ = v.stepTo t to_ := by
  have below : v.heldBelowOne = false := by
    unfold Placement.heldBelowOne
    cases stands : v.ramp with
    | none => rfl
    | some r =>
      rw [stands] at unheld
      cases held : r.hold with
      | none => simp [held]
      | some => simp [heldRamp, held] at unheld
  have pending : (v.ramp.getD { hash := "" }).hold = none := by
    cases stands : v.ramp with
    | none => rfl
    | some =>
      rw [stands] at unheld
      simpa [heldRamp] using unheld
  have ramp : v.rampStep (t.heldBy op) = v.rampStep t := by
    unfold Placement.rampStep
    simp only [pending, ite_self]
    rfl
  unfold Placement.stepTo
  rw [ramp, below]
  rfl

theorem stepTo_state (res : v.stepTo t to_ = .ok np) : np.state = to_ := by
  unfold Placement.stepTo Placement.leave Placement.rampStep Placement.fail at res
  dsimp only at res
  repeat' split at res
  all_goals cases res
  all_goals simp_all [Placement.finish]

/-- The step does not repeat the ramp that stands. -/
def Changes (old : Ramp) (t : Transition) : Prop :=
  ¬ ((grownRamp old t).ratio.same old.ratio ∧
    (grownRamp old t).prefixes.length = old.prefixes.length)

structure HoldsStep (v : Placement) (t : Transition) (op : String) (d h np : Placement) : Prop where
  state : t.toState = some np.state
  holdable : np.state = .ramping ∨ np.state = .migrating
  plainFields : t.cutover = none ∧ (np.state = .migrating → t.ratio = 0 ∧ t.prefixes = [])
  stepped : ∃ target name, Stepped v { t with target := target, name := name } np
  changes : v.state = .ramping → np.state = .ramping →
    Changes (v.ramp.getD { hash := "" }) t
  direct : d = { np with barrier := d.barrier }
  held : ∃ barrier, h = { np with
    state := .ramping, barrier := barrier
    ramp := some { v.rampInForce with hold := some (heldKeys np) } } ∧
    barrier = if op ≠ "" then some ⟨op, .mutations⟩ else none

theorem rampStep_changes (res : v.rampStep t = .ok np) :
    Changes (v.ramp.getD { hash := "" }) t := by
  intro eq
  unfold Placement.rampStep Placement.fail at res
  simp only [if_pos eq] at res
  repeat' split at res
  all_goals cases res

theorem holdsStep_of_ok (ramped : Ramped v.state v.ramp) (unheld : heldRamp v.ramp = false)
    (step : t.hold = false) (inForce : t.release = false)
    (wanted : t.toState = some .ramping ∨ t.toState = some .migrating)
    (direct : v.applyRoles t = .ok d) (hold : v.applyRoles (t.heldBy op) = .ok h) :
    ∃ np, HoldsStep v t op d h np := by
  obtain ⟨t', to_, np, ok, closed⟩ := applyRoles_accepted inForce direct
  obtain ⟨t₂, to₂, np₂, acceptedHold, closedHold⟩ := applyRoles_accepted (by exact inForce) hold
  have sameTo : to_ = to₂ := some.inj (ok.named.symm.trans acceptedHold.named)
  subst sameTo
  have sameT : t₂ = t'.heldBy op := by
    have inherits := acceptedHold.inherits
    rw [inheritTarget_heldBy, ok.inherits] at inherits
    exact (Except.ok.inj inherits).symm
  subst sameT
  have sameNp : np₂ = np := by
    have stepped := acceptedHold.step
    rw [stepTo_heldBy unheld, ok.step] at stepped
    exact (Except.ok.inj stepped).symm
  subst sameNp
  obtain ⟨-, -, -, lawful, -⟩ := checkLegal_ok ok.lawful
  obtain ⟨target, name, rfl, -, -⟩ := inheritTarget_ok ok.inherits
  have state := stepTo_state ok.step
  have stepped := stepTo_stepped ramped lawful (by simp [step]) ok.step
  have holdable : np₂.state = .ramping ∨ np₂.state = .migrating := by
    rw [state]
    have named := ok.named
    rcases wanted with eq | eq <;> rw [eq] at named <;> cases named <;> simp
  refine ⟨np₂, ?_, holdable, ?_, ⟨target, name, stepped⟩, ?_, ?_, ?_⟩
  · rw [state]
    exact ok.named
  · have fields := ok.fields
    unfold Placement.checkFields Placement.fail at fields
    split at fields
    · cases fields
    rename_i evidence
    split at fields
    · cases fields
    rename_i ramps
    rw [state] at holdable ⊢
    have other : to_ ≠ .cutover := by rcases holdable with eq | eq <;> rw [eq] <;> simp
    refine ⟨by_contra fun given => evidence ⟨given, other⟩, fun whole => ?_⟩
    have away : to_ ≠ .ramping := by rw [whole]; simp
    by_contra given
    exact ramps ⟨away, by tauto⟩
  · intro ramping goes
    have res := ok.step
    rw [← state, goes, Placement.stepTo, if_neg (by rw [ramping]; simp), if_pos
      ⟨ramping, rfl⟩] at res
    exact rampStep_changes res
  · rw [closed, Placement.closeStep, if_neg (by simp [step])]
    split <;> rfl
  · exact ⟨_, closedHold, rfl⟩

def RampAlike : Option Ramp → Option Ramp → Prop
  | none, none => True
  | some a, some b => a.hash = b.hash ∧ a.ratio = b.ratio ∧ a.range = b.range ∧
      (∀ pre, pre ∈ a.prefixes ↔ pre ∈ b.prefixes) ∧ a.hold = none ∧ b.hold = none
  | _, _ => False

/-- What a completion finds on the placement it is applied to: the hold, limited to
some range, under its own barrier. -/
structure Completable (v w np : Placement) (tc : Transition) (range : Option HashRange) : Prop where
  step : tc.hold = false
  inForce : tc.release = false
  completes : tc.complete = true
  named : tc.toState = some np.state
  unnamed : tc.target = "" ∧ tc.name = ""
  barrier : tc.barrier = "" ∨ w.carries tc.barrier = true
  noMove : w.move = none
  state : w.state = .ramping
  ramp : w.ramp = some { v.rampInForce with range := range, hold := some (heldKeys np) }

theorem Completable.applyRoles (completable : Completable v w np tc range)
    (holdable : np.state = .ramping ∨ np.state = .migrating)
    (fields : tc.cutover = none ∧ (np.state = .migrating → tc.ratio = 0 ∧ tc.prefixes = [])) :
    w.applyRoles tc = (w.stepTo tc np.state).map fun c => { c with barrier := none } := by
  obtain ⟨step, inForce, completes, named, unnamed, barrier, noMove, state, ramp⟩ := completable
  have passes : w.checkBarrier tc = .ok () := by
    unfold Placement.checkBarrier
    rw [if_neg]
    rintro ⟨given, -, other⟩
    rw [barrier.resolve_left given] at other
    cases other
  have held : w.held := by simp [Placement.held, noMove, heldRamp, ramp]
  have lawful : w.checkLegal tc np.state = .ok () := by
    unfold Placement.checkLegal
    rcases holdable with eq | eq <;> simp [step, held, completes, state, eq, legal, unnamed]
  have inherits : w.inheritTarget tc = .ok tc := by simp [Placement.inheritTarget, state]
  have accepts : w.checkFields tc np.state = .ok () := by
    unfold Placement.checkFields
    rcases holdable with eq | eq
    · simp [fields.1, eq]
    · simp [fields.1, fields.2 eq, eq]
  unfold Placement.applyRoles
  rw [if_neg (by simp [inForce])]
  simp only [passes, named, lawful, inherits, accepts]
  cases w.stepTo tc np.state with
  | error => rfl
  | ok => simp [Placement.closeStep, step, completes, Except.map]

theorem rampStep_completion {old : Ramp} {keys : RampHold} (stands : w.ramp = some old)
    (held : old.hold = some keys) (step : tc.hold = false) (has : old.hash = rampHash)
    (grows : tc.ratio = 0 ∨ ¬ tc.ratio < old.ratio) (changes : Changes old tc)
    (ratio : ¬ keys.ratio < (grownRamp old tc).ratio)
    (prefixes : ∀ pre ∈ (grownRamp old tc).prefixes, pre ∈ keys.prefixes) :
    w.rampStep tc = .ok { w with state := .ramping, ramp := some (grownRamp old tc) } := by
  have isIn : beyondHold old keys (grownRamp old tc) = none := by
    refine find?_eq_none.mpr fun pre mem => ?_
    simp only [Bool.and_eq_true, decide_eq_true_eq, not_and, not_not]
    exact fun _ => prefixes pre mem
  have notBelow : ¬ (tc.ratio ≠ 0 ∧ tc.ratio < old.ratio) := by
    rintro ⟨given, below⟩
    exact grows.resolve_left given below
  have reached : ¬ (keys.ratio < (grownRamp old tc).ratio ∧ old.ratio < (grownRamp old tc).ratio) :=
    fun beyond => ratio beyond.1
  unfold Placement.rampStep
  simp only [stands, getD_some, has, ne_eq, not_true_eq_false, if_false, if_neg notBelow,
    if_neg changes, step, Bool.false_eq_true, held, isIn, if_neg reached]

theorem rampStep_shrinks {old : Ramp} (stands : w.ramp = some old) (given : tc.ratio ≠ 0)
    (below : tc.ratio < old.ratio) : ∃ e, w.rampStep tc = .error e := by
  unfold Placement.rampStep
  simp only [stands, getD_some]
  split
  · exact ⟨_, rfl⟩
  · rw [if_pos ⟨given, below⟩]
    exact ⟨_, rfl⟩

theorem rampStep_first {keys : RampHold}
    (stands : w.ramp = some { hash := rampHash, range := range, hold := some keys })
    (step : tc.hold = false) (ratio : tc.ratio = keys.ratio)
    (prefixes : tc.prefixes = keys.prefixes)
    (nonempty : keys.ratio ≠ 0 ∨ keys.prefixes ≠ []) (forward : ¬ keys.ratio < 0) :
    ∃ r, w.rampStep tc = .ok { w with state := .ramping, ramp := some r } ∧
      RampAlike (some r)
        (some { hash := rampHash, ratio := keys.ratio, prefixes := keys.prefixes }) := by
  generalize eq : ({ hash := rampHash, range := range, hold := some keys } : Ramp) = old at stands
  have asksRatio : (grownRamp old tc).ratio = keys.ratio := by
    simp only [← eq, grownRamp, ratio]
    split
    · rfl
    · rename_i unset
      exact (not_not.mp unset).symm
  have asksPrefixes : ∀ pre, pre ∈ (grownRamp old tc).prefixes ↔ pre ∈ keys.prefixes := by
    intro pre
    simp only [← eq, grownRamp, prefixes, mem_addPrefixes, not_mem_nil, false_or]
  have held : old.hold = some keys := by rw [← eq]
  have has : old.hash = rampHash := by rw [← eq]
  have zero : old.ratio = 0 := by rw [← eq]
  have nil : old.prefixes = [] := by rw [← eq]
  have changes : Changes old tc := by
    rw [Changes, asksRatio, zero, nil]
    rintro ⟨unchanged, none⟩
    refine nonempty.elim (fun given => given (Number.eq_of_same unchanged)) fun some_ => some_ ?_
    refine eq_nil_iff_forall_not_mem.mpr fun pre mem => ?_
    rw [← asksPrefixes, eq_nil_of_length_eq_zero none] at mem
    cases mem
  refine ⟨grownRamp old tc, rampStep_completion stands held step has
    (.inr (by rw [zero, ratio]; exact forward)) changes
    (by rw [asksRatio]; exact Number.lt_irrefl)
    (fun pre => (asksPrefixes pre).mp), has, asksRatio, rfl, asksPrefixes, rfl, rfl⟩

theorem rampStep_growth {old : Ramp} (stands : w.ramp = some
      { old with
        range := range
        hold := some { ratio := (grownRamp old t).ratio, prefixes := (grownRamp old t).prefixes } })
    (step : tc.hold = false) (ratio : tc.ratio = t.ratio) (prefixes : tc.prefixes = t.prefixes)
    (grown : Grown old (grownRamp old t).ratio (grownRamp old t).prefixes)
    (changes : Changes old t) :
    w.rampStep tc = .ok { w with state := .ramping, ramp := some (grownRamp old t) } := by
  have eq : ∀ held : Ramp, held.hash = old.hash → held.ratio = old.ratio →
      held.prefixes = old.prefixes → grownRamp held tc = grownRamp old t := by
    intro held hash ratio' prefixes'
    simp only [grownRamp, hash, ratio', prefixes', ratio, prefixes]
  have asks := eq { old with
      range := range
      hold := some { ratio := (grownRamp old t).ratio, prefixes := (grownRamp old t).prefixes } }
    rfl rfl rfl
  have grows : tc.ratio = 0 ∨ ¬ tc.ratio < old.ratio := by
    by_cases unset : tc.ratio = 0
    · exact .inl unset
    refine .inr ?_
    have reaches := grown.ratio
    simp only [grownRamp, ← ratio, if_pos unset, ne_eq] at reaches
    simpa [unset] using reaches
  rw [rampStep_completion stands rfl step grown.hash grows
    (by rw [Changes, asks]; exact changes) (by rw [asks]; exact Number.lt_irrefl)
    (by rw [asks]; exact fun pre mem => mem), asks]

theorem Completable.completes_to (ramped : Ramped v.state v.ramp)
    (holds : HoldsStep v t op d h np) (completable : Completable v w np tc range)
    (asks : tc.ratio = t.ratio ∧ tc.prefixes = t.prefixes ∧ tc.cutover = t.cutover)
    (forward : v.state = .active → np.state = .ramping → ¬ t.ratio < 0) :
    ∃ ramp, w.applyRoles tc = .ok { w with state := np.state, barrier := none, ramp := ramp } ∧
      RampAlike ramp np.ramp := by
  obtain ⟨ratio, prefixes, cutover⟩ := asks
  rw [completable.applyRoles holds.holdable
    ⟨cutover.trans holds.plainFields.1, fun whole => by
      rw [ratio, prefixes]
      exact holds.plainFields.2 whole⟩]
  have away : w.state ≠ .active := by rw [completable.state]; simp
  obtain ⟨target, name, stepped⟩ := holds.stepped
  have migrates : np.state = .migrating → np.ramp = none →
      ∃ ramp, (w.stepTo tc np.state).map (fun c => { c with barrier := none }) =
        .ok { w with state := np.state, barrier := none, ramp := ramp } ∧ RampAlike ramp
          np.ramp := by
    intro whole noRamp
    refine ⟨none, ?_, by rw [noRamp]; trivial⟩
    have reached : w.heldBelowOne = false := by
      simp [Placement.heldBelowOne, completable.ramp, heldKeys, noRamp]
    rw [whole, Placement.stepTo, if_neg away]
    simp [reached, Except.map]
  have steps : np.state = .ramping → w.stepTo tc np.state = w.rampStep tc := by
    intro goes
    rw [goes, Placement.stepTo, if_neg away, if_pos ⟨completable.state, rfl⟩]
  have ramp := completable.ramp
  cases stepped with
  | leaveRamping active named nonempty =>
    rw [steps rfl]
    have stands : w.ramp = some
        { hash := rampHash, range := range
          hold := some { ratio := t.ratio, prefixes := t.prefixes } } := by
      rw [ramp]
      simp only [Placement.rampInForce, active, heldKeys]
    obtain ⟨r, res, alike⟩ := rampStep_first stands completable.step ratio prefixes nonempty
      (forward active rfl)
    exact ⟨some r, by rw [res]; rfl, alike⟩
  | leaveWhole active => exact migrates rfl (ramped.noRamp (by rw [active]; simp))
  | @grow old ramping stands grown =>
    rw [steps rfl]
    have heldRamp : w.ramp = some
        { old with
          range := range
          hold := some
            { ratio := (grownRamp old t).ratio, prefixes := (grownRamp old t).prefixes } } := by
      rw [ramp]
      simp only [Placement.rampInForce, ramping, stands, heldKeys]
      rfl
    have changes := holds.changes ramping rfl
    rw [stands, getD_some] at changes
    refine ⟨some (grownRamp old t), ?_, rfl, rfl, rfl, fun _ => Iff.rfl, rfl, rfl⟩
    rw [rampStep_growth heldRamp completable.step ratio prefixes grown changes]
    rfl
  | migrate => exact migrates rfl rfl
  | cutover | finish =>
    rcases holds.holdable with no | no <;> cases no

theorem Completable.refuses (holds : HoldsStep v t op d h np)
    (completable : Completable v w np tc range)
    (asks : tc.ratio = t.ratio ∧ tc.prefixes = t.prefixes ∧ tc.cutover = t.cutover)
    (active : v.state = .active) (goes : np.state = .ramping) (below : t.ratio < 0) :
    ∃ e, w.applyRoles tc = .error e := by
  obtain ⟨ratio, prefixes, cutover⟩ := asks
  rw [completable.applyRoles holds.holdable
    ⟨cutover.trans holds.plainFields.1, fun whole => by rw [goes] at whole; cases whole⟩, goes,
    Placement.stepTo, if_neg (by rw [completable.state]; simp), if_pos ⟨completable.state, rfl⟩]
  have inForce : v.rampInForce = { hash := rampHash } := by
    simp only [Placement.rampInForce, active]
  have shrinks : ∃ e, w.rampStep tc = .error e := rampStep_shrinks completable.ramp
    (by rw [ratio]; exact fun zero => Number.lt_irrefl (zero ▸ below))
    (by rw [ratio, inForce]; exact below)
  obtain ⟨e, refused⟩ := shrinks
  exact ⟨e, by rw [refused]; rfl⟩

theorem RampAlike.unheld {a b : Option Ramp} (alike : RampAlike a b) : heldRamp a = false := by
  match a, b, alike with
  | none, none, _ => rfl
  | some a, some b, ⟨_, _, _, _, unheld, _⟩ => simp [heldRamp, unheld]

theorem Stepped.plainFrame (stepped : Stepped v t np) :
    np.spread = v.spread ∧ np.move = v.move ∧ np.legClusters = v.legClusters := by
  cases stepped with
  | leaveRamping | leaveWhole | grow | migrate | cutover | finish => exact ⟨rfl, rfl, rfl⟩

theorem carries_own {barrier : Option Config.Barrier} (own : t.barrier = "" ∨ t.barrier = op)
    (eq : barrier = if op ≠ "" then some ⟨op, .mutations⟩ else none)
    (carrier : h.barrier = barrier) : t.barrier = "" ∨ h.carries t.barrier = true := by
  by_cases unnamed : t.barrier = ""
  · exact .inl unnamed
  refine .inr ?_
  have named := own.resolve_left unnamed
  rw [if_pos (by rw [← named]; exact unnamed)] at eq
  simp [Placement.carries, carrier, eq, named]

theorem resolveShare_refuses (plain : h.spread = false) (away : h.state ≠ .active)
    (given : t.share ≠ 0) : ∃ e, h.apply t.completion = .error e := by
  have refused : ∃ e, h.resolveShare t.completion = .error e := by
    unfold Placement.resolveShare
    rw [if_neg (by exact given)]
    split
    · exact ⟨_, rfl⟩
    have unnamed : ¬ t.completion.range ≠ none := by simp [Transition.completion]
    simp only [if_neg unnamed, plain, Bool.false_eq_true, if_false]
    exact ⟨_, rfl⟩
  obtain ⟨e, fails⟩ := refused
  exact ⟨e, by simp [Placement.apply, Placement.resolve, fails]⟩

theorem checkRepeat_ok {m : Move} (ok : p.checkRepeat m t = .ok ()) :
    (t.share ≠ 0 → p.sameShare m t.share = true) ∧ (m.scope = [] ∨ t.prefixes = []) := by
  unfold Placement.checkRepeat Placement.fail at ok
  dsimp only at ok
  iterate 4
    split at ok
    · cases ok
  rename_i shared
  split at ok
  · cases ok
  rename_i byRatio
  refine ⟨fun given => by_contra fun other => shared ⟨given, by simpa using other⟩, ?_⟩
  by_contra both
  push Not at both
  exact byRatio both

theorem checkStart_byRatio (ok : p.checkStart t = .ok ()) : t.scope = [] ∨ t.prefixes = [] := by
  unfold Placement.checkStart Placement.fail at ok
  iterate 3
    split at ok
    · cases ok
  rename_i byRatio
  by_contra both
  push Not at both
  exact byRatio both

theorem planMove_byRatio {plan : MovePlan} (plans : p.planMove t = .ok plan) :
    t.scope = [] ∨ t.prefixes = [] := by
  refine checkStart_byRatio (p := p) ?_
  unfold Placement.planMove at plans
  cases start : p.checkStart t with
  | error => simp [start] at plans
  | ok => rfl

theorem resolveShare_inside (solved : p.resolveShare t = .ok u) :
    t.share = 0 ∨ ¬ (t.share < 0 ∨ 1 < t.share) := by
  unfold Placement.resolveShare Placement.fail at solved
  split at solved
  · exact .inl ‹_›
  split at solved
  · cases solved
  · exact .inr ‹_›

theorem resolve_inside (solved : p.resolve t = .ok u) :
    t.share = 0 ∨ ¬ (t.share < 0 ∨ 1 < t.share) := by
  unfold Placement.resolve at solved
  cases shared : p.resolveShare t with
  | error => simp [shared] at solved
  | ok => exact resolveShare_inside shared

theorem resolve_share_unranged (given : t.share ≠ 0)
    (solved : p.resolve t = .ok u) : t.range = none := by
  unfold Placement.resolve at solved
  cases shared : p.resolveShare t with
  | error => simp [shared] at solved
  | ok =>
    unfold Placement.resolveShare Placement.fail at shared
    rw [if_neg given] at shared
    iterate 2
      split at shared
      · cases shared
    · exact not_not.mp ‹_›

theorem resolve_share_active (plain : p.spread = false)
    (given : t.share ≠ 0) (solved : p.resolve t = .ok u) : p.state = .active := by
  have isIn := (resolve_inside solved).resolve_left given
  have unranged := resolve_share_unranged given solved
  by_contra away
  simp [Placement.resolve, Placement.resolveShare, given, isIn, unranged, plain, away,
    Placement.fail] at solved

theorem NamesRange.entry {leg : String} {table : List Owner} {whole rg : HashRange} {o : Owner}
    (tiled : Tiled table) (names : NamesRange range leg table whole) (unranged : range = none)
    (mem : o ∈ table) (holds : o.lo ≤ rg.lo ∧ rg.hi ≤ o.hi) (ordered : rg.lo ≤ rg.hi)
    (starts : rg.lo = whole.lo) : whole = ⟨o.lo, o.hi⟩ := by
  have eq : ∀ other ∈ table, other.lo = whole.lo → other = o := by
    intro other listed lo
    have forward := (tiled.bounds listed).2.1
    have atOther : other.first ≤ rg.lo.toNat ∧ rg.lo.toNat ≤ other.last := by
      rw [starts, ← lo]
      exact ⟨Nat.le_refl _, forward⟩
    have atEntry : o.first ≤ rg.lo.toNat ∧ rg.lo.toNat ≤ o.last :=
      ⟨UInt64.le_iff_toNat_le.mp holds.1,
        UInt64.le_iff_toNat_le.mp (UInt64.le_trans ordered holds.2)⟩
    exact tiled.cell_unique listed mem atOther atEntry
  cases names with
  | given named => rw [unranged] at named; cases named
  | @ofLeg entry _ _ got => rw [eq entry (mem_of_find?_eq_some got) rfl]
  | @ofScope entry _ _ alone => rw [eq entry (by rw [alone]; exact mem_cons_self) rfl]

theorem sameShare_iff {m : Move} {table : List Owner} {o : Owner} {share : ℚ} (tiled : Tiled table)
    (got : p.scopeTable m.scope = some table) (mem : o ∈ table) (leg : o.leg = m.source)
    (holds : o.lo ≤ m.range.lo ∧ m.range.hi ≤ o.hi) (ordered : m.range.lo ≤ m.range.hi) :
    p.sameShare m share ↔ leadingShare ⟨o.lo, o.hi⟩ share = m.range := by
  have first : (table.find? fun o => decide (o.leg = m.source) && decide (o.lo ≤ m.range.lo) &&
      decide (m.range.hi ≤ o.hi)) = some o := by
    cases at_ : table.find? fun o => decide (o.leg = m.source) && decide (o.lo ≤ m.range.lo) &&
        decide (m.range.hi ≤ o.hi) with
    | none =>
      have missed := find?_eq_none.mp at_ o mem
      simp [leg, holds.1, holds.2] at missed
    | some other =>
      have fits := find?_some at_
      simp only [Bool.and_eq_true, decide_eq_true_eq] at fits
      have point : ∀ x : Owner, x.lo ≤ m.range.lo → m.range.hi ≤ x.hi →
          x.lo.toNat ≤ m.range.lo.toNat ∧ m.range.lo.toNat ≤ x.hi.toNat := by
        intro x prev post
        exact ⟨UInt64.le_iff_toNat_le.mp prev,
          UInt64.le_iff_toNat_le.mp (UInt64.le_trans ordered post)⟩
      exact congrArg some (tiled.cell_unique (mem_of_find?_eq_some at_) mem
        (point other fits.1.2 fits.2) (point o holds.1 holds.2))
  unfold Placement.sameShare
  rw [got, getD_some, first]
  simp only [decide_eq_true_eq]

theorem leadingShare_of_shareOf {whole : HashRange} (given : t.share ≠ 0)
    (isIn : ¬ (t.share < 0 ∨ 1 < t.share)) : leadingShare whole t.share = t.shareOf whole := by
  push Not at isIn
  have pos : 0 < t.share := lt_of_le_of_ne isIn.1 (Ne.symm given)
  unfold Transition.shareOf
  split
  · rfl
  · rename_i other
    exact leadingShare_whole whole t.share (not_lt.mp fun below => other ⟨pos, below⟩)

/-- A step to another bucket of the primary's own cluster. -/
def OtherBucket (p : Placement) (t : Transition) : Prop :=
  t.target ≠ "" ∧ t.target = p.primary ∧ t.name ≠ "" ∧ t.name ≠ nameIn p.names p.primary

def Transition.shared (t : Transition) : Option HashRange :=
  if t.share = 0 then t.range else some (leadingShare fullRange t.share)

inductive PlainRange (p : Placement) (t : Transition) : Option HashRange → Prop where
  | every (other : OtherBucket p t) : PlainRange p t (some fullRange)
  | whole (away : t.target ≠ p.primary) (full : t.shared = some fullRange) : PlainRange p t none
  | kept (eq : ¬ OtherBucket p t) (part : ¬ (t.shared = some fullRange ∧ t.target ≠ p.primary)) :
      PlainRange p t t.shared

theorem resolve_plain (plain : p.spread = false)
    (active : p.state = .active) (solved : p.resolve t = .ok u) :
    u.share = 0 ∧ u.leg = "" ∧ (t.leg = "" ∨ t.leg = p.primary) ∧ PlainRange p t u.range := by
  unfold Placement.resolve at solved
  cases shared : p.resolveShare t with
  | error => simp [shared] at solved
  | ok w =>
    have first : w = { t with range := t.shared, share := 0 } := by
      unfold Placement.resolveShare Placement.fail at shared
      unfold Transition.shared
      split at shared
      · rename_i none
        cases shared
        rw [if_pos none, ← none]
      rename_i given
      rw [if_neg given]
      iterate 2
        split at shared
        · cases shared
      · simpa [plain, active] using shared.symm
    simp only [shared] at solved
    have legs : (p.resolveRange w).leg = t.leg := by
      rw [first]
      unfold Placement.resolveRange
      dsimp only
      repeat' split
      all_goals rfl
    have ranged : u.share = (p.resolveRange w).share ∧ u.range = (p.resolveRange w).range ∧
        u.leg = "" ∧ (t.leg = "" ∨ t.leg = p.primary) := by
      unfold Placement.resolveLeg Placement.fail at solved
      rw [← legs]
      split at solved
      · split at solved
        · cases solved
        rename_i own
        cases solved
        exact ⟨rfl, rfl, rfl, .inr (not_not.mp own)⟩
      rename_i unnamed
      cases solved
      have none : (p.resolveRange w).leg = "" := by
        by_contra given
        exact unnamed ⟨given, plain⟩
      exact ⟨rfl, rfl, none, .inl none⟩
    rw [ranged.1, ranged.2.1, first]
    refine ⟨?_, ranged.2.2.1, ranged.2.2.2, ?_⟩
    all_goals unfold Placement.resolveRange
    · dsimp only
      repeat' split
      all_goals rfl
    by_cases other : OtherBucket p t
    · have rule : p.spread = false ∧ p.state = .active ∧ t.target ≠ "" ∧ t.target = p.primary ∧
          t.name ≠ "" ∧ t.name ≠ nameIn p.names p.primary := ⟨plain, active, other⟩
      have eq : ¬ (True ∧ p.spread = false ∧ t.target ≠ p.primary) := fun away => away.2.2 other.2.1
      simp only [if_pos rule, if_neg eq]
      exact .every other
    have rule : ¬ (p.spread = false ∧ p.state = .active ∧ t.target ≠ "" ∧
        t.target = p.primary ∧ t.name ≠ "" ∧ t.name ≠ nameIn p.names p.primary) :=
      fun all => other all.2.2
    simp only [if_neg rule]
    split
    · rename_i whole
      exact .whole whole.2.2 whole.1
    · rename_i part
      exact .kept other fun all => part ⟨all.1, plain, all.2⟩

theorem Planned.plainTable {plan : MovePlan} (form : PlainForm p) (plans : Planned p u plan) :
    u.scope = [] ∧ plan.source = p.primary ∧
      p.spreadBase.scopeTable u.scope = some [⟨fullRange.lo, fullRange.hi, p.primary⟩] := by
  have scope : u.scope = [] := by
    rcases plans.inScope with none | ⟨rule, listed, -⟩
    · exact none
    · rw [(noRules form.plain).1] at listed
      cases listed
  have table : p.spreadBase.scopeTable u.scope =
      some [⟨fullRange.lo, fullRange.hi, p.primary⟩] := by
    rw [scope, Placement.spreadBase, if_neg (ne_true_of_eq_false form.plain)]
    simp [Placement.scopeTable, Placement.asSpread]
  refine ⟨scope, ?_, table⟩
  obtain ⟨entries, whole, got, -, -, o, mem, source, -⟩ := plans.range
  rw [table] at got
  cases got
  rw [← source, mem_singleton.mp mem]

theorem Planned.plainRange {plan : MovePlan} (form : PlainForm p)
    (plans : Planned p u plan) (unshared : u.share = 0) : plan.range = u.range.getD fullRange := by
  obtain ⟨-, -, only⟩ := plans.plainTable form
  obtain ⟨table, whole, got, names, range, -⟩ := plans.range
  rw [only] at got
  cases got
  rw [range, Transition.shareOf, if_neg (by rw [unshared]; simp)]
  cases names with
  | given named => rw [named]; rfl
  | ofLeg unnamed byLeg first =>
    rw [unnamed, mem_singleton.mp (mem_of_find?_eq_some first)]
    rfl
  | ofScope unnamed scopeOnly alone =>
    rw [unnamed, ← singleton_inj.mp alone]
    rfl

end Shunt.Directory
