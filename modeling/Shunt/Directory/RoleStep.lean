/-
What a transition of a placement with two roles can do, said once: how its state
and its ramp shift, and which of its other fields change.  Every later proof
about such a step starts from these cases.
-/

import Shunt.Directory.WellFormed

namespace Shunt.Directory

open List Option

open Config (Barrier)
open Library (Number)

variable {v np : Placement} {t : Transition}

inductive StepKind where
  | hold
  | release
  | step
  deriving DecidableEq

def Transition.kind (t : Transition) : StepKind :=
  if t.release then .release else if t.hold then .hold else .step

theorem Transition.kind_eq_release (t : Transition) : t.kind = .release ↔ t.release = true := by
  unfold Transition.kind
  cases t.release <;> cases t.hold <;> simp

structure Grown (old : Ramp) (ratio : Number) (prefixes : List Key) : Prop where
  hash : old.hash = rampHash
  ratio : ¬ ratio < old.ratio
  prefixes : old.prefixes ⊆ prefixes

/-- A ramp that moves only keys in force or held before. -/
structure WithinHold (old : Ramp) (h : RampHold) (new : Ramp) : Prop where
  ratio : ¬ (h.ratio < new.ratio ∧ old.ratio < new.ratio)
  prefixes : ∀ pre ∈ new.prefixes, pre ∈ old.prefixes ∨ pre ∈ h.prefixes

inductive Shift : StepKind → State → Option Ramp → State → Option Ramp → Prop where
  | leave {ratio prefixes} (some_ : ratio ≠ 0 ∨ prefixes ≠ []) :
      Shift .step .active none .ramping (some { hash := rampHash, ratio, prefixes })
  | leaveWhole : Shift .step .active none .migrating none
  | leaveHeld (keys : RampHold) :
      Shift .hold .active none .ramping (some { hash := rampHash, hold := some keys })
  | grow {old ratio prefixes} (grown : Grown old ratio prefixes) (some_ : ratio ≠ 0 ∨ prefixes ≠ [])
      (within : ∀ h, old.hold = some h →
        WithinHold old h { hash := old.hash, ratio, prefixes }) :
      Shift .step .ramping (some old) .ramping (some { hash := old.hash, ratio, prefixes })
  | holdGrowth {old ratio prefixes} (unheld : old.hold = none) (grown : Grown old ratio prefixes) :
      Shift .hold .ramping (some old) .ramping
        (some { old with hold := some { ratio, prefixes } })
  | holdWhole {old} (unheld : old.hold = none) :
      Shift .hold .ramping (some old) .ramping (some { old with hold := some { ratio := 1 } })
  | migrate {old} (all : ∀ h, old.hold = some h → ¬ h.ratio < 1) :
      Shift .step .ramping (some old) .migrating none
  | cutover : Shift .step .migrating none .cutover none
  | finish : Shift .step .cutover none .active none
  | releaseFirst {old h} (held : old.hold = some h) (ratio : old.ratio = 0)
      (prefixes : old.prefixes = []) : Shift .release .ramping (some old) .active none
  | release {old h} (held : old.hold = some h) (some_ : old.ratio ≠ 0 ∨ old.prefixes ≠ []) :
      Shift .release .ramping (some old) .ramping (some { old with hold := none })

theorem Shift.ramped {kind : StepKind} {s s' : State} {ramp ramp' : Option Ramp}
    (shift : Shift kind s ramp s' ramp') : Ramped s' ramp' := by
  cases shift with
  | leave some_ | grow grown some_ | release held some_ =>
    exact ⟨by simp, fun r eq _ => by cases eq; exact some_⟩
  | leaveHeld | holdGrowth unheld | holdWhole unheld =>
    exact ⟨by simp, fun r eq unheld => by cases eq; cases unheld⟩
  | leaveWhole | migrate | cutover | finish | releaseFirst =>
    exact ⟨by simp, fun r eq => by cases eq⟩

theorem subset_addPrefixes (kept given : List Key) :
    kept ⊆ addPrefixes kept given ∧ given ⊆ addPrefixes kept given := by
  unfold addPrefixes
  induction given generalizing kept with
  | nil => exact ⟨fun _ mem => mem, fun _ mem => (nomatch mem)⟩
  | cons pre rest ih =>
    rw [foldl_cons]
    have extended : kept ⊆ (if pre ∈ kept then kept else kept ++ [pre]) ∧
        pre ∈ (if pre ∈ kept then kept else kept ++ [pre]) := by
      split
      · rename_i mem
        exact ⟨fun _ mem => mem, mem⟩
      · exact ⟨subset_append_left _ _, mem_append_right _ mem_cons_self⟩
    obtain ⟨keeps, adds⟩ := ih (if pre ∈ kept then kept else kept ++ [pre])
    refine ⟨fun x mem => keeps (extended.1 mem), ?_⟩
    intro x mem
    rcases mem_cons.mp mem with eq | later
    · rw [eq]
      exact keeps extended.2
    · exact adds later

theorem addPrefixes_subset (kept given : List Key) : addPrefixes kept given ⊆ kept ++ given := by
  unfold addPrefixes
  induction given generalizing kept with
  | nil => simp
  | cons pre rest ih =>
    rw [foldl_cons]
    intro x mem
    have reached := ih _ mem
    rcases mem_append.mp reached with prev | post
    · split at prev
      · exact mem_append_left _ prev
      simp only [mem_append, mem_singleton] at prev
      rcases prev with old | here
      · exact mem_append_left _ old
      · exact mem_append_right _ (by rw [here]; exact mem_cons_self)
    · exact mem_append_right _ (mem_cons_of_mem pre post)

theorem mem_addPrefixes (kept given : List Key) (pre : Key) :
    pre ∈ addPrefixes kept given ↔ pre ∈ kept ∨ pre ∈ given := by
  constructor
  · intro mem
    exact mem_append.mp (addPrefixes_subset kept given mem)
  rintro (old | new)
  · exact (subset_addPrefixes kept given).1 old
  · exact (subset_addPrefixes kept given).2 new

theorem rampStep_grown {old : Ramp} (stands : v.ramp = some old) (res : v.rampStep t = .ok np) :
    np = { v with state := .ramping, ramp := some (grownRamp old t) } ∧
      Grown old (grownRamp old t).ratio (grownRamp old t).prefixes ∧
      ((grownRamp old t).ratio ≠ 0 ∨ (grownRamp old t).prefixes ≠ []) ∧
      (t.hold = false → ∀ h, old.hold = some h → WithinHold old h (grownRamp old t)) := by
  simp only [Placement.rampStep, stands, getD_some, Placement.fail] at res
  split at res
  · cases res
  rename_i hash
  split at res
  · cases res
  rename_i shrinks
  split at res
  · cases res
  rename_i changes
  have ratio : ¬ (grownRamp old t).ratio < old.ratio := by
    simp only [grownRamp]
    split
    · rename_i given
      exact fun below => shrinks ⟨given, below⟩
    · exact Number.lt_irrefl
  have grown : Grown old (grownRamp old t).ratio (grownRamp old t).prefixes :=
    ⟨not_not.mp hash, ratio, (subset_addPrefixes old.prefixes t.prefixes).1⟩
  have some_ : (grownRamp old t).ratio ≠ 0 ∨ (grownRamp old t).prefixes ≠ [] := by
    by_contra empty
    push Not at empty
    have noPrefix : old.prefixes = [] := by
      have subset := grown.prefixes
      rw [empty.2] at subset
      exact subset_nil.mp subset
    refine changes ⟨?_, by rw [empty.2, noPrefix]⟩
    by_cases given : t.ratio ≠ 0
    · exact absurd empty.1 (by simpa only [grownRamp, if_pos given] using given)
    · simp only [grownRamp, if_neg given] at empty ⊢
      rw [empty.1]
      rfl
  cases pending : (if t.hold then none else old.hold) with
  | none =>
    simp only [pending] at res
    cases res
    refine ⟨rfl, grown, some_, ?_⟩
    intro inForce h held
    simp [inForce, held] at pending
  | some h =>
    simp only [pending] at res
    split at res
    · cases res
    rename_i isIn
    split at res
    · cases res
    rename_i bounded
    cases res
    refine ⟨rfl, grown, some_, ?_⟩
    intro inForce h' held
    rw [inForce, if_neg Bool.false_ne_true, held] at pending
    cases pending
    refine ⟨bounded, ?_⟩
    intro pre mem
    have missed := find?_eq_none.mp isIn pre mem
    simp only [Bool.and_eq_true, decide_eq_true_eq, not_and, not_not] at missed
    by_cases kept : pre ∈ old.prefixes
    · exact .inl kept
    · exact .inr (missed kept)

inductive RoleStep (v : Placement) (t : Transition) : Placement → Prop where
  | leave {s ramp target name barrier}
      (active : v.state = .active) (shift : Shift t.kind v.state v.ramp s ramp)
      (named : target ≠ "" ∧ name ≠ "" ∧ target ≠ v.primary)
      (noted : v.target ≠ "" → target = v.target ∧ name = nameIn v.names v.target)
      (given : v.target = "" → target = t.target ∧ name = t.name) :
      RoleStep v t { v with
        state := s, source := v.primary, primary := target, target := ""
        names := v.names.insert target name, ramp := ramp, barrier := barrier }
  | within {s ramp cutover barrier} (moves : v.state ≠ .active) (still : s ≠ .active)
      (shift : Shift t.kind v.state v.ramp s ramp) :
      RoleStep v t { v with state := s, ramp := ramp, cutover := cutover, barrier := barrier }
  | unwind (shift : Shift t.kind v.state v.ramp .active none) (freed : t.release = true) :
      RoleStep v t { v with
        barrier := none, state := .active, primary := v.source, source := "",
        target := v.primary, ramp := none }
  | finish (shift : Shift t.kind v.state v.ramp .active none) (cutover : v.state = .cutover)
      (inForce : t.release = false) : RoleStep v t v.finish

theorem release_step {q : Placement} (freed : t.release)
    (res : v.release t.barrier = .ok q) : RoleStep v t q := by
  have kind : t.kind = .release := by simp [Transition.kind, freed]
  unfold Placement.release at res
  cases stands : v.ramp with
  | none => simp [stands] at res
  | some =>
    simp only [stands] at res
    split at res
    · cases res
    rename_i holds
    push Not at holds
    obtain ⟨h, held⟩ := ne_none_iff_exists'.mp holds.2
    split at res
    · cases res
    split at res
    · rename_i empty
      cases res
      refine .unwind ?_ freed
      rw [kind, holds.1, stands]
      exact .releaseFirst held empty.1 empty.2
    rename_i some_
    cases res
    refine .within ?_ ?_ ?_
    all_goals rw [holds.1]
    · simp
    · simp
    · rw [kind, stands]
      exact .release held (by tauto)

/-- What the switch on the two states accepts, and the shift it makes before the
step is closed. -/
inductive Stepped (v : Placement) (t : Transition) : Placement → Prop where
  | leaveRamping (active : v.state = .active)
      (named : t.target ≠ "" ∧ t.name ≠ "" ∧ t.target ≠ v.primary)
      (some_ : t.ratio ≠ 0 ∨ t.prefixes ≠ []) :
      Stepped v t { v with
        state := .ramping, source := v.primary, primary := t.target, target := "",
        names := v.names.insert t.target t.name,
        ramp := some { hash := rampHash, ratio := t.ratio, prefixes := t.prefixes } }
  | leaveWhole (active : v.state = .active)
      (named : t.target ≠ "" ∧ t.name ≠ "" ∧ t.target ≠ v.primary) :
      Stepped v t { v with
        state := .migrating, source := v.primary, primary := t.target, target := "",
        names := v.names.insert t.target t.name }
  | grow {old} (ramping : v.state = .ramping) (stands : v.ramp = some old)
      (grown : Grown old (grownRamp old t).ratio (grownRamp old t).prefixes)
      (some_ : (grownRamp old t).ratio ≠ 0 ∨ (grownRamp old t).prefixes ≠ [])
      (within : t.hold = false → ∀ h, old.hold = some h → WithinHold old h (grownRamp old t)) :
      Stepped v t { v with state := .ramping, ramp := some (grownRamp old t) }
  | migrate {old} (ramping : v.state = .ramping) (stands : v.ramp = some old)
      (all : t.hold = false → ∀ h, old.hold = some h → ¬ h.ratio < 1) :
      Stepped v t { v with state := .migrating, ramp := none }
  | cutover (migrating : v.state = .migrating) (inForce : t.hold = false) :
      Stepped v t { v with state := .cutover, cutover := t.cutover }
  | finish (cutover : v.state = .cutover) (inForce : t.hold = false) : Stepped v t v.finish

theorem leave_stepped {to_ : State}
    (active : v.state = .active) (lawful : to_ = .ramping ∨ to_ = .migrating)
    (res : v.leave t to_ = .ok np) : Stepped v t np := by
  unfold Placement.leave at res
  split at res
  · cases res
  rename_i given
  push Not at given
  split at res
  · cases res
  rename_i ne
  split at res
  · rename_i ramping
    subst ramping
    split at res
    · cases res
    rename_i some_
    cases res
    exact .leaveRamping active ⟨given.1, given.2, ne⟩ (by tauto)
  rename_i all
  cases res
  rw [lawful.resolve_left all]
  exact .leaveWhole active ⟨given.1, given.2, ne⟩

theorem heldBelowOne_false {old : Ramp} (stands : v.ramp = some old)
    (all : ¬ v.heldBelowOne) : ∀ h, old.hold = some h → ¬ h.ratio < 1 := by
  intro h held
  simp only [Placement.heldBelowOne, stands, held, decide_eq_true_eq] at all
  exact all

theorem stepTo_stepped {to_ : State} (ramped : Ramped v.state v.ramp) (lawful : legal v.state to_)
    (inForce : t.hold → to_ = .ramping ∨ to_ = .migrating)
    (res : v.stepTo t to_ = .ok np) : Stepped v t np := by
  unfold Placement.stepTo at res
  have unheld : to_ ≠ .ramping → to_ ≠ .migrating → t.hold = false := by
    intro notRamping notMigrating
    by_contra held
    rcases inForce (by simpa using held) with eq | eq
    · exact notRamping eq
    · exact notMigrating eq
  cases state : v.state with
  | active =>
    rw [if_pos state] at res
    refine leave_stepped state ?_ res
    rw [state] at lawful
    cases to_ <;> simp [legal] at lawful ⊢
  | ramping =>
    rw [state] at lawful ramped
    obtain ⟨old, stands⟩ := ne_none_iff_exists'.mp (ramped.present.mp rfl)
    rw [if_neg (by rw [state]; simp)] at res
    cases to_ with
    | ramping =>
      rw [if_pos ⟨state, rfl⟩] at res
      obtain ⟨eq, grown, some_, within⟩ := rampStep_grown stands res
      rw [eq]
      exact .grow state stands grown some_ within
    | migrating =>
      simp only [reduceCtorEq, and_false, if_false, if_true] at res
      split at res
      · cases res
      rename_i all
      cases res
      refine .migrate state stands fun step => heldBelowOne_false stands ?_
      exact fun below => all ⟨below, step⟩
    | active | cutover => cases lawful
  | migrating =>
    rw [state] at lawful
    cases to_ with
    | cutover =>
      simp only [state, reduceCtorEq, false_and, if_false, if_true] at res
      cases res
      exact .cutover state (unheld (by simp) (by simp))
    | active | ramping | migrating => cases lawful
  | cutover =>
    rw [state] at lawful
    cases to_ with
    | active =>
      simp only [state, reduceCtorEq, false_and, true_and, if_false, if_true] at res
      cases res
      exact .finish state (unheld (by simp) (by simp))
    | cutover | ramping | migrating => cases lawful

/-- The checks a step passes, with the transition after it inherits a recorded target. -/
structure Accepted (v : Placement) (t t' : Transition) (to_ : State) (np : Placement) : Prop where
  named : t.toState = some to_
  barrier : v.checkBarrier t = .ok ()
  lawful : v.checkLegal t to_ = .ok ()
  inherits : v.inheritTarget t = .ok t'
  fields : v.checkFields t' to_ = .ok ()
  step : v.stepTo t' to_ = .ok np

theorem applyRoles_accepted {q : Placement} (inForce : t.release = false)
    (res : v.applyRoles t = .ok q) :
    ∃ t' to_ np, Accepted v t t' to_ np ∧ q = v.closeStep np t' := by
  unfold Placement.applyRoles at res
  rw [if_neg (ne_true_of_eq_false inForce)] at res
  cases barrier : v.checkBarrier t with
  | error => simp [barrier] at res
  | ok =>
    simp only [barrier] at res
    cases named : t.toState with
    | none => simp [named, Placement.fail] at res
    | some to_ =>
      simp only [named] at res
      cases lawful : v.checkLegal t to_ with
      | error => simp [lawful] at res
      | ok =>
        simp only [lawful] at res
        cases inherits : v.inheritTarget t with
        | error => simp [inherits] at res
        | ok t' =>
          simp only [inherits] at res
          cases fields : v.checkFields t' to_ with
          | error => simp [fields] at res
          | ok =>
            simp only [fields] at res
            cases step : v.stepTo t' to_ with
            | error => simp [step] at res
            | ok np =>
              simp only [step, Except.ok.injEq] at res
              exact ⟨t', to_, np, ⟨named, barrier, lawful, inherits, fields, step⟩, res.symm⟩

theorem checkLegal_ok {to_ : State} (ok : v.checkLegal t to_ = .ok ()) :
    (t.hold → to_ = .ramping ∨ to_ = .migrating) ∧ (t.hold → heldRamp v.ramp = false) ∧
      (t.complete → v.held = true) ∧ legal v.state to_ ∧
      (v.state ≠ .active → t.target = "" ∧ t.name = "") := by
  unfold Placement.checkLegal at ok
  split at ok
  · cases ok
  rename_i kind
  split at ok
  · cases ok
  rename_i fresh
  split at ok
  · cases ok
  rename_i complete
  split at ok
  · cases ok
  rename_i lawful
  split at ok
  · cases ok
  rename_i plain
  refine ⟨by tauto, ?_, ?_, by simpa using lawful, by tauto⟩
  · intro hold
    simpa [hold] using fresh
  · intro done
    simpa [done] using complete

theorem inheritTarget_ok {t' : Transition} (ok : v.inheritTarget t = .ok t') :
    ∃ target name, t' = { t with target := target, name := name } ∧
      (v.state = .active → v.target ≠ "" → target = v.target ∧ name = nameIn v.names v.target) ∧
      (v.state ≠ .active ∨ v.target = "" → target = t.target ∧ name = t.name) := by
  unfold Placement.inheritTarget at ok
  split at ok
  · rename_i noted
    iterate 2
      split at ok
      · cases ok
    · cases ok
      exact ⟨_, _, rfl, fun _ _ => ⟨rfl, rfl⟩, fun other => absurd noted (by tauto)⟩
  rename_i plain
  cases ok
  exact ⟨_, _, rfl, fun active given => absurd ⟨active, given⟩ plain, fun _ => ⟨rfl, rfl⟩⟩

theorem hold_step {t' : Transition} (ramped : Ramped v.state v.ramp)
    (stepped : Stepped v t' np) (hold : t'.hold) (kind : t.kind = .hold)
    (unheld : ∀ old, v.ramp = some old → old.hold = none)
    (noted : v.state = .active → v.target ≠ "" →
      t'.target = v.target ∧ t'.name = nameIn v.names v.target)
    (given : v.state ≠ .active ∨ v.target = "" → t'.target = t.target ∧ t'.name = t.name) :
    RoleStep v t (v.holdStep np t') := by
  have atRest : v.state = .active → v.ramp = none := fun active =>
    ramped.noRamp (by rw [active]; simp)
  unfold Placement.holdStep
  cases stepped with
  | leaveRamping active named | leaveWhole active named =>
    simp only [Placement.rampInForce, active]
    refine .leave active ?_ named (noted active) (fun none => given (.inr none))
    rw [kind, active, atRest active]
    exact .leaveHeld _
  | @grow old ramping stands grown some_ within =>
    simp only [Placement.rampInForce, ramping, stands, heldKeys]
    refine .within (by rw [ramping]; simp) (by simp) ?_
    rw [kind, ramping, stands]
    exact .holdGrowth (unheld old stands) grown
  | @migrate old ramping stands =>
    simp only [Placement.rampInForce, ramping, stands, heldKeys]
    refine .within (by rw [ramping]; simp) (by simp) ?_
    rw [kind, ramping, stands]
    exact .holdWhole (unheld old stands)
  | cutover migrating step | finish cutover step =>
    rw [step] at hold
    cases hold

theorem close_step {t' : Transition} {barrier : Option Barrier}
    (ramped : Ramped v.state v.ramp) (stepped : Stepped v t' np) (step : t'.hold = false)
    (kind : t.kind = .step) (inForce : t.release = false)
    (ends : np.barrier = barrier ∨ barrier = none) (noted : v.state = .active → v.target ≠ "" →
      t'.target = v.target ∧ t'.name = nameIn v.names v.target)
    (given : v.state ≠ .active ∨ v.target = "" → t'.target = t.target ∧ t'.name = t.name) :
    RoleStep v t { np with barrier := barrier } := by
  have noRamp : v.state ≠ .ramping → v.ramp = none := ramped.noRamp
  cases stepped with
  | leaveRamping active named some_ =>
    refine .leave active ?_ named (noted active) (fun none => given (.inr none))
    rw [kind, active, noRamp (by rw [active]; simp)]
    exact .leave some_
  | leaveWhole active named =>
    refine .leave active ?_ named (noted active) (fun none => given (.inr none))
    rw [kind, active, noRamp (by rw [active]; simp)]
    exact .leaveWhole
  | grow ramping stands grown some_ within =>
    refine .within (by rw [ramping]; simp) (by simp) ?_
    rw [kind, ramping, stands]
    exact .grow grown some_ (within step)
  | migrate ramping stands all =>
    refine .within (by rw [ramping]; simp) (by simp) ?_
    rw [kind, ramping, stands]
    exact .migrate (all step)
  | cutover migrating =>
    refine .within (by rw [migrating]; simp) (by simp) ?_
    rw [kind, migrating, noRamp (by rw [migrating]; simp)]
    exact .cutover
  | finish cutover =>
    have cleared : barrier = none := by
      rcases ends with eq | none
      · exact eq.symm
      · exact none
    subst cleared
    refine .finish ?_ cutover inForce
    rw [kind, cutover, noRamp (by rw [cutover]; simp)]
    exact .finish

theorem applyRoles_step {q : Placement} (ramped : Ramped v.state v.ramp)
    (res : v.applyRoles t = .ok q) : RoleStep v t q := by
  by_cases freed : t.release
  · unfold Placement.applyRoles at res
    rw [if_pos freed] at res
    exact release_step freed res
  have inForce : t.release = false := by simpa using freed
  obtain ⟨t', to_, np, ok, closed⟩ := applyRoles_accepted inForce res
  obtain ⟨kinds, fresh, -, lawful, -⟩ := checkLegal_ok ok.lawful
  obtain ⟨target, name, eq, noted, given⟩ := inheritTarget_ok ok.inherits
  have stepped := stepTo_stepped ramped lawful (by rw [eq]; exact kinds) ok.step
  subst eq closed
  unfold Placement.closeStep
  by_cases hold : t.hold
  · rw [if_pos hold]
    refine hold_step ramped stepped hold (by simp [Transition.kind, inForce, hold]) ?_ noted given
    intro old stands
    simpa [heldRamp, stands] using fresh hold
  have step : t.hold = false := by simpa using hold
  have kind : t.kind = .step := by simp [Transition.kind, inForce, step]
  rw [if_neg hold]
  split
  · exact close_step ramped stepped step kind inForce (.inr rfl) noted given
  · exact close_step ramped stepped step kind inForce (.inl rfl) noted given

end Shunt.Directory
