/-
What a transition of a placement with two roles leaves of the ramp, the barrier and the
cutover evidence: each is sound again when the transition's own values are.
-/

import Shunt.Directory.Checks
import Shunt.Directory.Dispatch

namespace Shunt.Directory

open Config (Barrier)

section

variable {v q : Placement} {t : Transition}

inductive RolesApplied (v : Placement) (t : Transition) (q : Placement) : Prop where
  | unwound {r h} (released : t.release = true) (state : v.state = .ramping)
      (stands : v.ramp = some r) (held : r.hold = some h) (first : r.ratio = 0 ∧ r.prefixes = [])
      (eq : q = { v with
        barrier := none, state := .active, primary := v.source, source := "",
        target := v.primary, ramp := none })
  | released {r h} (released : t.release = true) (state : v.state = .ramping)
      (stands : v.ramp = some r) (held : r.hold = some h) (later : r.ratio ≠ 0 ∨ r.prefixes ≠ [])
      (eq : q = { v with barrier := none, ramp := some { r with hold := none } })
  | closed {u np} (inForce : t.release = false) (asked : SameStep t u)
      (step : Stepped v u np) (eq : q = v.closeStep np u)

theorem applyRoles_applied (ramped : Ramped v.state v.ramp) (res : v.applyRoles t = .ok q) :
    RolesApplied v t q := by
  cases released : t.release with
  | true =>
    rw [Placement.applyRoles, if_pos released] at res
    unfold Placement.release at res
    cases stands : v.ramp with
    | none => simp [stands] at res
    | some =>
      simp only [stands] at res
      split at res
      · cases res
      rename_i holds
      push Not at holds
      obtain ⟨h, held⟩ := Option.ne_none_iff_exists'.mp holds.2
      split at res
      · cases res
      split at res
      · rename_i first
        cases res
        exact .unwound released holds.1 stands held first rfl
      rename_i later
      cases res
      exact .released released holds.1 stands held (by tauto) rfl
  | false =>
    obtain ⟨u, to_, np, ok, eq⟩ := applyRoles_accepted released res
    obtain ⟨holds, -, -, lawful, -⟩ := checkLegal_ok ok.lawful
    obtain ⟨target, name, inherited, -, -⟩ := inheritTarget_ok ok.inherits
    have asked : SameStep t u := by
      rw [inherited]
      exact ⟨rfl, rfl, rfl, rfl, rfl, rfl, rfl⟩
    exact .closed released asked
      (stepTo_stepped ramped lawful (by rw [asked.hold]; exact holds) ok.step) eq

theorem rampHash_valid : validRampHashName rampHash = true := by decide

theorem Stepped.ramp {np : Placement} (prev : RampValid v.state v.ramp)
    (unit : ¬ t.ratio < 0 ∧ ¬ 1 < t.ratio) (step : Stepped v t np) :
    RampValid np.state np.ramp ∧ ∀ r, np.ramp = some r → r.hold = none := by
  have noRamp : v.state ≠ .ramping → v.ramp = none := prev.ramped.noRamp
  cases step with
  | leaveRamping active named some_ =>
    refine ⟨⟨by simp, fun r eq => ?_⟩, fun r eq => by cases eq; rfl⟩
    cases eq
    exact ⟨rampHash_valid, unit, fun _ => some_, each_none, each_none⟩
  | leaveWhole active | cutover active =>
    have none := noRamp (by rw [active]; simp)
    exact ⟨⟨by simp [none], by simp [none]⟩, by simp [none]⟩
  | @grow old ramping stands grown some_ =>
    have sound := prev.each old stands
    have ratio : ¬ (grownRamp old t).ratio < 0 ∧ ¬ 1 < (grownRamp old t).ratio := by
      simp only [grownRamp]
      split
      · exact unit
      · exact sound.ratio
    refine ⟨⟨by simp, fun r eq => ?_⟩, fun r eq => by cases eq; rfl⟩
    cases eq
    exact ⟨sound.hash, ratio, fun _ => some_, each_none, each_none⟩
  | migrate => exact ⟨⟨by simp, each_none⟩, each_none⟩
  | finish cutover =>
    have none := noRamp (by rw [cutover]; simp)
    exact ⟨⟨by simp [none, Placement.finish], by simp [none, Placement.finish]⟩,
      by simp [none, Placement.finish]⟩

theorem holdStep_ramp {np : Placement} (prev : RampValid v.state v.ramp)
    (post : RampValid np.state np.ramp) (unheld : ∀ r, np.ramp = some r → r.hold = none) :
    RampOk { v.rampInForce with hold := some (heldKeys np) } := by
  have keys : (¬ (heldKeys np).ratio < 0 ∧ ¬ 1 < (heldKeys np).ratio) ∧
      ((heldKeys np).ratio ≠ 0 ∨ (heldKeys np).prefixes ≠ []) := by
    unfold heldKeys
    cases asked : np.ramp with
    | none => exact ⟨⟨by decide, by decide⟩, .inl (by decide)⟩
    | some r =>
      have sound := post.each r asked
      exact ⟨sound.ratio, sound.moves (unheld r asked)⟩
  have base : validRampHashName v.rampInForce.hash ∧
      (¬ v.rampInForce.ratio < 0 ∧ ¬ 1 < v.rampInForce.ratio) ∧
      ∀ rg, v.rampInForce.range = some rg → rg.lo ≤ rg.hi := by
    unfold Placement.rampInForce
    split
    · rename_i r state stands
      have sound := prev.each r stands
      exact ⟨sound.hash, sound.ratio, sound.range⟩
    · exact ⟨rampHash_valid, ⟨by decide, by decide⟩, nofun⟩
  refine ⟨base.1, base.2.1, nofun, fun h eq => ?_, base.2.2⟩
  cases eq
  exact keys

theorem applyRoles_ramp (prev : RampValid v.state v.ramp) (unit : ¬ t.ratio < 0 ∧ ¬ 1 < t.ratio)
    (res : v.applyRoles t = .ok q) : RampValid q.state q.ramp := by
  cases applyRoles_applied prev.ramped res with
  | unwound released state stands held first eq =>
    rw [eq]
    exact ⟨by simp, nofun⟩
  | @released r h released state stands held later eq =>
    have sound := prev.each r stands
    rw [eq]
    refine ⟨by simp [state], fun r' stays => ?_⟩
    cases stays
    exact ⟨sound.hash, sound.ratio, fun _ => later, nofun, sound.range⟩
  | @closed u np inForce asked step eq =>
    obtain ⟨post, unheld⟩ := step.ramp prev (by rw [asked.ratio]; exact unit)
    rw [eq, Placement.closeStep]
    split
    · refine ⟨by simp [Placement.holdStep], fun r stays => ?_⟩
      cases stays
      exact holdStep_ramp prev post unheld
    split
    · exact post
    · exact post

def Transition.BarrierNamed (t : Transition) : Prop :=
  t.release = false → t.hold = true → t.barrier = "" ∨ Config.validBarrierID t.barrier = true

theorem applyRoles_barrier (ramped : Ramped v.state v.ramp) (prev : BarrierOk v.state v.barrier)
    (named : t.BarrierNamed) (res : v.applyRoles t = .ok q) : BarrierOk q.state q.barrier := by
  have unbarred : ∀ s : State, BarrierOk s none := fun s b no => nomatch no
  cases applyRoles_applied ramped res with
  | unwound released state stands held first eq
  | released released state stands held later eq =>
    rw [eq]
    exact unbarred _
  | @closed u np inForce asked step eq =>
    have kept : np.barrier = v.barrier ∧ (v.state = .cutover → np.state = .cutover) ∨
        np.barrier = none := by
      cases step with
      | leaveRamping active | leaveWhole active =>
        exact .inl ⟨rfl, fun cut => by rw [active] at cut; cases cut⟩
      | grow ramping | migrate ramping =>
        exact .inl ⟨rfl, fun cut => by rw [ramping] at cut; cases cut⟩
      | cutover => exact .inl ⟨rfl, fun _ => rfl⟩
      | finish => exact .inr rfl
    have stays : BarrierOk np.state np.barrier := by
      rcases kept with ⟨sameBarrier, cut⟩ | gone
      · rw [sameBarrier]
        intro b stands
        exact ⟨(prev b stands).1, fun source => cut ((prev b stands).2 source)⟩
      · rw [gone]
        exact unbarred _
    rw [eq, Placement.closeStep]
    split
    · rename_i hold
      rw [asked.hold] at hold
      intro b wrote
      simp only [Placement.holdStep] at wrote
      split at wrote
      · rename_i given
        cases wrote
        rcases named inForce hold with nil | valid
        · rw [asked.barrier] at given
          exact absurd nil given
        · refine ⟨?_, nofun⟩
          simp [Config.Barrier.validate, asked.barrier, valid]
      · cases wrote
    · split
      · exact unbarred _
      · exact stays

theorem applyRoles_evidence (ramped : Ramped v.state v.ramp)
    (prev : v.cutover ≠ none → v.state = .cutover) (res : v.applyRoles t = .ok q) :
    q.cutover ≠ none → q.state = .cutover := by
  cases applyRoles_applied ramped res with
  | unwound released state stands held first eq =>
    rw [eq]
    intro given
    rw [prev given] at state
    cases state
  | released released state stands held later eq =>
    rw [eq]
    intro given
    exact prev given
  | @closed u np inForce asked step eq =>
    have unset : v.state ≠ .cutover → v.cutover = none := fun other =>
      not_not.mp fun given => other (prev given)
    have shape : (u.hold → np.cutover = none) ∧
        (np.cutover ≠ none → np.state = .cutover) := by
      cases step with
      | leaveRamping active | leaveWhole active =>
        have none := unset (by rw [active]; simp)
        exact ⟨fun _ => none, fun given => absurd none given⟩
      | grow ramping | migrate ramping =>
        have none := unset (by rw [ramping]; simp)
        exact ⟨fun _ => none, fun given => absurd none given⟩
      | cutover migrating inForce =>
        exact ⟨fun hold => absurd hold (by rw [inForce]; simp), fun _ => rfl⟩
      | finish => exact ⟨fun _ => rfl, fun given => absurd rfl given⟩
    rw [eq, Placement.closeStep]
    split
    · rename_i hold
      intro given
      exact absurd (shape.1 hold) given
    split
    · exact shape.2
    · exact shape.2

def byRatio (ramp : Option Ramp) : Prop :=
  ∀ r, ramp = some r → r.prefixes = [] ∧ ∀ h, r.hold = some h → h.prefixes = []

theorem applyRoles_byRatio (ramped : Ramped v.state v.ramp) (prev : byRatio v.ramp)
    (given : t.prefixes = []) (res : v.applyRoles t = .ok q) : byRatio q.ramp := by
  cases applyRoles_applied ramped res with
  | unwound released state stands held first eq =>
    rw [eq]
    exact each_none
  | @released r h released state stands held later eq =>
    rw [eq]
    intro r' stays
    cases stays
    exact ⟨(prev r stands).1, each_none⟩
  | @closed u np inForce asked step eq =>
    have none : u.prefixes = [] := by rw [asked.prefixes, given]
    have post : byRatio np.ramp := by
      cases step with
      | leaveRamping =>
        intro r stays
        cases stays
        exact ⟨none, each_none⟩
      | leaveWhole | cutover | finish => exact prev
      | @grow old ramping stands =>
        intro r stays
        cases stays
        refine ⟨?_, each_none⟩
        simp [grownRamp, addPrefixes, none, (prev old stands).1]
      | migrate => exact each_none
    rw [eq, Placement.closeStep]
    split
    · intro r stays
      cases stays
      refine ⟨?_, fun h held => ?_⟩
      · change v.rampInForce.prefixes = []
        unfold Placement.rampInForce
        split
        · rename_i r state stands
          exact (prev r stands).1
        · rfl
      cases held
      unfold heldKeys
      cases asked : np.ramp with
      | none => rfl
      | some r => exact (post r asked).1
    · split
      · exact post
      · exact post

theorem rampsByPrefix_iff {m : Move} : m.rampsByPrefix = false ↔ byRatio m.ramp := by
  unfold Move.rampsByPrefix byRatio
  cases m.ramp with
  | none => simp
  | some r =>
    cases held : r.hold with
    | none | some => simp [held]

end

end Shunt.Directory
