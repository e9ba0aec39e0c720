/-
Whose a barrier is.  Every change of a placement that names a barrier id finds its own
barrier there or is refused, with one exception: a step that is held writes its barrier
over whatever the placement carries.
-/

import Shunt.Directory.Dispatch
import Shunt.Directory.Mutations

namespace Shunt.Directory

open Config (Barrier)

inductive BarrierChange where
  | apply (expected : State) (t : Transition)
  | setReadOnly (readOnly reject : Bool) (barrier : String)
  | set (b : Barrier)
  | clear (id : String)
  | releaseReadOnly (id : String) (readOnly reject : Bool)

namespace BarrierChange

def id : BarrierChange → String
  | .apply _ t => t.barrier
  | .setReadOnly _ _ barrier => barrier
  | .set b => b.id
  | .clear id => id
  | .releaseReadOnly id _ _ => id

def run (f : File) (tenant bucket : String) : BarrierChange → Except MutationError File
  | .apply expected t => f.setState tenant bucket expected t
  | .setReadOnly readOnly reject barrier =>
    f.setPlacementReadOnly tenant bucket readOnly reject barrier
  | .set b => f.setBarrier tenant bucket b
  | .clear id => f.clearBarrier tenant bucket id
  | .releaseReadOnly id readOnly reject =>
    f.releaseReadOnly ("placement:" ++ placementKey tenant bucket) id readOnly reject

def holds : BarrierChange → Bool
  | .apply _ t => t.hold && !t.release
  | _ => false

end BarrierChange

/-- The barrier is still there, with the hold and the switch it may guard. -/
structure KeepsBarrier (p q : Placement) : Prop where
  barrier : q.barrier = p.barrier
  held : q.held = p.held
  readOnly : q.readOnly = p.readOnly
  rejectWrites : q.rejectWrites = p.rejectWrites

section

variable {p q v nv : Placement} {t : Transition} {b : Barrier} {f f' : File}
  {tenant bucket id : String}

theorem carries_iff (carried : p.barrier = some b) : p.carries id ↔ b.id = id := by
  unfold Placement.carries
  rw [carried]
  simp

theorem applyRoles_other (named : t.barrier ≠ "") (other : v.carries t.barrier = false)
    (res : v.applyRoles t = .ok nv) :
    t.hold ∧ t.release = false ∧ nv.barrier = some ⟨t.barrier, .mutations⟩ := by
  cases releases : t.release with
  | true =>
    unfold Placement.applyRoles Placement.release at res
    rw [if_pos releases] at res
    dsimp only at res
    split at res
    · cases res
    rw [other] at res
    split at res
    · cases res
    · rw [if_pos ⟨named, rfl⟩] at res
      cases res
  | false =>
    have hold : t.hold := by
      by_contra free
      rw [Bool.not_eq_true] at free
      unfold Placement.applyRoles Placement.checkBarrier at res
      rw [if_neg (by simp [releases]), if_pos ⟨named, free, other⟩] at res
      cases res
    obtain ⟨t', to_, np, ok, rfl⟩ := applyRoles_accepted releases res
    obtain ⟨target, name, rfl, -, -⟩ := inheritTarget_ok ok.inherits
    refine ⟨hold, rfl, ?_⟩
    unfold Placement.closeStep
    rw [if_pos hold]
    exact if_pos named

theorem apply_other (carried : p.barrier = some b) (named : t.barrier ≠ "")
    (other : b.id ≠ t.barrier) (res : p.apply t = .ok q) :
    t.hold ∧ t.release = false ∧ q.barrier = some ⟨t.barrier, .mutations⟩ := by
  have gone : ∀ {u : Placement}, u.barrier = some b → u.carries t.barrier = false := by
    intro u is_
    rw [← Bool.not_eq_true, carries_iff is_]
    exact other
  cases apply_dispatched res with
  | @roles t' eq view =>
    rw [← eq.barrier] at named gone ⊢
    rw [← eq.hold, ← eq.release]
    exact applyRoles_other named (gone carried) view
  | @move t' m nv moves eq view barrier =>
    rw [← eq.barrier] at named gone ⊢
    rw [← eq.hold, ← eq.release, barrier]
    exact applyRoles_other named (@gone (p.moveView m) carried) view
  | @first t' legs src nv eq view barrier =>
    rw [← eq.barrier] at named ⊢
    rw [← eq.hold, ← eq.release, barrier]
    exact applyRoles_other named rfl view

theorem switch_set_other {s : Switch} {what : String} {readOnly reject : Bool}
    (carried : s.barrier = some b) (named : id ≠ "") (other : s.carries id = false) :
    ∃ e, s.set what readOnly reject id = .error e := by
  unfold Switch.set
  cases readOnly with
  | false =>
    rw [if_pos ⟨rfl, named, other⟩]
    exact ⟨_, rfl⟩
  | true =>
    rw [if_neg (by simp)]
    split
    · exact ⟨_, rfl⟩
    · rw [if_pos ⟨rfl, named, by rw [carried]; exact Option.some_ne_none _, other⟩]
      exact ⟨_, rfl⟩

theorem changePlacement_at {k : String} {missing : MutationError}
    {change : Placement → Except MutationError Placement} (at_ : f.placements[k]? = some p)
    (done : f.changePlacement k missing change = .ok f') :
    ∃ q, change p = .ok q ∧ f'.placements[k]? = some q := by
  obtain ⟨p', q, got, diff, rfl⟩ := changePlacement_ok done
  rw [at_] at got
  cases got
  exact ⟨q, diff, Std.ExtTreeMap.getElem?_insert_self⟩

theorem change_other {c : BarrierChange} (at_ : f.placements[placementKey tenant bucket]? = some p)
    (carried : p.barrier = some b) (named : c.id ≠ "") (other : b.id ≠ c.id)
    (done : c.run f tenant bucket = .ok f') :
    c.holds ∧ ∃ q, f'.placements[placementKey tenant bucket]? = some q ∧
      q.barrier = some ⟨c.id, .mutations⟩ := by
  have gone : p.switch.carries c.id = false := by
    unfold Switch.carries
    change Option.any _ p.barrier = false
    rw [carried]
    simpa using other
  cases c with
  | apply expected t =>
    obtain ⟨q, diff, post⟩ := changePlacement_at at_ done
    split at diff
    · cases diff
    cases res : p.apply t with
    | error =>
      rw [res] at diff
      cases diff
    | ok =>
      rw [res] at diff
      cases diff
      obtain ⟨hold, going, barrier⟩ := apply_other carried named other res
      exact ⟨by rw [BarrierChange.holds, hold, going]; rfl, q, post, barrier⟩
  | setReadOnly readOnly reject barrier =>
    obtain ⟨e, fails⟩ := @switch_set_other b barrier p.switch (placementKey tenant bucket)
      readOnly reject carried named gone
    obtain ⟨q, diff, -⟩ := changePlacement_at at_ done
    rw [fails] at diff
    cases diff
  | set =>
    obtain ⟨q, diff, -⟩ := changePlacement_at at_ done
    rw [carried] at diff
    dsimp only at diff
    split at diff
    · cases diff
    · cases diff
  | clear id =>
    obtain ⟨q, diff, -⟩ := changePlacement_at at_ done
    unfold Switch.clear at diff
    change p.switch.carries id = false at gone
    rw [if_pos gone] at diff
    cases diff
  | releaseReadOnly id =>
    unfold BarrierChange.run File.releaseReadOnly at done
    rw [cutPrefix_other _ (by decide), cutPrefix_append] at done
    obtain ⟨q, diff, -⟩ := changePlacement_at at_ done
    unfold Switch.release at diff
    change p.switch.carries id = false at gone
    rw [if_pos gone] at diff
    cases diff

/-- On a placement that carries a barrier, a change that names another one and is no held step is
refused; an accepted one leaves the barrier and what it guards exactly when it is no held step. -/
theorem barrier_kept_iff (c : BarrierChange)
    (at_ : f.placements[placementKey tenant bucket]? = some p) (carried : p.barrier = some b)
    (named : c.id ≠ "") (other : b.id ≠ c.id) :
    (c.holds = false → ∃ e, c.run f tenant bucket = .error e) ∧
    ∀ f', c.run f tenant bucket = .ok f' →
      ((∃ q, f'.placements[placementKey tenant bucket]? = some q ∧ KeepsBarrier p q) ↔
        c.holds = false) := by
  constructor
  · intro free
    cases done : c.run f tenant bucket with
    | error e => exact ⟨e, rfl⟩
    | ok =>
      have held := (change_other at_ carried named other done).1
      rw [free] at held
      cases held
  intro f' done
  obtain ⟨held, q, post, barrier⟩ := change_other at_ carried named other done
  constructor
  · rintro ⟨q', post', kept⟩
    rw [post, Option.some.injEq] at post'
    subst post'
    rw [kept.barrier, carried, Option.some.injEq] at barrier
    exact absurd (congrArg Barrier.id barrier) other
  · intro free
    rw [free] at held
    cases held

end

def draining : Placement :=
  { state := .active, primary := "east", names := (∅ : StrMap String).insert "east" "acme-photos"
    readOnly := true, barrier := some ⟨"op-1", .mutations⟩ }

def drainingFile : File :=
  { version := 4, placements := (∅ : StrMap Placement).insert "acme/photos" draining }

def heldQuarter : Transition :=
  { toState := some .ramping, target := "west", name := "acme-photos-2", ratio := .num (1 / 4)
    hold := true, barrier := "op-2" }

theorem draining_not_cleared : drainingFile.placements["acme/photos"]? = some draining ∧
    ∃ e, BarrierChange.run drainingFile "acme" "photos" (.clear "op-2") = .error e := by
  have stored : drainingFile.placements[placementKey "acme" "photos"]? = some draining := by
    decide
  exact ⟨stored, (barrier_kept_iff (.clear "op-2") (f := drainingFile) (p := draining)
    (b := ⟨"op-1", .mutations⟩) stored rfl (by decide) (by decide)).1 rfl⟩

/-- The held step is accepted and its barrier takes the place of the read-only change's. -/
theorem heldQuarter_replaces :
    (draining.apply heldQuarter).map Placement.barrier = .ok (some ⟨"op-2", .mutations⟩) ∧
    ∃ f' q, BarrierChange.run drainingFile "acme" "photos" (.apply .active heldQuarter) = .ok f' ∧
      f'.placements["acme/photos"]? = some q ∧ ¬ KeepsBarrier draining q := by
  refine ⟨by decide +kernel, ?_⟩
  have ok : (BarrierChange.run drainingFile "acme" "photos"
      (.apply .active heldQuarter)).isOk = true := by decide +kernel
  cases done : BarrierChange.run drainingFile "acme" "photos" (.apply .active heldQuarter) with
  | error =>
    rw [done] at ok
    cases ok
  | ok f' =>
    obtain ⟨-, q, post, barrier⟩ := change_other (p := draining) (b := ⟨"op-1", .mutations⟩)
      (by decide) rfl (by decide) (by decide) done
    refine ⟨f', q, rfl, post, ?_⟩
    intro kept
    rw [kept.barrier] at barrier
    exact absurd barrier (by decide)

end Shunt.Directory
