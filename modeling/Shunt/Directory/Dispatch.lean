/-
How Apply takes a transition: what the transition names is resolved against the form of
the placement, and the step is then made on two roles, the placement's own, those of the
move in progress, or those of the first step of one.
-/

import Shunt.Directory.RoleStep

namespace Shunt.Directory

section

variable {p q v : Placement} {t t' : Transition} {m : Move}

structure SameStep (t t' : Transition) : Prop where
  toState : t'.toState = t.toState
  ratio : t'.ratio = t.ratio
  prefixes : t'.prefixes = t.prefixes
  hold : t'.hold = t.hold
  release : t'.release = t.release
  complete : t'.complete = t.complete
  barrier : t'.barrier = t.barrier

theorem SameStep.trans {u : Transition} (first : SameStep t t') (second : SameStep t' u) :
    SameStep t u :=
  ⟨second.toState.trans first.toState, second.ratio.trans first.ratio,
    second.prefixes.trans first.prefixes, second.hold.trans first.hold,
    second.release.trans first.release, second.complete.trans first.complete,
    second.barrier.trans first.barrier⟩

theorem resolve_same (solved : p.resolve t = .ok t') : SameStep t t' := by
  have range : ∀ u : Transition, SameStep u (p.resolveRange u) := by
    intro u
    unfold Placement.resolveRange
    dsimp only
    split <;> split <;> exact ⟨rfl, rfl, rfl, rfl, rfl, rfl, rfl⟩
  have leg : ∀ u u' : Transition, p.resolveLeg u = .ok u' → SameStep u u' := by
    intro u u' res
    unfold Placement.resolveLeg at res
    split at res
    · split at res
      · cases res
      · cases res
        exact ⟨rfl, rfl, rfl, rfl, rfl, rfl, rfl⟩
    · cases res
      exact ⟨rfl, rfl, rfl, rfl, rfl, rfl, rfl⟩
  have share : ∀ u : Transition, p.resolveShare t = .ok u → SameStep t u := by
    intro u res
    unfold Placement.resolveShare Placement.fail at res
    repeat' split at res
    all_goals cases res
    all_goals exact ⟨rfl, rfl, rfl, rfl, rfl, rfl, rfl⟩
  unfold Placement.resolve at solved
  cases shared : p.resolveShare t with
  | error =>
    rw [shared] at solved
    cases solved
  | ok u =>
    rw [shared] at solved
    exact (share u shared).trans ((range u).trans (leg _ _ solved))

theorem forRoles_same : SameStep t t.forRoles := ⟨rfl, rfl, rfl, rfl, rfl, rfl, rfl⟩

theorem roleStep_same {plan : MovePlan} : SameStep t (plan.roleStep t) :=
  ⟨rfl, rfl, rfl, rfl, rfl, rfl, rfl⟩

theorem settle_barrier : p.settle.barrier = p.barrier := by
  unfold Placement.settle
  repeat' split
  all_goals rfl

theorem endMove_barrier {nv : Placement} : (p.endMove m nv).barrier = nv.barrier := by
  have given : ((p.rested nv).setScopeTable m.scope
      (reassign ((p.scopeTable m.scope).getD []) m.range m.dest)).barrier = nv.barrier := by
    unfold Placement.setScopeTable
    split
    · rfl
    · rfl
  unfold Placement.endMove
  dsimp only
  split
  · exact settle_barrier.trans given
  · exact settle_barrier.trans given

inductive Dispatched (p : Placement) (t : Transition) (q : Placement) : Prop where
  | roles {t' : _} (eq : SameStep t t') (view : p.applyRoles t' = .ok q) : Dispatched p t q
  | move {t' m nv : _} (moves : p.move = some m)
      (eq : SameStep t t') (view : (p.moveView m).applyRoles t' = .ok nv)
      (barrier : q.barrier = nv.barrier) : Dispatched p t q
  | first {t' legs src nv : _}
      (eq : SameStep t t') (view : (firstView legs src).applyRoles t' = .ok nv)
      (barrier : q.barrier = nv.barrier) : Dispatched p t q

theorem apply_dispatched (res : p.apply t = .ok q) : Dispatched p t q := by
  obtain ⟨u, solved, ran⟩ := apply_ran res
  have eq := resolve_same solved
  cases ran with
  | roles plain view => exact .roles eq view
  | starts plans view => exact .first (eq.trans roleStep_same) view rfl
  | steps moving repeats view => exact .move moving (eq.trans forRoles_same) view rfl
  | unwinds moving repeats view =>
    exact .move moving (eq.trans forRoles_same) view settle_barrier
  | ends moving repeats view => exact .move moving (eq.trans forRoles_same) view endMove_barrier

end

end Shunt.Directory
