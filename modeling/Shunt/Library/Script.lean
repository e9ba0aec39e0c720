/-
Programs that call a service and go on with its replies, and their runs against a service
whose replies and effects are a relation: what a run of a composed program is made of.
-/

import Mathlib.Tactic.Common

namespace Shunt.Library

variable {C R A B W : Type}

/-- A program that has ended, or that makes a call and goes on with the reply. -/
inductive Script (C R A : Type) where
  | done (a : A)
  | call (c : C) (next : R → Script C R A)

def Script.bind : Script C R A → (A → Script C R B) → Script C R B
  | .done a, k => k a
  | .call c next, k => .call c fun r => (next r).bind k

/-- A run of a program: its calls with their replies, its result and the world it leaves. -/
inductive Runs (serves : W → C → R → W → Prop) : W → Script C R A → List (C × R) → A → W → Prop
    where
  | done {w : W} {a : A} : Runs serves w (.done a) [] a w
  | call {w w₁ w₂ : W} {c : C} {r : R} {next : R → Script C R A} {trace : List (C × R)} {a : A}
      (served : serves w c r w₁) (rest : Runs serves w₁ (next r) trace a w₂) :
      Runs serves w (.call c next) ((c, r) :: trace) a w₂

variable {serves : W → C → R → W → Prop} {w w' : W} {a b : A} {c : C}
  {trace : List (C × R)}

theorem done_iff : Runs serves w (.done b) trace a w' ↔ trace = [] ∧ a = b ∧ w' = w := by
  constructor
  · intro run
    cases run
    exact ⟨rfl, rfl, rfl⟩
  · rintro ⟨rfl, rfl, rfl⟩
    exact .done

theorem call_iff {next : R → Script C R A} : Runs serves w (.call c next) trace a w' ↔
      ∃ r w₁ rest, serves w c r w₁ ∧ Runs serves w₁ (next r) rest a w' ∧
        trace = (c, r) :: rest := by
  constructor
  · intro run
    cases run with
    | call served rest => exact ⟨_, _, _, served, rest, rfl⟩
  · rintro ⟨r, w₁, rest, served, run, rfl⟩
    exact .call served run

theorem bind_iff {p : Script C R A} {k : A → Script C R B} {b : B} :
    Runs serves w (p.bind k) trace b w' ↔
      ∃ a w₁ first second, Runs serves w p first a w₁ ∧ Runs serves w₁ (k a) second b w' ∧
        trace = first ++ second := by
  induction p generalizing w trace with
  | done a =>
    constructor
    · intro run
      exact ⟨a, w, [], trace, .done, run, rfl⟩
    rintro ⟨a', w₁, first, second, prev, post, rfl⟩
    obtain ⟨rfl, rfl, rfl⟩ := done_iff.mp prev
    exact post
  | call c next ih =>
    simp only [Script.bind, call_iff]
    constructor
    · rintro ⟨r, w₁, rest, served, run, rfl⟩
      obtain ⟨a, w₂, first, second, prev, post, rfl⟩ := (ih r).mp run
      exact ⟨a, w₂, (c, r) :: first, second, ⟨r, w₁, first, served, prev, rfl⟩, post, rfl⟩
    rintro ⟨a, w₂, first, second, ⟨r, w₁, rest, served, prev, rfl⟩, post, rfl⟩
    exact ⟨r, w₁, rest ++ second, served, (ih r).mpr ⟨a, w₂, rest, second, prev, post, rfl⟩, rfl⟩

end Shunt.Library
