/-
Calls in progress.  Each is a stack of what it has still to do; a turn takes the top of
one stack and puts what follows from it in its place.
-/

import Mathlib.Data.List.Perm.Basic

namespace Shunt.Library

open List

variable {A : Type} {act : A} {new : List A} {calls calls' : List (List A)}

inductive Resumes (act : A) (new : List A) : List (List A) → List (List A) → Prop where
  | here {rest : List A} {calls : List (List A)} :
      Resumes act new ((act :: rest) :: calls) ((new ++ rest) :: calls)
  | later {call : List A} {calls calls' : List (List A)} (turn : Resumes act new calls calls') :
      Resumes act new (call :: calls) (call :: calls')

theorem Resumes.trades (turn : Resumes act new calls calls') :
    ∃ others, calls.flatten.Perm (act :: others) ∧ calls'.flatten.Perm (new ++ others) := by
  induction turn with
  | @here rest calls =>
    refine ⟨rest ++ calls.flatten, ?_, ?_⟩
    · simp
    · simp
  | @later call calls calls' _ ih =>
    obtain ⟨others, prev, post⟩ := ih
    refine ⟨call ++ others, ?_, ?_⟩
    · rw [flatten_cons]
      exact (prev.append_left call).trans perm_middle
    rw [flatten_cons]
    refine (post.append_left call).trans ?_
    rw [← append_assoc, ← append_assoc]
    exact perm_append_comm.append_right others

/-- After one call of a table is set, each is that one or stands as before. -/
theorem update_some {I : Type} [DecidableEq I] {table : I → Option A} {i j : I} {c d : A}
    (at_ : Function.update table i (some c) j = some d) :
    j = i ∧ c = d ∨ j ≠ i ∧ table j = some d := by
  by_cases eq : j = i
  · rw [eq, Function.update_self, Option.some.injEq] at at_
    exact .inl ⟨eq, at_⟩
  · rw [Function.update_of_ne eq] at at_
    exact .inr ⟨eq, at_⟩

end Shunt.Library
