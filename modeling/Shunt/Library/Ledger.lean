/-
Tokens handed out and given back.  A ledger keeps the tokens that are out and, for
those given back, how each one ended; it is what a running count is compared with.
-/

import Mathlib.Data.List.Count

namespace Shunt.Library

open List

structure Ledger (T O : Type) where
  out : List T := []
  ended : List (T × O) := []

namespace Ledger

variable {T O : Type} {l : Ledger T O} {t : T} {o : O} {p : T → Bool} {q : O → Bool}

def issue (l : Ledger T O) (t : T) : Ledger T O := { l with out := t :: l.out }

def issued (l : Ledger T O) : List T := l.out ++ l.ended.map Prod.fst

def outCount (l : Ledger T O) (p : T → Bool) : Nat := l.out.countP p

def endedCount (l : Ledger T O) (p : T → Bool) (q : O → Bool) : Nat :=
  l.ended.countP fun e => p e.1 && q e.2

def issuedCount (l : Ledger T O) (p : T → Bool) : Nat := l.issued.countP p

theorem outCount_issue : (l.issue t).outCount p = l.outCount p + if p t then 1 else 0 := by
  simp only [outCount, issue, countP_cons]

theorem issuedCount_issue : (l.issue t).issuedCount p = l.issuedCount p + if p t then 1 else 0 := by
  simp only [issuedCount, issued, issue, cons_append, countP_cons]

theorem settled_of_counts (none_out : l.outCount p = 0) (none_ended : l.endedCount p q = 0)
    (handed : t ∈ l.issued) (of_kind : p t) :
    t ∉ l.out ∧ (∃ o, (t, o) ∈ l.ended) ∧ ∀ o, (t, o) ∈ l.ended → q o = false := by
  have gone : t ∉ l.out := fun mem => countP_eq_zero.mp none_out t mem of_kind
  refine ⟨gone, ?_, ?_⟩
  · rcases mem_append.mp handed with mem | mem
    · exact absurd mem gone
    obtain ⟨⟨back, o⟩, entry, eq⟩ := List.mem_map.mp mem
    cases eq
    exact ⟨o, entry⟩
  intro o entry
  have uncounted := countP_eq_zero.mp none_ended (t, o) entry
  simpa only [of_kind, Bool.true_and, Bool.not_eq_true] using uncounted

section

variable [DecidableEq T]

def settle (l : Ledger T O) (t : T) (o : O) : Ledger T O :=
  { out := l.out.erase t, ended := (t, o) :: l.ended }

theorem outCount_settle (mem : t ∈ l.out) :
    l.outCount p = (l.settle t o).outCount p + if p t then 1 else 0 := by
  have split := (perm_cons_erase mem).countP_eq p
  rw [countP_cons] at split
  exact split

theorem endedCount_settle :
    (l.settle t o).endedCount p q = l.endedCount p q + if p t && q o then 1 else 0 := by
  simp only [endedCount, settle, countP_cons]

theorem issuedCount_settle (mem : t ∈ l.out) : (l.settle t o).issuedCount p = l.issuedCount p := by
  have out := outCount_settle (p := p) (o := o) mem
  simp only [outCount] at out
  simp only [issuedCount, issued, settle, map_cons, countP_append, countP_cons] at out ⊢
  omega

end

end Ledger

end Shunt.Library
