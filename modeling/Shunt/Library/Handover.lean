/-
Handing one item over from a home place to a target place.  The item is at rest
at its home, or in a handover: not yet moved, held while a move of it spreads,
moved, or cut off from its home.  A step is a hold, the completion of one, the
release of one, or any other advance.
-/

import Mathlib.Tactic.Common

namespace Shunt.Library

inductive Phase where
  | rest
  | out
  | held
  | moved
  | cut
  deriving DecidableEq

inductive HandKind where
  | hold
  | complete
  | release
  | advance
  deriving DecidableEq

def Phase.steps : HandKind → Phase → Phase → Bool
  | _, .rest, .rest => true
  | .hold, .rest, .out => true
  | .hold, .rest, .held => true
  | .advance, .rest, .out => true
  | .advance, .rest, .moved => true
  | _, .out, .out => true
  | .hold, .out, .held => true
  | .advance, .out, .moved => true
  | .complete, .held, .out => true
  | .complete, .held, .moved => true
  | .release, .held, .out => true
  | _, .moved, .moved => true
  | .advance, .moved, .cut => true
  -- a first step that is released: the item was never moved
  | .release, .out, .rest => true
  | .release, .held, .rest => true
  -- the end of a handover
  | .advance, .cut, .rest => true
  | _, _, _ => false

/-- One item's handover.  At rest the target means nothing. -/
structure Hand (α : Type) where
  phase : Phase
  home : α
  target : α

variable {α : Type} {kind : HandKind} {a b c : Hand α}

def Hand.writes (hand : Hand α) : Option α :=
  match hand.phase with
  | .rest => some hand.home
  | .out => some hand.home
  | .held => none
  | .moved => some hand.target
  | .cut => some hand.target

/-- One step of one item: the target becomes the home at the end of a handover
only, and stays while the handover goes on. -/
structure HandStep (kind : HandKind) (a b : Hand α) : Prop where
  phases : a.phase.steps kind b.phase = true
  home : b.home = if a.phase = .cut ∧ b.phase = .rest then a.target else a.home
  target : a.phase ≠ .rest → b.phase ≠ .rest → b.target = a.target

theorem Hand.writes_home (early : a.phase = .rest ∨ a.phase = .out) : a.writes = some a.home := by
  unfold Hand.writes
  rcases early with eq | eq <;> rw [eq]

def Hand.gone (hand : Hand α) : Prop := hand.phase = .moved ∨ hand.phase = .cut

theorem Hand.writes_gone (gone : a.gone) : a.writes = some a.target := by
  unfold Hand.writes
  rcases gone with eq | eq <;> rw [eq]

theorem HandStep.hold_phases (hold : HandStep .hold a b) : b.home = a.home ∧
      ((a.phase = .rest ∨ a.phase = .out) ∧ (b.phase = .rest ∨ b.phase = .out ∨ b.phase = .held) ∨
        a.phase = .moved ∧ b.phase = .moved ∧ b.target = a.target) := by
  obtain ⟨phases, home, target⟩ := hold
  cases prev : a.phase <;> cases post : b.phase <;>
    simp_all [Phase.steps]

theorem HandStep.hold_covers (hold : HandStep .hold a b) (complete : HandStep .complete b c)
    (ne : a.writes ≠ c.writes) : b.writes = none := by
  obtain ⟨sameHome, ⟨early, between⟩ | ⟨prev, middle, sameTarget⟩⟩ := hold.hold_phases
  · have kept : b.phase = .rest ∨ b.phase = .out → c.home = b.home ∧
        (c.phase = .rest ∨ c.phase = .out) := by
      obtain ⟨phases, home, target⟩ := complete
      intro at_
      cases post : c.phase <;> rcases at_ with eq | eq <;> simp_all [Phase.steps]
    rcases between with rests | waiting | held
    · obtain ⟨home, late⟩ := kept (.inl rests)
      rw [Hand.writes_home early, Hand.writes_home late, home, sameHome] at ne
      exact absurd rfl ne
    · obtain ⟨home, late⟩ := kept (.inr waiting)
      rw [Hand.writes_home early, Hand.writes_home late, home, sameHome] at ne
      exact absurd rfl ne
    · simp [Hand.writes, held]
  · have post : c.phase = .moved ∧ c.target = b.target := by
      obtain ⟨phases, home, target⟩ := complete
      cases later : c.phase <;> simp_all [Phase.steps]
    rw [Hand.writes_gone (.inl prev), Hand.writes_gone (.inl post.1), post.2, sameTarget] at ne
    exact absurd rfl ne

theorem HandStep.release_restores (hold : HandStep .hold a b) (release : HandStep .release b c) :
    c.writes = a.writes := by
  obtain ⟨sameHome, ⟨early, between⟩ | ⟨prev, middle, sameTarget⟩⟩ := hold.hold_phases
  · have post : c.home = b.home ∧ (c.phase = .rest ∨ c.phase = .out) := by
      obtain ⟨phases, home, target⟩ := release
      cases later : c.phase <;> rcases between with eq | eq | eq <;>
        simp_all [Phase.steps]
    rw [Hand.writes_home early, Hand.writes_home post.2, post.1, sameHome]
  have post : c.phase = .moved ∧ c.target = b.target := by
    obtain ⟨phases, home, target⟩ := release
    cases later : c.phase <;> simp_all [Phase.steps]
  rw [Hand.writes_gone (.inl prev), Hand.writes_gone (.inl post.1), post.2, sameTarget]

theorem HandStep.gone_stays (step : HandStep kind a b) (gone : a.gone) :
    b.gone ∧ b.target = a.target ∧ b.home = a.home ∨ b.phase = .rest ∧ b.home = a.target := by
  obtain ⟨phases, home, target⟩ := step
  cases kind <;> cases post : b.phase <;> rcases gone with eq | eq <;>
    simp_all [Phase.steps, Hand.gone]

theorem HandStep.ends (step : HandStep kind a b) (going : a.phase ≠ .rest)
    (rests : b.phase = .rest) :
    kind = .release ∧ a.phase ≠ .cut ∨ kind = .advance ∧ a.phase = .cut := by
  have phases := step.phases
  rw [rests] at phases
  cases kind <;> cases prev : a.phase <;> simp_all [Phase.steps]

/-- The item is written at a place: at rest there, or gone there. -/
def Hand.settledAt (hand : Hand α) (place : α) : Prop :=
  hand.phase = .rest ∧ hand.home = place ∨ hand.gone ∧ hand.target = place

theorem Hand.writes_settled {place : α} (settled : a.settledAt place) : a.writes = some place := by
  rcases settled with ⟨rests, home⟩ | ⟨gone, target⟩
  · rw [Hand.writes_home (.inl rests), home]
  · rw [Hand.writes_gone gone, target]

theorem HandStep.settled_stays {place : α} (step : HandStep kind a b)
    (noStart : a.phase = .rest → b.phase = .rest) (settled : a.settledAt place) :
    b.settledAt place := by
  rcases settled with ⟨rests, home⟩ | ⟨gone, target⟩
  · have eq : b.home = a.home := by
      rw [step.home, if_neg (by simp [rests])]
    exact .inl ⟨noStart rests, eq.trans home⟩
  rcases step.gone_stays gone with ⟨still, sameTarget, -⟩ | ⟨rests, home⟩
  · exact .inr ⟨still, sameTarget.trans target⟩
  · exact .inl ⟨rests, home.trans target⟩

end Shunt.Library
