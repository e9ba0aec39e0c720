/-
The copies of one item's value while it is handed over.  The places that may hold
a copy are the named ones: the item's home, its target while a handover goes on,
and others that hold none.  What a read combines is the item's value, whatever
the phase.
-/

import Shunt.Library.Handover

namespace Shunt.Library

open Option

variable {α V : Type} {named named' : α → Prop} {kind : HandKind} {a b : Hand α}
  {cells cells' : α → Option V} {value : Option V} {place : α}

def Hand.keeps (hand : Hand α) (cells : α → Option V) (value : Option V) : Prop :=
  match hand.phase with
  | .rest => cells hand.home = value
  | .out => cells hand.home = value ∧ cells hand.target = none
  | .held => cells hand.home = value ∧ cells hand.target = none
  | .moved => (cells hand.target).or (cells hand.home) = value
  | .cut => cells hand.target = value ∧ (cells hand.target = none → cells hand.home = none)

def Hand.aside (hand : Hand α) (place : α) : Prop :=
  place ≠ hand.home ∧ (hand.phase ≠ .rest → place ≠ hand.target)

structure Cells (named : α → Prop) (hand : Hand α) (cells : α → Option V)
    (value : Option V) : Prop where
  kept : hand.keeps cells value
  others : ∀ place, named place → hand.aside place → cells place = none

def Hand.reads (hand : Hand α) (cells : α → Option V) : Option V :=
  match hand.phase with
  | .rest => cells hand.home
  | .out => cells hand.home
  | .held => (cells hand.target).or (cells hand.home)
  | .moved => (cells hand.target).or (cells hand.home)
  | .cut => cells hand.target

theorem Cells.reads (holds : Cells named a cells value) : a.reads cells = value := by
  have kept := holds.kept
  unfold Hand.keeps at kept
  unfold Hand.reads
  cases phase : a.phase with
  | rest | moved => simpa only [phase] using kept
  | out | cut => simp only [phase] at kept; exact kept.1
  | held =>
    simp only [phase] at kept
    rw [kept.2, none_or]
    exact kept.1

theorem Cells.merged (holds : Cells named a cells value) (going : a.phase ≠ .rest) :
    (cells a.target).or (cells a.home) = value := by
  have kept := holds.kept
  unfold Hand.keeps at kept
  cases phase : a.phase with
  | rest => exact absurd phase going
  | out | held => simp only [phase] at kept; rw [kept.2, none_or]; exact kept.1
  | moved => simpa only [phase] using kept
  | cut =>
    simp only [phase] at kept
    cases copy : cells a.target with
    | none => rw [kept.2 copy, ← kept.1, copy]; rfl
    | some => rw [← kept.1, copy]; rfl

theorem Cells.cleared (home : cells a.home = none)
    (target : a.phase ≠ .rest → cells a.target = none)
    (others : ∀ place, named place → a.aside place → cells place = none) :
    Cells named a cells none := by
  refine ⟨?_, others⟩
  unfold Hand.keeps
  cases phase : a.phase with
  | rest => exact home
  | out | held => exact ⟨home, target (by rw [phase]; simp)⟩
  | moved => simp [home, target (by rw [phase]; simp)]
  | cut => exact ⟨target (by rw [phase]; simp), fun _ => home⟩

section

variable [DecidableEq α]

theorem Cells.write (holds : Cells named a cells value)
    (apart : a.phase ≠ .rest → a.home ≠ a.target) (wrote : a.writes = some place) (v : V) :
    Cells named a (Function.update cells place (some v)) (some v) := by
  have kept := holds.kept
  unfold Hand.keeps at kept
  unfold Hand.writes at wrote
  refine ⟨?_, ?_⟩
  · unfold Hand.keeps
    cases phase : a.phase with
    | rest | moved | cut =>
      simp only [phase, Option.some.injEq] at wrote
      simp [← wrote]
    | out =>
      simp only [phase, Option.some.injEq] at wrote kept
      have other : a.target ≠ a.home := (apart (by rw [phase]; simp)).symm
      simp [← wrote, Function.update_of_ne other, kept.2]
    | held => simp [phase] at wrote
  · intro other named_ aside
    have away : other ≠ place := by
      rintro rfl
      cases phase : a.phase with
      | rest | out => simp only [phase, Option.some.injEq] at wrote; exact aside.1 wrote.symm
      | held => simp [phase] at wrote
      | moved | cut =>
        simp only [phase, Option.some.injEq] at wrote
        exact aside.2 (by rw [phase]; simp) wrote.symm
    rw [Function.update_of_ne away]
    exact holds.others other named_ aside

theorem Cells.copy (holds : Cells named a cells value) (moved : a.phase = .moved)
    (apart : a.home ≠ a.target) (gone : cells a.target = none) :
    Cells named a (Function.update cells a.target (cells a.home)) value := by
  have kept := holds.kept
  simp only [Hand.keeps, moved, gone, none_or] at kept
  refine ⟨?_, ?_⟩
  · simp [Hand.keeps, moved, Function.update_of_ne apart, kept]
  intro place named_ aside
  rw [Function.update_of_ne (aside.2 (by rw [moved]; simp))]
  exact holds.others place named_ aside

end

/-- What a step asks of the copies: a place newly named holds none, an item is cut
off from its home only when the target has a copy of what the home has, and the end
of a handover clears a home that stays named. -/
structure CellStep (named named' : α → Prop) (a b : Hand α) (cells cells' : α → Option V) :
    Prop where
  fresh : ∀ place, named' place → ¬ named place → cells place = none
  covered : b.phase = .cut → cells a.target = none → cells a.home = none
  cleared : a.phase = .cut → b.phase = .rest → named' a.home → cells' a.home = none
  same : ∀ place, named' place → ¬ (a.phase = .cut ∧ b.phase = .rest ∧ place = a.home) →
    cells' place = cells place

theorem Hand.keeps_early (atHome : cells b.home = value)
    (free : b.phase ≠ .rest → cells b.target = none) (uncut : b.phase ≠ .cut) :
    b.keeps cells value := by
  unfold Hand.keeps
  cases phase : b.phase with
  | rest => exact atHome
  | out | held => exact ⟨atHome, free (by rw [phase]; simp)⟩
  | moved => simp [free (by rw [phase]; simp), atHome]
  | cut => exact absurd phase uncut

def Hand.early (hand : Hand α) : Prop :=
  hand.phase = .rest ∨ hand.phase = .out ∨ hand.phase = .held

theorem Hand.keeps_of_early (early : a.early) (kept : a.keeps cells value) :
    cells a.home = value ∧ (a.phase ≠ .rest → cells a.target = none) := by
  unfold Hand.keeps at kept
  rcases early with phase | phase | phase
  · simp only [phase] at kept
    exact ⟨kept, fun going => absurd phase going⟩
  · simp only [phase] at kept
    exact ⟨kept.1, fun _ => kept.2⟩
  · simp only [phase] at kept
    exact ⟨kept.1, fun _ => kept.2⟩

theorem HandStep.split (step : HandStep kind a b) :
    a.early ∧ b.phase ≠ .cut ∨ a.phase = .moved ∧ (b.phase = .moved ∨ b.phase = .cut) ∨
      a.phase = .cut ∧ b.phase = .rest := by
  have phases := step.phases
  unfold Hand.early
  cases kind <;> cases prev : a.phase <;> cases post : b.phase <;>
    simp_all [Phase.steps]

theorem Cells.step (holds : Cells named a cells value) (step : HandStep kind a b)
    (cellStep : CellStep named named' a b cells cells')
    (apartBefore : a.phase ≠ .rest → a.home ≠ a.target)
    (apart : b.phase ≠ .rest → b.home ≠ b.target)
    (home : named' b.home) (target : b.phase ≠ .rest → named' b.target) :
    Cells named' b cells' value := by
  have kept := holds.kept
  -- a place aside of the item holds none, named before or not
  have idle : ∀ place, named' place → a.aside place → cells place = none := by
    intro place now aside
    by_cases prev : named place
    · exact holds.others place prev aside
    · exact cellStep.fresh place now prev
  by_cases ended : a.phase = .cut ∧ b.phase = .rest
  · have sameHome : b.home = a.target := by rw [step.home, if_pos ended]
    have other : a.target ≠ a.home := (apartBefore (by rw [ended.1]; simp)).symm
    refine ⟨?_, ?_⟩
    · have atHome : cells' b.home = cells a.target := by
        rw [cellStep.same b.home home (by rw [sameHome]; exact fun away => other away.2.2),
          sameHome]
      simp only [Hand.keeps, ended.1] at kept
      simpa only [Hand.keeps, ended.2] using atHome.trans kept.1
    intro place now aside
    by_cases old : place = a.home
    · rw [old]
      exact cellStep.cleared ended.1 ended.2 (old ▸ now)
    · rw [cellStep.same place now fun away => old away.2.2]
      exact idle place now ⟨old, fun _ same => aside.1 (same.trans sameHome.symm)⟩
  · have sameHome : b.home = a.home := by rw [step.home, if_neg ended]
    have same : ∀ place, named' place → cells' place = cells place := fun place now =>
      cellStep.same place now fun away => ended ⟨away.1, away.2.1⟩
    have atHome : cells' b.home = cells a.home := by rw [same b.home home, sameHome]
    rcases step.split with ⟨early, uncut⟩ | ⟨moved, later⟩ | done
    · obtain ⟨value_, free⟩ := Hand.keeps_of_early early kept
      refine ⟨Hand.keeps_early (atHome.trans value_) ?_ uncut, ?_⟩
      · intro going
        rw [same b.target (target going)]
        by_cases rests : a.phase = .rest
        · refine idle b.target (target going) ⟨?_, fun away => absurd rests away⟩
          exact fun away => apart going (sameHome.trans away.symm)
        · rw [step.target rests going]
          exact free rests
      intro place now aside
      rw [same place now]
      by_cases there : a.phase ≠ .rest ∧ place = a.target
      · rw [there.2]
        exact free there.1
      · exact idle place now
          ⟨fun away => aside.1 (away.trans sameHome.symm), fun going away => there ⟨going, away⟩⟩
    · have going : b.phase ≠ .rest := by rcases later with phase | phase <;> rw [phase] <;> simp
      have sameTarget : b.target = a.target := step.target (by rw [moved]; simp) going
      have atTarget : cells' b.target = cells a.target := by
        rw [same b.target (target going), sameTarget]
      simp only [Hand.keeps, moved] at kept
      refine ⟨?_, ?_⟩
      · rcases later with phase | phase
        · simp only [Hand.keeps, phase, atTarget, atHome]
          exact kept
        simp only [Hand.keeps, phase, atTarget, atHome]
        have covered := cellStep.covered phase
        refine ⟨?_, covered⟩
        cases copy : cells a.target with
        | none => rw [copy, covered copy] at kept; exact kept
        | some => rw [copy] at kept; exact kept
      · intro place now aside
        rw [same place now]
        refine idle place now ⟨fun away => aside.1 (away.trans sameHome.symm), fun _ away => ?_⟩
        exact aside.2 going (away.trans sameTarget.symm)
    · exact absurd done ended

end Shunt.Library
