/-
How a step moves each key from phase to phase.  The keys in force and the keys
held are sets that grow with the ratio and the prefixes of a ramp, so a shift of
the ramp moves each key the way a handover may go.
-/

import Mathlib.Algebra.Order.Field.Rat
import Mathlib.Tactic.Positivity
import Shunt.Migrate.Dispatch

namespace Shunt.Migrate

open Directory Option
open Library (Phase HandKind Hand HandStep Number)

section

variable (hash : Key → Hash)
variable {range : Option HashRange}

def inShare (range : Option HashRange) (ratio : Number) (key : Key) : Bool :=
  if ratio ≤ 0 then false
  else if 1 ≤ ratio then true
  else
    match range with
    | none => decide (((hash key).toNat : Int) < ratioLimit ratio)
    | some rg =>
      decide (.num (hash key - rg.lo).toNat < ratio.scale ((rg.hi - rg.lo).toNat + 1))

def inScope (range : Option HashRange) (key : Key) : Bool :=
  range.all fun rg => rg.contains (hash key)

def inKeys (range : Option HashRange) (ratio : Number) (prefixes : List Key) (key : Key) : Bool :=
  inScope hash range key && (hasAnyPrefix key prefixes || inShare hash range ratio key)

variable {hash}

theorem inRange_known {r : Ramp} (has : r.hash = rampHash) (key : Key) : inRange hash (some r) key =
      .ok (inKeys hash r.range r.ratio r.prefixes key) := by
  obtain ⟨hashed, ratio, prefixes, range, hold⟩ := r
  simp only at has
  subst has
  unfold inKeys inScope inShare
  cases range with
  | none =>
    simp only [inRange, all_none, Bool.true_and, ne_eq, not_true_eq_false, if_false]
    by_cases named : hasAnyPrefix key prefixes
    · simp [named]
    rw [if_neg named]
    simp only [named, Bool.false_or]
    split
    · rfl
    · split <;> rfl
  | some rg =>
    simp only [inRange, inRangeOf, all_some, ne_eq, not_true_eq_false, if_false]
    cases contained : rg.contains (hash key) with
    | false => simp
    | true =>
      by_cases named : hasAnyPrefix key prefixes
      · simp [named]
      simp only [reduceCtorEq, if_false, named, Bool.false_eq_true, Bool.false_or, Bool.true_and]
      split
      · rfl
      · split <;> rfl

theorem hasAnyPrefix_iff (key : Key) (prefixes : List Key) :
    hasAnyPrefix key prefixes ↔ ∃ pre ∈ prefixes, hasPrefix key pre = true := by
  simp only [hasAnyPrefix, List.any_eq_true]

theorem ratioLimit_mono {low high : ℚ} (le : low ≤ high) :
    ratioLimit (.num low) ≤ ratioLimit (.num high) := by
  have scaled : low * 2 ^ 64 ≤ high * 2 ^ 64 := mul_le_mul_of_nonneg_right le (by positivity)
  exact Rat.floor_monotone scaled

theorem inShare_mono {a b : Number} {key : Key} (below : a ≤ b)
    (isIn : inShare hash range a key) : inShare hash range b key = true := by
  obtain ⟨low, high, rfl, rfl, le⟩ := Number.le_iff.mp below
  simp only [inShare, Number.zero_eq, Number.one_eq, Number.num_le] at isIn ⊢
  by_cases none : low ≤ 0
  · simp [none] at isIn
  have pos : ¬ high ≤ 0 := fun small => none (le_trans le small)
  rw [if_neg none] at isIn
  rw [if_neg pos]
  by_cases whole : 1 ≤ high
  · rw [if_pos whole]
  have part : ¬ 1 ≤ low := fun reached => whole (le_trans reached le)
  rw [if_neg part] at isIn
  rw [if_neg whole]
  cases range with
  | none =>
    simp only [decide_eq_true_eq] at isIn ⊢
    exact lt_of_lt_of_le isIn (ratioLimit_mono le)
  | some =>
    simp only [decide_eq_true_eq, Number.scale, Number.num_lt] at isIn ⊢
    refine lt_of_lt_of_le isIn ?_
    exact mul_le_mul_of_nonneg_right le (by positivity)

theorem inKeys_mono {low high : Number} {few many : List Key} {key : Key}
    (le : low ≤ high) (subset : few ⊆ many) (isIn : inKeys hash range low few key) :
    inKeys hash range high many key = true := by
  simp only [inKeys, Bool.and_eq_true, Bool.or_eq_true] at isIn ⊢
  refine ⟨isIn.1, ?_⟩
  rcases isIn.2 with named | shared
  · obtain ⟨pre, mem, starts⟩ := (hasAnyPrefix_iff key few).mp named
    exact .inl ((hasAnyPrefix_iff key many).mpr ⟨pre, subset mem, starts⟩)
  · exact .inr (inShare_mono le shared)

theorem inKeys_within {old new : Ramp} {h : RampHold} {key : Key} (lt : WithinHold old h new)
    (numbers : old.ratio.isNum ∧ h.ratio.isNum ∧ new.ratio.isNum)
    (isIn : inKeys hash range new.ratio new.prefixes key) :
    inKeys hash range old.ratio old.prefixes key ∨
      inKeys hash range h.ratio h.prefixes key = true := by
  simp only [inKeys, Bool.and_eq_true, Bool.or_eq_true] at isIn ⊢
  rcases isIn.2 with named | shared
  · obtain ⟨pre, mem, starts⟩ := (hasAnyPrefix_iff key new.prefixes).mp named
    rcases lt.prefixes pre mem with old_ | held
    · exact .inl ⟨isIn.1, .inl ((hasAnyPrefix_iff _ _).mpr ⟨pre, old_, starts⟩)⟩
    · exact .inr ⟨isIn.1, .inl ((hasAnyPrefix_iff _ _).mpr ⟨pre, held, starts⟩)⟩
  by_cases beyond : h.ratio < new.ratio
  · have old_ := Number.le_of_not_lt numbers.2.2 numbers.1 fun above => lt.ratio ⟨beyond, above⟩
    exact .inl ⟨isIn.1, .inr (inShare_mono old_ shared)⟩
  · have held := Number.le_of_not_lt numbers.2.2 numbers.2.1 beyond
    exact .inr ⟨isIn.1, .inr (inShare_mono held shared)⟩

theorem inKeys_empty (range : Option HashRange) (key : Key) :
    inKeys hash range 0 [] key = false := by
  simp [inKeys, hasAnyPrefix, inShare]

theorem inKeys_whole {ratio : Number} {prefixes : List Key} {key : Key}
    (whole : 1 ≤ ratio) (scope : inScope hash range key) :
    inKeys hash range ratio prefixes key = true := by
  obtain ⟨_, q, one, rfl, le⟩ := Number.le_iff.mp whole
  cases one
  have pos : ¬ q ≤ 0 := fun small => absurd (le_trans le small) (by norm_num)
  simp [inKeys, scope, inShare, pos, le]

end

section

variable {hash : Key → Hash}

def relimit (range : Option HashRange) (ramp : Option Ramp) : Option Ramp :=
  ramp.map fun r => { r with range := range }

def handKind (kind : StepKind) (ramp : Option Ramp) : HandKind :=
  match kind with
  | .hold => .hold
  | .release => .release
  | .step => if heldRamp ramp then .complete else .advance

/-- No ratio of the ramp, or of the step it holds, is NaN. -/
def Numbered (ramp : Option Ramp) : Prop := ∀ x ∈ rampNumbers ramp, x.isNum

theorem numbered_none : Numbered none := by
  intro x mem
  cases mem

theorem numbered_relimit {range : Option HashRange} {ramp : Option Ramp} :
    Numbered (relimit range ramp) ↔ Numbered ramp := by
  cases ramp <;> exact Iff.rfl

theorem Numbered.ratio {r : Ramp} (numbers : Numbered (some r)) : r.ratio.isNum :=
  numbers _ List.mem_cons_self

theorem Numbered.held {r : Ramp} {h : RampHold} (numbers : Numbered (some r))
    (hold : r.hold = some h) : h.ratio.isNum :=
  numbers _ (List.mem_cons_of_mem _ (by simp [hold]))

def KnownHash (ramp : Option Ramp) : Prop := ∀ r, ramp = some r → r.hash = rampHash

theorem phaseOf_ramp {r : Ramp} (has : r.hash = rampHash) (key : Key) :
    phaseOf hash .ramping (some r) key =
      .ok (if inKeys hash r.range r.ratio r.prefixes key then .moved
        else if (r.hold.any fun h => inKeys hash r.range h.ratio h.prefixes key) then .held
        else .out) := by
  simp only [phaseOf, inRange_known has]
  cases isIn : inKeys hash r.range r.ratio r.prefixes key with
  | true => rfl
  | false =>
    cases hold : r.hold with
    | none => simp [inHold, hold]
    | some h =>
      have heldKnown : (Ramp.heldRamp r h).hash = rampHash := has
      simp only [inHold, hold, inRange_known heldKnown, any_some]
      simp only [Ramp.heldRamp]
      by_cases held : inKeys hash r.range h.ratio h.prefixes key
      · simp [held]
      have outside : inKeys hash r.range h.ratio h.prefixes key = false := by
        simpa using held
      simp [outside]

theorem phaseOf_relimit {range : Option HashRange} {r : Ramp}
    (has : r.hash = rampHash) (key : Key) : phaseOf hash .ramping (relimit range (some r)) key =
      .ok (if inKeys hash range r.ratio r.prefixes key then .moved
        else if (r.hold.any fun h => inKeys hash range h.ratio h.prefixes key) then .held
        else .out) := by
  exact phaseOf_ramp (r := { r with range := range }) has key

theorem shift_phases {kind : StepKind} {s s' : State} {ramp ramp' : Option Ramp}
    {range : Option HashRange} {key : Key} (shift : Shift kind s ramp s' ramp')
    (has : KnownHash ramp) (numbers : kind = .step → Numbered ramp ∧ Numbered ramp')
    (scope : inScope hash range key) :
    ∃ prev post, phaseOf hash s (relimit range ramp) key = .ok prev ∧
      phaseOf hash s' (relimit range ramp') key = .ok post ∧
      prev.steps (handKind kind ramp) post = true := by
  have nil : inKeys hash range 0 [] key = false := inKeys_empty range key
  cases shift with
  | leave =>
    refine ⟨_, _, rfl, phaseOf_relimit rfl key, ?_⟩
    split <;> rfl
  | leaveWhole | cutover | finish => exact ⟨_, _, rfl, rfl, rfl⟩
  | leaveHeld =>
    refine ⟨_, _, rfl, phaseOf_relimit rfl key, ?_⟩
    simp only [nil, Bool.false_eq_true, if_false]
    split <;> rfl
  | @grow old ratio prefixes grown some_ lt =>
    obtain ⟨prev, post⟩ := numbers rfl
    refine ⟨_, _, phaseOf_relimit (has old rfl) key, phaseOf_relimit (by exact has old rfl) key, ?_⟩
    simp only [any_none, Bool.false_eq_true, if_false]
    by_cases isIn : inKeys hash range old.ratio old.prefixes key
    · have grows := Number.le_of_not_lt prev.ratio post.ratio grown.ratio
      have still := inKeys_mono grows grown.prefixes isIn
      simp only [isIn, still, if_true]
      cases handKind .step (some old) <;> rfl
    cases hold : old.hold with
    | none =>
      simp only [isIn, hold, handKind, heldRamp, any_none, isSome_none,
        Bool.false_eq_true, if_false]
      split <;> rfl
    | some h =>
      simp only [isIn, hold, handKind, heldRamp, any_some, isSome_some,
        Bool.false_eq_true, if_false, if_true]
      by_cases held : inKeys hash range h.ratio h.prefixes key
      · simp only [held, if_true]
        split <;> rfl
      have stays : ¬ inKeys hash range ratio prefixes key := by
        intro moves
        rcases inKeys_within (lt h hold) ⟨prev.ratio, prev.held hold, post.ratio⟩ moves with
          already | during
        · exact isIn already
        · exact held during
      simp only [held, stays]
      rfl
  | @holdGrowth old ratio prefixes unheld | @holdWhole old unheld =>
    refine ⟨_, _, phaseOf_relimit (has old rfl) key, phaseOf_relimit (by exact has old rfl) key, ?_⟩
    simp only [unheld, any_none, Bool.false_eq_true, if_false]
    split
    · rfl
    · split <;> rfl
  | @migrate old whole =>
    refine ⟨_, _, phaseOf_relimit (has old rfl) key, rfl, ?_⟩
    cases hold : old.hold with
    | none =>
      simp only [hold, handKind, heldRamp, any_none, isSome_none, Bool.false_eq_true, if_false]
      split <;> rfl
    | some h =>
      have all : inKeys hash range h.ratio h.prefixes key :=
        inKeys_whole (Number.le_of_not_lt rfl ((numbers rfl).1.held hold) (whole h hold)) scope
      simp only [hold, handKind, heldRamp, any_some, isSome_some, all, if_true]
      split <;> rfl
  | @releaseFirst old h held ratio prefixes =>
    refine ⟨_, _, phaseOf_relimit (has old rfl) key, rfl, ?_⟩
    simp only [ratio, prefixes, nil, Bool.false_eq_true, if_false]
    split <;> rfl
  | @release old =>
    refine ⟨_, _, phaseOf_relimit (has old rfl) key, phaseOf_relimit (by exact has old rfl) key, ?_⟩
    simp only [any_none, Bool.false_eq_true, if_false]
    split
    · rfl
    · split <;> rfl

end

end Shunt.Migrate
