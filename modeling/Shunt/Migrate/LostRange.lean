/-
Exactly which placements a hold does not cover: the plain ramps that lose their
range with a completed step.
-/

import Mathlib.Data.Fintype.EquivFin
import Shunt.Migrate.Hold

namespace Shunt.Migrate

open Directory
open Library (Phase HandKind Hand HandStep Number)

variable {hash : Key → Hash} {p : Placement} {old : Ramp}

structure PlainRamp (p : Placement) (old : Ramp) : Prop where
  form : PlainForm p
  stands : p.ramp = some old
  unheld : old.hold = none
  number : old.ratio.isNum

theorem PlainRamp.ramping (ramp : PlainRamp p old) : p.state = .ramping :=
  ramp.form.ramped.present.mpr (by rw [ramp.stands]; simp)

def heldAt (p : Placement) (old : Ramp) (keys : RampHold) : Placement :=
  { p with state := .ramping, barrier := none, ramp := some { old with hold := some keys } }

def migratedFrom (p : Placement) : Placement :=
  { p with state := .migrating, barrier := none, ramp := none }

def grownFrom (p : Placement) (old : Ramp) (prefixes : List Key) : Placement :=
  { p with
    state := .ramping, barrier := none
    ramp := some { hash := old.hash, ratio := old.ratio, prefixes := prefixes } }

def toMigrating : Transition := { toState := some .migrating }

theorem PlainRamp.hold_migrating (ramp : PlainRamp p old) :
    p.apply { toMigrating with hold := true } = .ok (heldAt p old { ratio := 1 }) := by
  rw [apply_plain ramp.form.plain rfl rfl rfl rfl rfl]
  have unheld : heldRamp (some old) = false := by simp [heldRamp, ramp.unheld]
  have below : p.heldBelowOne = false := by simp [Placement.heldBelowOne, ramp.stands, ramp.unheld]
  simp [Placement.applyRoles, toMigrating, Placement.checkBarrier, Placement.checkLegal, unheld,
    Placement.inheritTarget, ramp.ramping, legal, Placement.checkFields, Placement.stepTo, below,
    Placement.closeStep, Placement.holdStep, Placement.rampInForce, ramp.stands, heldKeys, heldAt]

theorem PlainRamp.complete_migrating (ramp : PlainRamp p old) :
    (heldAt p old { ratio := 1 }).apply toMigrating = .ok (migratedFrom p) := by
  have plain : (heldAt p old { ratio := 1 }).spread = false := ramp.form.plain
  rw [apply_plain plain rfl rfl rfl rfl rfl]
  simp [Placement.applyRoles, toMigrating, Placement.checkBarrier, Placement.checkLegal,
    Placement.inheritTarget, legal, Placement.checkFields, Placement.stepTo,
    Placement.closeStep, heldAt, Placement.heldBelowOne, migratedFrom]

def addPrefix (pre : Key) : Transition := { toState := some .ramping, prefixes := [pre] }

theorem PlainRamp.hold_prefix (ramp : PlainRamp p old) (has : old.hash = rampHash) {pre : Key}
    (fresh : pre ∉ old.prefixes) :
    p.apply { addPrefix pre with hold := true } =
      .ok (heldAt p old { ratio := old.ratio, prefixes := old.prefixes ++ [pre] }) := by
  rw [apply_plain ramp.form.plain rfl rfl rfl rfl rfl]
  have unheld : heldRamp (some old) = false := by simp [heldRamp, ramp.unheld]
  simp [Placement.applyRoles, addPrefix, Placement.checkBarrier, Placement.checkLegal, unheld,
    Placement.inheritTarget, ramp.ramping, legal, Placement.checkFields, Placement.stepTo,
    Placement.rampStep, has, grownRamp, addPrefixes, fresh,
    Placement.closeStep, Placement.holdStep, Placement.rampInForce, ramp.stands, heldKeys, heldAt]

theorem PlainRamp.complete_prefix (ramp : PlainRamp p old) (has : old.hash = rampHash)
    {pre : Key} (fresh : pre ∉ old.prefixes) :
    (heldAt p old { ratio := old.ratio, prefixes := old.prefixes ++ [pre] }).apply (addPrefix pre) =
      .ok (grownFrom p old (old.prefixes ++ [pre])) := by
  have plain : (heldAt p old { ratio := old.ratio, prefixes := old.prefixes ++ [pre] }).spread =
      false := ramp.form.plain
  rw [apply_plain plain rfl rfl rfl rfl rfl]
  have lt : beyondHold
      { hash := rampHash, ratio := old.ratio, prefixes := old.prefixes, range := old.range
        hold := some { ratio := old.ratio, prefixes := old.prefixes ++ [pre] } }
      { ratio := old.ratio, prefixes := old.prefixes ++ [pre] }
      { hash := rampHash, ratio := old.ratio, prefixes := old.prefixes ++ [pre] } = none := by
    refine List.find?_eq_none.mpr fun x mem => ?_
    simp only [Bool.and_eq_true, decide_eq_true_eq, not_and, not_not]
    exact fun _ => mem
  simp [Placement.applyRoles, addPrefix, Placement.checkBarrier, Placement.checkLegal,
    Placement.inheritTarget, legal, Placement.checkFields, Placement.stepTo, Placement.rampStep,
    has, grownRamp, addPrefixes, fresh, Placement.closeStep, heldAt, lt, grownFrom,
    Number.lt_irrefl]

theorem writeTo_plain (form : PlainForm p) (key : Key) : writeTo hash p key =
      (phaseOf hash p.state p.ramp key).map fun phase => (handIn p phase).writes := by
  rw [writeTo_formed (.inl form), handOf_plain form.plain]
  cases phaseOf hash p.state p.ramp key <;> rfl

theorem writeTo_ramp (form : PlainForm p) {r : Ramp} (state : p.state = .ramping)
    (stands : p.ramp = some r) (has : r.hash = rampHash) (key : Key) : writeTo hash p key =
      .ok (if inKeys hash r.range r.ratio r.prefixes key then some (endpoint p .primary)
        else if (r.hold.any fun h => inKeys hash r.range h.ratio h.prefixes key) then none
        else some (endpoint p .source)) := by
  rw [writeTo_plain form, state, stands, phaseOf_ramp has]
  simp only [Except.map]
  split
  · rfl
  · split <;> rfl

theorem PlainRamp.heldForm (ramp : PlainRamp p old) (keys : RampHold) :
    PlainForm (heldAt p old keys) :=
  { plain := ramp.form.plain
    roles := ramp.form.roles
    ramped := ⟨by simp [heldAt], by intro r eq unheld; cases eq; cases unheld⟩
    primary := ramp.form.primary
    rest := by
      have rest := ramp.form.rest
      rw [ramp.ramping] at rest
      exact rest
    apart := ramp.form.apart
    away := ramp.form.away
    idle := fun _ => ramp.form.idle (by rw [ramp.ramping]; simp) }

theorem PlainRamp.numbered (ramp : PlainRamp p old) {keys : RampHold} (held : keys.ratio.isNum) :
    Numbered (rampOf (heldAt p old keys)) := by
  rw [rampOf, (ramp.heldForm keys).noMove]
  intro x mem
  rcases List.mem_cons.mp mem with rfl | later
  · exact ramp.number
  · rw [List.mem_singleton.mp later]
    exact held

theorem PlainRamp.endpoints (ramp : PlainRamp p old) :
    endpoint p .source ≠ endpoint p .primary := by
  rw [endpoint_plain ramp.form.roles, endpoint_plain ramp.form.roles]
  intro eq
  exact ramp.form.apart (congrArg Leg.cluster eq)

theorem exists_outside {rg : HashRange} (part : rg ≠ fullRange) : ∃ x, rg.contains x = false := by
  by_contra all
  push Not at all
  refine part ?_
  have first := (HashRange.contains_iff rg fullRange.lo).mp (by simpa using all fullRange.lo)
  have last := (HashRange.contains_iff rg fullRange.hi).mp (by simpa using all fullRange.hi)
  obtain ⟨lo, hi⟩ := rg
  have atStart : lo = 0 := UInt64.toNat_inj.mp (Nat.le_zero.mp (UInt64.le_iff_toNat_le.mp first.1))
  have atEnd : hi = 0xffffffffffffffff := by
    have reaches : 2 ^ 64 - 1 ≤ hi.toNat := UInt64.le_iff_toNat_le.mp last.2
    have bounded := hi.toNat_lt
    refine UInt64.toNat_inj.mp ?_
    change hi.toNat = 2 ^ 64 - 1
    omega
  rw [atStart, atEnd]
  rfl

theorem lost_outside (ramp : PlainRamp p old) (has : old.hash = rampHash) {rg : HashRange}
    (range : old.range = some rg) (part : rg ≠ fullRange) : ¬ HoldCovers p := by
  intro covers
  obtain ⟨x, outside⟩ := exists_outside part
  have gone : ∀ ratio prefixes, inKeys (fun _ => x) (some rg) ratio prefixes [] = false := by
    intro ratio prefixes
    simp [inKeys, inScope, outside]
  have prev : writeTo (fun _ => x) p [] = .ok (some (endpoint p .source)) := by
    rw [writeTo_ramp ramp.form ramp.ramping ramp.stands has, range, gone, ramp.unheld]
    rfl
  have held : writeTo (fun _ => x) (heldAt p old { ratio := 1 }) [] =
      .ok (some (endpoint p .source)) := by
    rw [writeTo_ramp (ramp.heldForm _) rfl rfl has]
    simp only [range, gone, Option.any_some]
    rfl
  have migrated : PlainForm (migratedFrom p) :=
    (apply_formed (.inl (ramp.heldForm _)) ramp.complete_migrating).plainForm ramp.form.plain
  have post : writeTo (fun _ => x) (migratedFrom p) [] = .ok (some (endpoint p .primary)) := by
    rw [writeTo_plain migrated]
    rfl
  rcases (covers (fun _ => x) toMigrating _ rfl ramp.hold_migrating).1 toMigrating _ [] rfl rfl
    ramp.complete_migrating (ramp.numbered rfl)
    (by rw [rampOf, migrated.noMove]; exact numbered_none)
    (by rw [prev, post]; simpa using ramp.endpoints) with
      waits | ⟨e, no, -⟩
  · rw [held] at waits
    cases waits
  · rw [prev] at no
    cases no

theorem exists_between {ratio : ℚ} (pos : 0 < ratio) (part : ratio < 1)
    (between : (ratioLimit (.num ratio) : ℚ) ≠ ratio * 2 ^ 64) :
    ∃ x : Hash, inShare (fun _ => x) (some fullRange) (.num ratio) [] ∧
      inShare (fun _ => x) none (.num ratio) [] = false := by
  have limit : ((ratioLimit (.num ratio)).toNat : ℤ) = ratioLimit (.num ratio) := by
    refine Int.toNat_of_nonneg (Rat.le_floor_iff.mpr ?_)
    push_cast
    positivity
  have reached : (ratioLimit (.num ratio) : ℚ) ≤ ratio * 2 ^ 64 := Rat.floor_le _
  have below : (ratioLimit (.num ratio)).toNat < 2 ^ 64 := by
    have small : (ratioLimit (.num ratio) : ℚ) < 2 ^ 64 := by
      calc (ratioLimit (.num ratio) : ℚ) ≤ ratio * 2 ^ 64 := reached
        _ < 1 * 2 ^ 64 := mul_lt_mul_of_pos_right part (by positivity)
        _ = 2 ^ 64 := one_mul _
    have inWord : ratioLimit (.num ratio) < 2 ^ 64 := by exact_mod_cast small
    omega
  have value : (UInt64.ofNat (ratioLimit (.num ratio)).toNat).toNat =
      (ratioLimit (.num ratio)).toNat :=
    UInt64.toNat_ofNat_of_lt below
  have cast : (((ratioLimit (.num ratio)).toNat : ℕ) : ℚ) = (ratioLimit (.num ratio) : ℚ) := by
    exact_mod_cast limit
  refine ⟨UInt64.ofNat (ratioLimit (.num ratio)).toNat, ?_, ?_⟩
  · have start : UInt64.ofNat (ratioLimit (.num ratio)).toNat - fullRange.lo =
        UInt64.ofNat (ratioLimit (.num ratio)).toNat := by simp [fullRange]
    simp only [inShare, Number.zero_eq, Number.one_eq, Number.num_le, if_neg (not_le.mpr pos),
      if_neg (not_le.mpr part), start, fullRange_width, value, cast, Number.scale, Number.num_lt]
    exact decide_eq_true (lt_of_le_of_ne reached between)
  · simp only [inShare, Number.zero_eq, Number.one_eq, Number.num_le, if_neg (not_le.mpr pos),
      if_neg (not_le.mpr part), value, limit, lt_irrefl, decide_false]

theorem hasAnyPrefix_nil {prefixes : List Key} (gone : [] ∉ prefixes) :
    hasAnyPrefix [] prefixes = false := by
  simp only [hasAnyPrefix, List.any_eq_false]
  intro pre mem starts
  cases pre with
  | nil => exact gone mem
  | cons => simp [hasPrefix] at starts

theorem lost_between (ramp : PlainRamp p old) (has : old.hash = rampHash)
    (range : old.range = some fullRange) (unnamed : [] ∉ old.prefixes) (pos : 0 < old.ratio)
    (part : old.ratio < 1) (between : (ratioLimit old.ratio : ℚ) ≠ old.ratio.value * 2 ^ 64) :
    ¬ HoldCovers p := by
  intro covers
  obtain ⟨q, ratio⟩ : ∃ q, old.ratio = .num q := Number.exists_num ramp.number
  obtain ⟨pre, fresh⟩ := Infinite.exists_notMem_finset (insert [] old.prefixes.toFinset)
  simp only [Finset.mem_insert, List.mem_toFinset, not_or] at fresh
  rw [ratio] at pos part between
  obtain ⟨x, beyond, without⟩ :=
    exists_between (Number.num_lt.mp pos) (Number.num_lt.mp part) between
  rw [← ratio] at beyond without
  have isIn : inKeys (fun _ => x) (some fullRange) old.ratio old.prefixes [] := by
    simp only [inKeys, inScope, Option.all_some, fullRange_contains, Bool.true_and, Bool.or_eq_true]
    exact .inr beyond
  have lost : inKeys (fun _ => x) none old.ratio (old.prefixes ++ [pre]) [] = false := by
    have gone : [] ∉ old.prefixes ++ [pre] := by
      simp only [List.mem_append, List.mem_singleton, not_or]
      exact ⟨unnamed, fun eq => fresh.1 eq.symm⟩
    simp only [inKeys, hasAnyPrefix_nil gone, without, Bool.or_false, Bool.and_false]
  have prev : writeTo (fun _ => x) p [] = .ok (some (endpoint p .primary)) := by
    rw [writeTo_ramp ramp.form ramp.ramping ramp.stands has, range, isIn]
    rfl
  have held : writeTo (fun _ => x)
      (heldAt p old { ratio := old.ratio, prefixes := old.prefixes ++ [pre] }) [] =
      .ok (some (endpoint p .primary)) := by
    rw [writeTo_ramp (ramp.heldForm _) rfl rfl has]
    simp only [range, isIn]
    rfl
  have completed := ramp.complete_prefix has fresh.2
  have grown : PlainForm (grownFrom p old (old.prefixes ++ [pre])) :=
    (apply_formed (.inl (ramp.heldForm _)) completed).plainForm ramp.form.plain
  have post : writeTo (fun _ => x) (grownFrom p old (old.prefixes ++ [pre])) [] =
      .ok (some (endpoint p .source)) := by
    rw [writeTo_ramp grown rfl rfl has]
    simp only [lost]
    rfl
  rcases (covers (fun _ => x) (addPrefix pre) _ rfl (ramp.hold_prefix has fresh.2)).1
    (addPrefix pre) _ [] rfl rfl completed (ramp.numbered ramp.number)
    (by
      rw [rampOf, grown.noMove]
      intro x mem
      rw [List.mem_singleton.mp mem]
      exact ramp.number)
    (by rw [prev, post]; simpa using ramp.endpoints.symm) with waits | ⟨e, no, -⟩
  · rw [held] at waits
    cases waits
  · rw [prev] at no
    cases no

/-- Holds cover their steps on every valid placement but the plain ramps that
lose keys with their range. -/
theorem holdCovers_iff (valid : p.Valid) (numbers : Numbered (rampOf p)) :
    HoldCovers p ↔ ¬ RangeLost p := by
  constructor
  · rintro covers ⟨plain, old, rg, stands, unheld, has, range, lost⟩
    have form := valid.formed.plainForm plain
    rw [rampOf, form.noMove, stands] at numbers
    have ramp : PlainRamp p old := ⟨form, stands, unheld, numbers.ratio⟩
    by_cases part : rg = fullRange
    · subst part
      rcases lost with no | ⟨unnamed, pos, below, between⟩
      · exact no rfl
      · exact lost_between ramp has range unnamed pos below between covers
    · exact lost_outside ramp has range part covers
  · exact holdCovers_of_kept valid.formed

def photosLimited : Placement :=
  { photosMigrating with
    state := .ramping
    ramp := some
      { hash := rampHash, ratio := .num (1 / 2), range := some ⟨0, 0x7fffffffffffffff⟩ } }

theorem photosLimited_valid : photosLimited.Valid := valid_of_directory rfl (by decide +kernel)

def photosLimitedHeld : Placement :=
  heldAt photosLimited
    { hash := rampHash, ratio := .num (1 / 2), range := some ⟨0, 0x7fffffffffffffff⟩ }
      { ratio := 1 }

/-- Holding and completing a step to MIGRATING moves a key outside the range, and
the hold leaves it at its source. -/
theorem photosLimited_not_covered :
    photosLimited.Valid ∧
      photosLimited.apply { toMigrating with hold := true } = .ok photosLimitedHeld ∧
      photosLimitedHeld.apply toMigrating = .ok (migratedFrom photosLimited) ∧
      writeTo (fun _ => 0xffffffffffffffff) photosLimited [] = .ok (some ⟨"east", "acme-photos"⟩) ∧
      writeTo (fun _ => 0xffffffffffffffff) photosLimitedHeld [] =
        .ok (some ⟨"east", "acme-photos"⟩) ∧
      writeTo (fun _ => 0xffffffffffffffff) (migratedFrom photosLimited) [] =
        .ok (some ⟨"west", "acme-photos"⟩) ∧
      ¬ HoldCovers photosLimited := by
  refine ⟨photosLimited_valid, by decide +kernel, by decide +kernel, by decide +kernel,
    by decide, by decide, ?_⟩
  exact lost_outside ⟨photosLimited_valid.formed.plainForm rfl, rfl, rfl, rfl⟩ rfl rfl (by decide)

theorem photos_covered : HoldCovers photos :=
  (holdCovers_iff (p := photos) (valid_of_directory rfl (by decide)) numbered_none).mpr
    (by rintro ⟨-, old, rg, no, -⟩; cases no)

end Shunt.Migrate
