/-
A hold covers its step: the keys a completed hold sends elsewhere are held while
it spreads, and releasing it sends every key where it went before.
-/

import Shunt.Migrate.Order

namespace Shunt.Migrate

open Directory Option
open Library (Phase HandKind Hand HandStep Number)

variable {hash : Key → Hash} {p q h c r : Placement} {t t' : Transition} {key : Key}
variable {s : State} {last : Option Ramp} {old : Ramp}

/-- A write that is refused under a hold: it is held, or it was refused for the
same reason before. -/
def RefusedAlike (prev held : Except RouteError (Option Leg)) : Prop :=
  held = .ok none ∨ ∃ e, prev = .error e ∧ held = .error e

/-- Every hold of a placement covers its step: whatever completes it, and
whatever the key hash. -/
def HoldCovers (p : Placement) : Prop :=
  ∀ (hash : Key → Hash) (t : Transition) (h : Placement), t.release = false →
    p.apply { t with hold := true } = .ok h →
    (∀ (t' : Transition) (c : Placement) (key : Key), t'.hold = false → t'.release = false →
      h.apply t' = .ok c → Numbered (rampOf h) → Numbered (rampOf c) →
      writeTo hash p key ≠ writeTo hash c key →
      RefusedAlike (writeTo hash p key) (writeTo hash h key)) ∧
    (∀ (t' : Transition) (r : Placement) (key : Key), t'.release = true → h.apply t' = .ok r →
      writeTo hash r key = writeTo hash p key) ∧
    ∀ barrier : String, barrier = "" ∨ h.carries barrier = true →
      ∃ r, h.apply { release := true, barrier := barrier } = .ok r

/-- A plain ramp by this build's hash whose range the next completed step loses,
where some key then goes elsewhere: the range is not the whole key space, or the
ratio falls between two hashes of it. -/
def RangeLost (p : Placement) : Prop :=
  p.spread = false ∧ ∃ (old : Ramp) (rg : HashRange), p.ramp = some old ∧ old.hold = none ∧
    old.hash = rampHash ∧ old.range = some rg ∧
    (rg ≠ fullRange ∨
      [] ∉ old.prefixes ∧ 0 < old.ratio ∧ old.ratio < 1 ∧
        (ratioLimit old.ratio : ℚ) ≠ old.ratio.value * 2 ^ 64)

theorem shift_holds {s' : State} {ramp ramp' : Option Ramp} (shift : Shift .hold s ramp s' ramp') :
    s' = .ramping ∧ heldRamp ramp' ∧ heldRamp ramp = false := by
  cases shift with
  | leaveHeld => exact ⟨rfl, rfl, rfl⟩
  | holdGrowth unheld | holdWhole unheld => exact ⟨rfl, rfl, by simp [heldRamp, unheld]⟩

theorem shift_unwinds {s' : State} {ramp ramp' : Option Ramp} {range : Option HashRange}
    (hold : Shift .hold s ramp s' ramp') (ramped : Ramped s ramp)
    (release : Shift .release s' (relimit range ramp') .active last) : s = .active := by
  cases hold with
  | leaveHeld => rfl
  | @holdGrowth old _ _ unheld | @holdWhole old unheld =>
    cases release with
    | releaseFirst held ratio prefixes =>
      rcases ramped.moves old rfl unheld with some_ | some_
      · exact absurd ratio some_
      · exact absurd prefixes some_

theorem shift_hold_ramp {s' : State} {ramp ramp' : Option Ramp}
    (hold : Shift .hold s ramp s' ramp') (away : s ≠ .active) :
    ∃ old keys, s = .ramping ∧ ramp = some old ∧ old.hold = none ∧ s' = .ramping ∧
      ramp' = some { old with hold := some keys } ∧
      (old.hash = rampHash ∨ keys = { ratio := 1 }) := by
  cases hold with
  | leaveHeld => exact absurd rfl away
  | holdGrowth unheld grown => exact ⟨_, _, rfl, rfl, unheld, rfl, rfl, .inl grown.hash⟩
  | holdWhole unheld => exact ⟨_, _, rfl, rfl, unheld, rfl, rfl, .inr rfl⟩

theorem shift_release_ramp {keys : RampHold} (unheld : old.hold = none)
    (moves : old.ratio ≠ 0 ∨ old.prefixes ≠ [])
    (release : Shift .release .ramping (some { old with hold := some keys }) s last) :
    s = .ramping ∧ last = some old := by
  cases release with
  | releaseFirst held ratio prefixes =>
    exact absurd prefixes (moves.resolve_left (not_not.mpr ratio))
  | release =>
    obtain ⟨hashed, ratio, prefixes, range, hold⟩ := old
    simp only at unheld
    subst unheld
    exact ⟨rfl, rfl⟩

theorem shift_complete_foreign (foreign : old.hash ≠ rampHash)
    (complete : Shift .step .ramping (some old) s last) : s = .migrating := by
  cases complete with
  | grow grown => exact absurd grown.hash foreign
  | migrate => rfl

theorem shift_complete_bare (complete : Shift .step .ramping (some old) s last) :
    s ≠ .active ∧ relimit none last = last := by
  cases complete with
  | grow | migrate => exact ⟨by simp, rfl⟩

theorem heldRamp_limit (rg : HashRange) (ramp : Option Ramp) :
    heldRamp (rg.limit ramp) = heldRamp ramp := heldRamp_relimit (some rg) ramp

inductive HoldStep (p : Placement) (t : Transition) : Placement → Prop where
  | plain {h : _} (plain : p.spread = false) (step : RoleStep p t h) : HoldStep p t h
  | start {plan nv : _} (plans : Planned p t plan)
      (view : RoleStep (firstView plan.base.legs plan.source) (plan.roleStep t) nv)
      (shift : Shift .hold .active none nv.state nv.ramp) : HoldStep p t (plan.started t nv)
  | step {m nv : _} (moving : p.move = some m) (form : SpreadForm p)
      (formHeld : SpreadForm (p.stepped m nv))
      (shift : Shift .hold p.state (m.range.limit m.ramp) nv.state nv.ramp) :
      HoldStep p t (p.stepped m nv)

theorem holdStep_of_kind (formed : Formed p) (step : ApplyStep p t h) (kind : t.kind = .hold) :
    HoldStep p t h := by
  cases step with
  | plain plain step => exact .plain plain step
  | start plans view => exact .start plans view (kind ▸ view.shift)
  | step moving view still =>
    have form := formed.spreadForm moving
    exact .step moving form (form.stepped moving view.ramped still) (kind ▸ view.shift)
  | unwind moving view active freed =>
    rw [t.kind_eq_release.mpr freed] at kind
    cases kind
  | @finish m nv moving view active =>
    have shift : Shift t.kind p.state (m.range.limit m.ramp) nv.state nv.ramp := view.shift
    have held := shift_holds (kind ▸ shift)
    rw [active] at held
    cases held.1

theorem HoldStep.held (formed : Formed p) (step : HoldStep p t h) (kind : t.kind = .hold) :
    h.state = .ramping ∧ heldRamp (rampOf h) = true := by
  cases step with
  | plain plain step =>
    have form := step.plainForm (formed.plainForm plain)
    have held := shift_holds (kind ▸ step.shift)
    rw [rampOf, form.noMove]
    exact ⟨held.1, held.2.1⟩
  | @start plan nv plans view shift | @step plan nv moving form formHeld shift =>
    refine ⟨(shift_holds shift).1, ?_⟩
    change heldRamp (plan.range.limit nv.ramp) = true
    rw [heldRamp_limit]
    exact (shift_holds shift).2.1

theorem holdKind (t : Transition) (inForce : t.release = false) :
    ({ t with hold := true } : Transition).kind = .hold := by
  simp [Transition.kind, inForce]

theorem completeKind (unheld : t.hold = false) (inForce : t.release = false) : t.kind = .step := by
  simp [Transition.kind, inForce, unheld]

theorem covers_of_clean (formed : Formed p) (clean : Clean p) (split : KnownSplit p)
    (hold : ApplyStep p t h) (kind : t.kind = .hold) (complete : ApplyStep h t' c)
    (completes : t'.kind = .step) (numbers : Numbered (rampOf h) ∧ Numbered (rampOf c))
    (ne : writeTo hash p key ≠ writeTo hash c key) : writeTo hash h key = .ok none := by
  have formedHeld := hold.formed formed
  have held := (holdStep_of_kind formed hold kind).held formed kind
  obtain ⟨a, b, atBefore, atHeld, first⟩ := applyStep_hand hash formed clean split hold
    (fun step => by rw [kind] at step; cases step) key
  obtain ⟨b', post, again, atAfter, second⟩ := applyStep_hand hash formedHeld
    (applyStep_clean formed clean hold) (applyStep_split formed split hold) complete
    (fun _ => numbers) key
  rw [atHeld] at again
  cases again
  have firstKind : stepKind p t = .hold := by simp [stepKind, handKind, kind]
  have secondKind : stepKind h t' = .complete := by simp [stepKind, handKind, completes, held.2]
  rw [firstKind] at first
  rw [secondKind] at second
  rw [writeTo_formed formed, writeTo_formed (complete.formed formedHeld), atBefore, atAfter] at ne
  rw [writeTo_formed formedHeld, atHeld, Except.map]
  exact congrArg Except.ok (first.hold_covers second fun eq => ne (by simp [Except.map, eq]))

theorem restores_of_clean (formed : Formed p) (clean : Clean p) (split : KnownSplit p)
    (hold : ApplyStep p t h) (kind : t.kind = .hold) (release : ApplyStep h t' r)
    (freed : t'.kind = .release) : writeTo hash r key = writeTo hash p key := by
  have formedHeld := hold.formed formed
  obtain ⟨a, b, atBefore, atHeld, first⟩ := applyStep_hand hash formed clean split hold
    (fun step => by rw [kind] at step; cases step) key
  obtain ⟨b', post, again, atAfter, second⟩ := applyStep_hand hash formedHeld
    (applyStep_clean formed clean hold) (applyStep_split formed split hold) release
    (fun step => by rw [freed] at step; cases step) key
  rw [atHeld] at again
  cases again
  have firstKind : stepKind p t = .hold := by simp [stepKind, handKind, kind]
  have secondKind : stepKind h t' = .release := by simp [stepKind, handKind, freed]
  rw [firstKind] at first
  rw [secondKind] at second
  rw [writeTo_formed formed, writeTo_formed (release.formed formedHeld), atBefore, atAfter,
    Except.map, Except.map, first.release_restores second]

theorem writeTo_foreign (formed : Formed p) (spread : p.spread) (foreign : p.keyHash ≠ rampHash) :
    writeTo hash p key = .error (.unknownRampHash p.keyHash) := by
  rw [writeTo_formed formed, handOf_foreign spread foreign]
  rfl

theorem HoldStep.keyHash (formed : Formed p) (spread : p.spread) (hold : HoldStep p t h) :
    h.spread ∧ h.keyHash = p.keyHash := by
  cases hold with
  | plain plain =>
    rw [spread] at plain
    cases plain
  | @start plan nv plans view =>
    refine ⟨(plans.spreadForm formed view).spread, ?_⟩
    change plan.base.keyHash = p.keyHash
    rw [plans.base]
    simp [Placement.spreadBase, spread]
  | step moving form formHeld => exact ⟨formHeld.spread, rfl⟩

theorem HoldStep.unwound (formed : Formed p) (spread : p.spread) (hold : HoldStep p t h)
    {m : Move} {nv : Placement} (moving : h.move = some m)
    (back : Shift .release h.state (m.range.limit m.ramp) .active nv.ramp) :
    (h.rested nv).spread = true := by
  cases hold with
  | plain plain =>
    rw [spread] at plain
    cases plain
  | @start plan first plans =>
    have base := plans.base
    rw [Placement.spreadBase, if_pos spread] at base
    have owners : plan.base.owners = p.owners := by rw [base]
    have rules : plan.base.prefixes = p.prefixes := by rw [base]
    have rests : p.move = none := by
      rcases formed with plain | form
      · exact plain.noMove
      · exact form.rest.mp plans.active
    rw [← spread]
    simp [Placement.spread, Placement.rested, MovePlan.started, owners, rules, rests]
  | @step m₀ first moved form formHeld shift =>
    cases moving
    rw [limit_eq_relimit, limit_eq_relimit, relimit_relimit] at back
    have active := shift_unwinds shift (limit_ramped _ (form.moving m₀ moved).ramped) back
    rw [form.rest.mp active] at moved
    cases moved

theorem HoldStep.release_keyHash (formed : Formed p) (spread : p.spread)
    (hold : HoldStep p t h) (formedHeld : Formed h) (held : h.state = .ramping)
    (release : ApplyStep h t' r) (freed : t'.release) : r.spread ∧ r.keyHash = p.keyHash := by
  obtain ⟨spreadHeld, sameHash⟩ := hold.keyHash formed spread
  rw [← sameHash]
  cases release with
  | plain plain =>
    rw [spreadHeld] at plain
    cases plain
  | start plans =>
    rw [plans.active] at held
    cases held
  | step moving view still =>
    exact ⟨((formedHeld.spreadForm moving).stepped moving view.ramped still).spread, rfl⟩
  | finish moving view active inForce =>
    rw [freed] at inForce
    cases inForce
  | @unwind m nv moving view active =>
    have shift : Shift t'.kind h.state (m.range.limit m.ramp) nv.state nv.ramp := view.shift
    rw [active, t'.kind_eq_release.mpr freed] at shift
    have stays := hold.unwound formed spread moving shift
    have core := (formedHeld.spreadForm moving).toSpreadCore.rested nv
    rcases settle_shape core rfl with ⟨eq, -⟩ | ⟨o, alone, noRules, -⟩
    · rw [eq]
      exact ⟨stays, rfl⟩
    · simp [Placement.spread, alone, noRules] at stays
      cases stays

def viewRamp (p : Placement) : Option Ramp :=
  match p.move with
  | some m => m.range.limit m.ramp
  | none => p.ramp

def limited (p : Placement) (ramp : Option Ramp) : Option Ramp :=
  match p.move with
  | some m => m.range.limit ramp
  | none => ramp

def taken (hash : Key → Hash) (p : Placement) (key : Key) : Bool :=
  p.move.isNone || inMove hash p key

def handAt (hash : Key → Hash) (p : Placement) (key : Key) (phase : Phase) : Hand Leg :=
  match p.move with
  | some m => ⟨phase, ownerLeg hash p key, legIn p.legs m.dest⟩
  | none => ⟨phase, endpoint p .source, endpoint p .primary⟩

theorem handAt_held (p : Placement) (key : Key) (phase : Phase) :
    (handAt hash p key phase).writes = none ↔ phase = .held := by
  unfold handAt
  cases p.move <;> cases phase <;> simp [Hand.writes]

theorem handOf_taken (formed : Formed p) (split : KnownSplit p) (away : p.state ≠ .active)
    (takes : taken hash p key) : handOf hash p key = (phaseOf hash p.state (viewRamp p) key).map
      (handAt hash p key) := by
  cases moving : p.move with
  | none =>
    have plain : PlainForm p := by
      rcases formed with plain | spread
      · exact plain
      · exact absurd (spread.rest.mpr moving) away
    rw [handOf_plain plain.plain, viewRamp, moving]
    cases got : phaseOf hash p.state p.ramp key with
    | error => simp [Except.map]
    | ok => simp [Except.map, handIn, handAt, moving, phaseOf_ne_rest away got]
  | some m =>
    have form := formed.spreadForm moving
    have isIn : inMove hash p key := by simpa [taken, moving] using takes
    rw [handOf_move form (split form.spread) moving isIn, viewRamp, moving]
    cases got : phaseOf hash p.state (m.range.limit m.ramp) key with
    | error => simp [Except.map]
    | ok => simp [Except.map, handAt, moving, phaseOf_ne_rest away got]

theorem handOf_untaken (formed : Formed p) (split : KnownSplit p)
    (untaken : taken hash p key = false) : handOf hash p key =
      .ok ⟨.rest, ownerLeg hash p key, ownerLeg hash p key⟩ := by
  simp only [taken, Bool.or_eq_false_iff] at untaken
  cases moving : p.move with
  | none => simp [moving] at untaken
  | some =>
    have form := formed.spreadForm moving
    exact handOf_owner form.toSpreadCore form.spread (split form.spread) untaken.2

structure SameRoles (hash : Key → Hash) (p q : Placement) : Prop where
  moving : (q.move.map Move.range) = p.move.map Move.range
  takes : ∀ key, taken hash q key = taken hash p key
  hands : ∀ key phase, handAt hash q key phase = handAt hash p key phase
  owners : ∀ key, ownerLeg hash q key = ownerLeg hash p key

theorem applyStep_shift (hash : Key → Hash) (formed : Formed p) (step : ApplyStep p t q)
    (away : p.state ≠ .active) : ∃ ramp, Shift t.kind p.state (viewRamp p) q.state ramp ∧
      (q.state ≠ .active → viewRamp q = limited p ramp ∧ SameRoles hash p q) := by
  cases step with
  | plain plain step =>
    have form := formed.plainForm plain
    have formAfter := step.plainForm form
    have shift := step.shift
    refine ⟨q.ramp, ?_, ?_⟩
    · rw [viewRamp, form.noMove]
      exact shift
    intro still
    refine ⟨by rw [viewRamp, limited, form.noMove, formAfter.noMove], ?_⟩
    cases step with
    | leave active => exact absurd active away
    | unwind | finish => exact absurd rfl still
    | within =>
      exact ⟨rfl, fun _ => rfl, fun _ _ => by simp only [handAt, form.noMove]; rfl, fun _ => rfl⟩
  | start plans => exact absurd plans.active away
  | @step m nv moving view =>
    refine ⟨nv.ramp, ?_, fun _ => ⟨?_, ?_⟩⟩
    · rw [viewRamp, moving]
      exact view.shift
    · simp only [viewRamp, limited, moving, Placement.stepped, limit_eq_relimit, relimit_relimit]
    refine ⟨by rw [moving]; rfl, fun key => ?_, fun key phase => ?_, fun _ => rfl⟩
    · simp only [taken, inMove_stepped moving nv key]
      simp [Placement.stepped, moving]
    · simp only [handAt, moving]
      rfl
  | @unwind m nv moving view active =>
    have state := (rested_state (formed.spreadForm moving) moving nv).1
    refine ⟨nv.ramp, ?_, fun still => absurd state still⟩
    rw [viewRamp, moving, state, ← active]
    exact view.shift
  | @finish m nv moving view active =>
    have state := (rested_state (formed.spreadForm moving) moving nv).2
    refine ⟨nv.ramp, ?_, fun still => absurd state still⟩
    rw [viewRamp, moving, state, ← active]
    exact view.shift

theorem limited_view (stands : viewRamp p = some old) (keys : Option RampHold) :
    limited p (some { old with hold := keys }) = some { old with hold := keys } := by
  unfold viewRamp at stands
  unfold limited
  cases moving : p.move with
  | none => rfl
  | some =>
    simp only [moving, HashRange.limit, map_eq_some_iff] at stands
    obtain ⟨r, -, rfl⟩ := stands
    rfl

theorem limited_congr (eq : q.move.map Move.range = p.move.map Move.range) (ramp : Option Ramp) :
    limited q ramp = limited p ramp := by
  unfold limited
  cases prev : p.move with
  | none =>
    rw [prev, map_none, map_eq_none_iff] at eq
    rw [eq]
  | some =>
    rw [prev, map_some, map_eq_some_iff] at eq
    obtain ⟨post, stands, range⟩ := eq
    rw [stands]
    simp only [range]

theorem viewRamp_ramped (formed : Formed p) : Ramped p.state (viewRamp p) := by
  unfold viewRamp
  rcases formed with plain | spread
  · rw [plain.noMove]
    exact plain.ramped
  cases moving : p.move with
  | none =>
    rw [spread.rest.mpr moving]
    simp only [spread.ramp]
    exact ⟨by simp, by intro r no; cases no⟩
  | some m => exact limit_ramped _ (spread.moving m moving).ramped

theorem SameRoles.trans (first : SameRoles hash p q) (second : SameRoles hash q r) :
    SameRoles hash p r :=
  ⟨second.moving.trans first.moving, fun key => (second.takes key).trans (first.takes key),
    fun key phase => (second.hands key phase).trans (first.hands key phase),
    fun key => (second.owners key).trans (first.owners key)⟩

theorem hold_in_progress (hash : Key → Hash) (formed : Formed p) (hold : ApplyStep p t h)
    (kind : t.kind = .hold) (away : p.state ≠ .active) :
    ∃ old keys, p.state = .ramping ∧ viewRamp p = some old ∧ old.hold = none ∧
      (old.hash = rampHash ∨ keys = { ratio := 1 }) ∧ h.state = .ramping ∧
      viewRamp h = some { old with hold := some keys } ∧ SameRoles hash p h ∧
      Shift .hold .ramping (some old) .ramping (some { old with hold := some keys }) := by
  obtain ⟨ramp, shift, onward⟩ := applyStep_shift hash formed hold away
  rw [kind] at shift
  obtain ⟨old, keys, prev, stands, unheld, post, eq, has⟩ := shift_hold_ramp shift away
  obtain ⟨view, roles⟩ := onward (by rw [post]; simp)
  rw [eq, limited_view stands] at view
  rw [prev, stands, post, eq] at shift
  exact ⟨old, keys, prev, stands, unheld, has, post, view, roles, shift⟩

theorem writeTo_sameRoles (formed : Formed p) (formed' : Formed q) (split : KnownSplit p)
    (split' : KnownSplit q) (away : p.state ≠ .active) (away' : q.state ≠ .active)
    (roles : SameRoles hash p q) (phases : taken hash p key →
      phaseOf hash q.state (viewRamp q) key = phaseOf hash p.state (viewRamp p) key) :
    writeTo hash q key = writeTo hash p key := by
  rw [writeTo_formed formed, writeTo_formed formed']
  cases takes : taken hash p key with
  | true =>
    rw [handOf_taken formed split away takes,
      handOf_taken formed' split' away' ((roles.takes key).trans takes), phases takes]
    cases phaseOf hash p.state (viewRamp p) key with
    | error => rfl
    | ok phase => simp only [Except.map, roles.hands key phase]
  | false =>
    rw [handOf_untaken formed split takes,
      handOf_untaken formed' split' ((roles.takes key).trans takes), roles.owners key]

theorem restores_in_progress (formed : Formed p) (split : KnownSplit p) (away : p.state ≠ .active)
    (hold : ApplyStep p t h) (kind : t.kind = .hold) (release : ApplyStep h t' r)
    (freed : t'.kind = .release) : writeTo hash r key = writeTo hash p key := by
  obtain ⟨old, keys, prev, stands, unheld, -, held, view, roles, -⟩ :=
    hold_in_progress hash formed hold kind away
  have formedHeld := hold.formed formed
  have splitHeld := applyStep_split formed split hold
  have moves := (viewRamp_ramped formed).moves old stands unheld
  obtain ⟨last, shift, onward⟩ := applyStep_shift hash formedHeld release (by rw [held]; simp)
  rw [freed, held, view] at shift
  obtain ⟨post, eq⟩ := shift_release_ramp unheld moves shift
  obtain ⟨viewAfter, rolesAfter⟩ := onward (by rw [post]; simp)
  have back : viewRamp r = some old := by
    rw [viewAfter, eq, limited_congr roles.moving]
    exact limited_view stands old.hold
  refine writeTo_sameRoles formed (release.formed formedHeld) split
    (applyStep_split formedHeld splitHeld release) away (by rw [post]; simp)
    (roles.trans rolesAfter) fun _ => ?_
  rw [back, stands, prev, post]

theorem phaseOf_foreign (foreign : old.hash ≠ rampHash) (key : Key) :
    (∃ e, phaseOf hash .ramping (some old) key = .error e ∧
        phaseOf hash .ramping (some { old with hold := some { ratio := 1 } }) key = .error e) ∨
      phaseOf hash .ramping (some old) key = .ok .moved ∧
        phaseOf hash .ramping (some { old with hold := some { ratio := 1 } }) key = .ok .moved ∨
      phaseOf hash .ramping (some { old with hold := some { ratio := 1 } }) key = .ok .held := by
  have eq : inRange hash (some { old with hold := some { ratio := 1 } }) key =
      inRange hash (some old) key := rfl
  simp only [phaseOf, eq]
  cases isIn : inRange hash (some old) key with
  | error e => exact .inl ⟨e, rfl, rfl⟩
  | ok moved =>
    cases moved with
    | true => exact .inr (.inl ⟨rfl, rfl⟩)
    | false =>
      refine .inr (.inr ?_)
      have whole : old.range = none := by
        by_contra limited
        obtain ⟨rg, range⟩ := ne_none_iff_exists'.mp limited
        simp [inRange, range, inRangeOf, foreign] at isIn
      have held : inHold hash (some { old with hold := some { ratio := 1 } }) key =
          .ok true := by
        simp [inHold, Ramp.heldRamp, inRange, whole, hasAnyPrefix]
      simp only [held]

theorem covers_foreign (formed : Formed p) (split : KnownSplit p) (away : p.state ≠ .active)
    (stands : viewRamp p = some old) (foreign : old.hash ≠ rampHash)
    (hold : ApplyStep p t h) (kind : t.kind = .hold) (complete : ApplyStep h t' c)
    (completes : t'.kind = .step) (ne : writeTo hash p key ≠ writeTo hash c key) :
    RefusedAlike (writeTo hash p key) (writeTo hash h key) := by
  obtain ⟨old', keys, prev, stands', unheld, has, held, view, roles, -⟩ :=
    hold_in_progress hash formed hold kind away
  rw [stands] at stands'
  cases stands'
  obtain rfl := has.resolve_left foreign
  have formedHeld := hold.formed formed
  have splitHeld := applyStep_split formed split hold
  have awayHeld : h.state ≠ .active := by rw [held]; simp
  obtain ⟨last, shift, onward⟩ := applyStep_shift hash formedHeld complete awayHeld
  rw [completes, held, view] at shift
  have post : c.state = .migrating := shift_complete_foreign (by exact foreign) shift
  have awayAfter : c.state ≠ .active := by rw [post]; simp
  obtain ⟨-, rolesAfter⟩ := onward awayAfter
  have formedAfter := complete.formed formedHeld
  have splitAfter := applyStep_split formedHeld splitHeld complete
  have all := roles.trans rolesAfter
  rw [writeTo_formed formed, writeTo_formed formedHeld]
  rw [writeTo_formed formed, writeTo_formed formedAfter] at ne
  cases takes : taken hash p key with
  | false =>
    rw [handOf_untaken formed split takes,
      handOf_untaken formedAfter splitAfter ((all.takes key).trans takes), all.owners key] at ne
    exact absurd rfl ne
  | true =>
    have takesHeld := (roles.takes key).trans takes
    rw [handOf_taken formed split away takes, prev, stands,
      handOf_taken formedAfter splitAfter awayAfter ((all.takes key).trans takes), post] at ne
    rw [handOf_taken formed split away takes, prev, stands,
      handOf_taken formedHeld splitHeld awayHeld takesHeld, held, view]
    rcases phaseOf_foreign foreign key with ⟨e, atBefore, atHeld⟩ | ⟨atBefore, atHeld⟩ | atHeld
    · rw [atBefore, atHeld]
      exact .inr ⟨e, rfl, rfl⟩
    · rw [atBefore] at ne
      simp only [phaseOf, Except.map, all.hands] at ne
      exact absurd rfl ne
    · rw [atHeld]
      exact .inl (congrArg Except.ok ((handAt_held h key .held).mpr rfl))

/-- The keys of a ramp are the same with and without the whole key space as its range. -/
def WholeAlike (old : Ramp) : Prop :=
  [] ∈ old.prefixes ∨ old.ratio ≤ 0 ∨ 1 ≤ old.ratio ∨
    (ratioLimit old.ratio : ℚ) = old.ratio.value * 2 ^ 64

theorem fullRange_width : (((fullRange.hi - fullRange.lo).toNat : ℚ) + 1) = 2 ^ 64 := by
  have width : (fullRange.hi - fullRange.lo).toNat = 2 ^ 64 - 1 := by decide
  rw [width]
  norm_num

theorem numbered_view : Numbered (viewRamp p) ↔ Numbered (rampOf p) := by
  unfold viewRamp rampOf
  cases p.move with
  | none => exact Iff.rfl
  | some m => exact numbered_relimit

theorem inKeys_full {ratio : Number} {prefixes : List Key} (number : ratio.isNum)
    (isIn : inKeys hash none ratio prefixes key) :
    inKeys hash (some fullRange) ratio prefixes key = true := by
  simp only [inKeys, inScope, all_none, all_some, fullRange_contains, Bool.true_and,
    Bool.or_eq_true] at isIn ⊢
  refine isIn.imp id fun shared => ?_
  unfold inShare at shared ⊢
  split at shared
  · cases shared
  rename_i pos
  rw [if_neg pos]
  split at shared
  · rename_i whole
    rw [if_pos whole]
  rename_i part
  rw [if_neg part]
  have below := of_decide_eq_true shared
  refine decide_eq_true ?_
  have start : hash key - fullRange.lo = hash key := by simp [fullRange]
  rw [start, fullRange_width]
  cases ratio with
  | nan => cases number
  | num q =>
    refine Number.num_lt.mpr ?_
    calc ((hash key).toNat : ℚ) < (ratioLimit (.num q) : ℚ) := by exact_mod_cast below
      _ ≤ q * 2 ^ 64 := Rat.floor_le _

theorem inKeys_exact (alike : WholeAlike old) (number : old.ratio.isNum)
    (isIn : inKeys hash (some fullRange) old.ratio old.prefixes key) :
    inKeys hash none old.ratio old.prefixes key = true := by
  simp only [inKeys, inScope, all_none, all_some, fullRange_contains, Bool.true_and,
    Bool.or_eq_true] at isIn ⊢
  rcases alike with every | ratio
  · exact .inl ((hasAnyPrefix_iff key old.prefixes).mpr ⟨[], every, rfl⟩)
  refine isIn.imp id fun shared => ?_
  unfold inShare at shared ⊢
  split at shared
  · cases shared
  rename_i pos
  rw [if_neg pos]
  split at shared
  · rename_i whole
    rw [if_pos whole]
  rename_i part
  rw [if_neg part]
  have exact_ := (ratio.resolve_left pos).resolve_left part
  have below := of_decide_eq_true shared
  have start : hash key - fullRange.lo = hash key := by simp [fullRange]
  cases eq : old.ratio with
  | nan => simp [eq, Number.isNum] at number
  | num q =>
    rw [eq] at exact_ below
    rw [start, fullRange_width, Number.scale, Number.num_lt] at below
    change (ratioLimit (.num q) : ℚ) = q * 2 ^ 64 at exact_
    rw [← exact_] at below
    exact decide_eq_true (by exact_mod_cast below)

theorem handAt_step {kind : HandKind} {prev post : Phase}
    (steps : prev.steps kind post) (going : post ≠ .rest) :
    HandStep kind (handAt hash p key prev) (handAt hash p key post) := by
  unfold handAt
  cases p.move with
  | none | some => exact ⟨steps, by simp [going], fun _ _ => rfl⟩

theorem covers_whole (form : PlainForm p) (away : p.state ≠ .active) (stands : p.ramp = some old)
    (has : old.hash = rampHash) (range : old.range = some fullRange) (alike : WholeAlike old)
    (hold : ApplyStep p t h) (kind : t.kind = .hold) (complete : ApplyStep h t' c)
    (completes : t'.kind = .step) (numbers : Numbered (rampOf h) ∧ Numbered (rampOf c))
    (ne : writeTo hash p key ≠ writeTo hash c key) : writeTo hash h key = .ok none := by
  have formed : Formed p := .inl form
  have split : KnownSplit p := fun spread => by rw [form.plain] at spread; cases spread
  have view : viewRamp p = some old := by
    rw [viewRamp, form.noMove]
    exact stands
  obtain ⟨old', keys, prev, stands', unheld, -, held, viewHeld, roles, first⟩ :=
    hold_in_progress hash formed hold kind away
  rw [view] at stands'
  cases stands'
  have formedHeld := hold.formed formed
  have splitHeld := applyStep_split formed split hold
  have awayHeld : h.state ≠ .active := by rw [held]; simp
  obtain ⟨last, second, onward⟩ := applyStep_shift hash formedHeld complete awayHeld
  rw [completes, held, viewHeld] at second
  have knownHeld : KnownHash (some { old with hold := some keys }) := by
    intro r eq
    cases eq
    exact has
  obtain ⟨awayAfter, bare⟩ := shift_complete_bare second
  obtain ⟨viewAfter, rolesAfter⟩ := onward awayAfter
  have all := roles.trans rolesAfter
  have movingAfter : viewRamp c = last := by
    rw [viewAfter, limited_congr roles.moving, limited, form.noMove]
  have numbersHeld := numbered_view.mpr numbers.1
  have numbersAfter := numbered_view.mpr numbers.2
  rw [viewHeld] at numbersHeld
  have number : old.ratio.isNum := numbersHeld.ratio
  -- the handovers without the range, where the known case applies
  have firstPhases : ∃ a b, phaseOf hash .ramping (relimit none (some old)) key = .ok a ∧
      phaseOf hash .ramping (relimit none (some { old with hold := some keys })) key = .ok b ∧
      a.steps .hold b = true :=
    shift_phases first (by intro r eq; cases eq; exact has) (fun step => by cases step) rfl
  have secondPhases : ∃ b d,
      phaseOf hash .ramping (relimit none (some { old with hold := some keys })) key = .ok b ∧
      phaseOf hash c.state (relimit none last) key = .ok d ∧ b.steps .complete d = true :=
    shift_phases second knownHeld (fun _ => ⟨numbersHeld, movingAfter ▸ numbersAfter⟩) rfl
  obtain ⟨a, b, atBefore, atHeld, hands⟩ := firstPhases
  obtain ⟨b', d, again, atAfter, completed⟩ := secondPhases
  rw [atHeld] at again
  cases again
  rw [bare] at atAfter
  have takes : taken hash p key := by simp [taken, form.noMove]
  -- the range takes no key from the ramp in force
  have sameBefore : phaseOf hash .ramping (some old) key = .ok a := by
    rw [← atBefore, phaseOf_ramp has, relimit, map_some,
      phaseOf_ramp (r := { old with range := none }) has]
    have eq : inKeys hash old.range old.ratio old.prefixes key =
        inKeys hash none old.ratio old.prefixes key := by
      rw [range]
      exact Bool.eq_iff_iff.mpr ⟨inKeys_exact alike number, inKeys_full number⟩
    simp only [eq, unheld, any_none]
  have heldAlike : b = .held →
      phaseOf hash .ramping (some { old with hold := some keys }) key = .ok .held := by
    intro waits
    rw [waits, relimit, map_some,
      phaseOf_ramp (r := { old with hold := some keys, range := none }) has] at atHeld
    rw [phaseOf_ramp (r := { old with hold := some keys }) has]
    simp only [any_some, range] at atHeld ⊢
    cases isIn : inKeys hash none old.ratio old.prefixes key with
    | true => simp [isIn] at atHeld
    | false =>
      have outside : inKeys hash (some fullRange) old.ratio old.prefixes key = false := by
        by_contra stays
        rw [inKeys_exact alike number (by simpa using stays)] at isIn
        cases isIn
      cases waiting : inKeys hash none keys.ratio keys.prefixes key with
      | true => simp [outside, inKeys_full (numbersHeld.held rfl) waiting]
      | false => simp [isIn, waiting] at atHeld
  have waits : (handAt hash p key b).writes = none := by
    refine (handAt_step hands (phaseOf_ne_rest (by simp) atHeld)).hold_covers
      (handAt_step completed (phaseOf_ne_rest awayAfter atAfter)) fun eq => ne ?_
    rw [writeTo_formed formed, writeTo_formed (complete.formed formedHeld),
      handOf_taken formed split away takes, prev, view, sameBefore,
      handOf_taken (complete.formed formedHeld) (applyStep_split formedHeld splitHeld complete)
        awayAfter ((all.takes key).trans takes), movingAfter, atAfter]
    simp only [Except.map, all.hands, eq]
  rw [writeTo_formed formedHeld,
    handOf_taken formedHeld splitHeld awayHeld ((roles.takes key).trans takes), held, viewHeld,
    heldAlike ((handAt_held p key b).mp waits)]
  exact congrArg Except.ok ((handAt_held h key .held).mpr rfl)

theorem release_ok {v : Placement} {barrier : String} (ramping : v.state = .ramping)
    (held : heldRamp v.ramp) (own : barrier = "" ∨ v.carries barrier) :
    ∃ r, v.release barrier = .ok r := by
  unfold Placement.release
  cases stands : v.ramp with
  | none => simp [stands, heldRamp] at held
  | some ramp =>
    have pending : ramp.hold ≠ none := by
      rw [stands] at held
      simpa [heldRamp, isSome_iff_ne_none] using held
    have passes : ¬ (barrier ≠ "" ∧ v.carries barrier = false) := by
      rintro ⟨named, other⟩
      rw [own.resolve_left named] at other
      cases other
    simp only [ramping, ne_eq, not_true_eq_false, false_or, if_neg pending, if_neg passes]
    split <;> exact ⟨_, rfl⟩

theorem apply_release_ok (formed : Formed h) (ramping : h.state = .ramping)
    (held : heldRamp (rampOf h)) {barrier : String} (own : barrier = "" ∨ h.carries barrier) :
    ∃ r, h.apply { release := true, barrier := barrier } = .ok r := by
  have solved : h.resolve { release := true, barrier := barrier } =
      .ok { release := true, barrier := barrier } := by
    simp [Placement.resolve, Placement.resolveShare, Placement.resolveRange, Placement.resolveLeg]
  unfold Placement.apply
  simp only [solved]
  cases moving : h.move with
  | none =>
    have plain : h.spread = false := by
      rcases formed with plain | spread
      · exact plain.plain
      · rw [spread.rest.mpr moving] at ramping
        cases ramping
    have own' : heldRamp h.ramp := by
      rw [rampOf, moving] at held
      exact held
    simpa [plain, Placement.applyRoles] using release_ok ramping own' own
  | some m =>
    have spread := (formed.spreadForm moving).spread
    have pending : heldRamp (h.moveView m).ramp := by
      change heldRamp (m.range.limit m.ramp) = true
      rw [heldRamp_limit]
      rw [rampOf, moving] at held
      exact held
    obtain ⟨nv, freed⟩ := release_ok (v := h.moveView m) ramping pending own
    have repeats : h.checkRepeat m { release := true, barrier := barrier } = .ok () := by
      simp [Placement.checkRepeat]
    simp only [spread, true_or, if_true, Placement.applyMove, moving, Placement.stepMove, repeats,
      Transition.forRoles, Placement.applyRoles, freed]
    split <;> exact ⟨_, rfl⟩

theorem not_clean (formed : Formed p) (unclean : ¬ Clean p) :
    p.state ≠ .active ∧ ∃ old, viewRamp p = some old ∧
      (old.hash ≠ rampHash ∨ p.spread = false ∧ old.range ≠ none) := by
  have away : p.state ≠ .active := fun active => unclean (sound_active formed active).clean
  refine ⟨away, ?_⟩
  by_contra none
  push Not at none
  refine unclean ⟨?_, ?_⟩
  · intro r stands
    unfold rampOf at stands
    cases moving : p.move with
    | none =>
      rw [moving] at stands
      exact (none r (by rw [viewRamp, moving]; exact stands)).1
    | some m =>
      simp only [moving] at stands
      exact (none { r with range := some m.range }
        (by simp [viewRamp, moving, stands, HashRange.limit])).1
  · intro plain r stands
    have noMove := (formed.plainForm plain).noMove
    exact (none r (by rw [viewRamp, noMove]; exact stands)).2 plain

theorem covers_step (formed : Formed p) (kept : ¬ RangeLost p) (split : KnownSplit p)
    (hold : ApplyStep p t h) (kind : t.kind = .hold) (complete : ApplyStep h t' c)
    (completes : t'.kind = .step) (numbers : Numbered (rampOf h) ∧ Numbered (rampOf c))
    (ne : writeTo hash p key ≠ writeTo hash c key) :
    RefusedAlike (writeTo hash p key) (writeTo hash h key) := by
  by_cases clean : Clean p
  · exact .inl (covers_of_clean formed clean split hold kind complete completes numbers ne)
  obtain ⟨away, old, view, foreign | ⟨plain, range⟩⟩ := not_clean formed clean
  · exact covers_foreign formed split away view foreign hold kind complete completes ne
  by_cases has : old.hash = rampHash
  · have form := formed.plainForm plain
    have stands : p.ramp = some old := by rwa [viewRamp, form.noMove] at view
    obtain ⟨rg, limits⟩ := ne_none_iff_exists'.mp range
    obtain ⟨old', _, _, again, unheld, -, -, viewHeld, -⟩ := hold_in_progress hash formed hold kind
      away
    rw [view] at again
    cases again
    have full : rg = fullRange := by
      by_contra part
      exact kept ⟨plain, old, rg, stands, unheld, has, limits, .inl part⟩
    have alike : WholeAlike old := by
      by_contra lost
      have number := (viewHeld ▸ numbered_view.mpr numbers.1).ratio
      unfold WholeAlike at lost
      push Not at lost
      exact kept ⟨plain, old, rg, stands, unheld, has, limits, .inr ⟨lost.1,
        Number.lt_of_not_le number rfl lost.2.1, Number.lt_of_not_le rfl number lost.2.2.1,
        lost.2.2.2⟩⟩
    exact .inl (covers_whole form away stands has (full ▸ limits) alike hold kind complete
      completes numbers ne)
  · exact covers_foreign formed split away view has hold kind complete completes ne

theorem restores_step (formed : Formed p) (split : KnownSplit p)
    (hold : ApplyStep p t h) (kind : t.kind = .hold) (release : ApplyStep h t' r)
    (freed : t'.kind = .release) : writeTo hash r key = writeTo hash p key := by
  by_cases away : p.state = .active
  · exact restores_of_clean formed (sound_active formed away).clean split hold kind release freed
  · exact restores_in_progress formed split away hold kind release freed

theorem holdCovers_of_kept (formed : Formed p) (kept : ¬ RangeLost p) : HoldCovers p := by
  intro hash t h inForce res
  obtain ⟨t₁, solved, hold⟩ := apply_step formed res
  have kind : t₁.kind = .hold := (resolve_kind solved).trans (holdKind t inForce)
  have formedHeld := hold.formed formed
  have steps := holdStep_of_kind formed hold kind
  have held := steps.held formed kind
  refine ⟨?_, ?_, fun barrier own => apply_release_ok formedHeld held.1 held.2 own⟩
  · intro t' c key unheld stays completed numbersHeld numbersAfter ne
    obtain ⟨t₂, solved', complete⟩ := apply_step formedHeld completed
    have completes := (resolve_kind solved').trans (completeKind unheld stays)
    by_cases split : KnownSplit p
    · exact covers_step formed kept split hold kind complete completes
        ⟨numbersHeld, numbersAfter⟩ ne
    unfold KnownSplit at split
    push Not at split
    obtain ⟨spread, foreign⟩ := split
    obtain ⟨spreadHeld, sameHash⟩ := steps.keyHash formed spread
    rw [writeTo_foreign formed spread foreign,
      writeTo_foreign formedHeld spreadHeld (by rw [sameHash]; exact foreign), sameHash]
    exact .inr ⟨_, rfl, rfl⟩
  · intro t' r key freed restored
    obtain ⟨t₂, solved', release⟩ := apply_step formedHeld restored
    have releases : t₂.kind = .release :=
      (resolve_kind solved').trans (t'.kind_eq_release.mpr freed)
    by_cases split : KnownSplit p
    · exact restores_step formed split hold kind release releases
    unfold KnownSplit at split
    push Not at split
    obtain ⟨spread, foreign⟩ := split
    obtain ⟨spreadAfter, sameHash⟩ := steps.release_keyHash formed spread formedHeld held.1 release
      (t₂.kind_eq_release.mp releases)
    rw [writeTo_foreign formed spread foreign,
      writeTo_foreign (release.formed formedHeld) spreadAfter (by rw [sameHash]; exact foreign),
      sameHash]

end Shunt.Migrate
