/-
A move changes exactly the keys it names.  Over a whole run of a move, from its
first step to the return to rest, every other key keeps its owner, and the keys
of the move go from their owner to the destination.
-/

import Shunt.Directory.Completion
import Shunt.Migrate.Order

namespace Shunt.Migrate

open Directory Option Relation

variable {hash : Key → Hash} {p q r s : Placement} {t : Transition} {m : Move} {key : Key}

def wholeRange (p : Placement) (t : Transition) : Option HashRange :=
  match t.range with
  | some rg => some rg
  | none =>
    (((p.spreadBase.scopeTable t.scope).getD []).find? fun o =>
      decide (t.leg = "") || decide (o.leg = t.leg)).map fun o => ⟨o.lo, o.hi⟩

def namedRange (p : Placement) (t : Transition) : Option HashRange :=
  (wholeRange p t).map fun rg => if t.share = 0 then rg else leadingShare rg t.share

def RangeOverwritten (p : Placement) (t : Transition) : Prop :=
  p.spread = false ∧ OtherBucket p t ∧ namedRange p t ≠ some fullRange

theorem shareOf_named {whole : HashRange} (isIn : t.share = 0 ∨ ¬ (t.share < 0 ∨ 1 < t.share)) :
    (if t.share = 0 then whole else leadingShare whole t.share) = t.shareOf whole := by
  by_cases given : t.share = 0
  · rw [if_pos given, Transition.shareOf, if_neg (by rw [given]; simp)]
  · rw [if_neg given, leadingShare_of_shareOf given (isIn.resolve_left given)]

theorem namedRange_spread {plan : MovePlan} (solved : p.resolve t = .ok t)
    (plans : Planned p t plan) : namedRange p t = some plan.range := by
  obtain ⟨table, whole, got, names, range, -⟩ := plans.range
  have named : wholeRange p t = some whole := by
    unfold wholeRange
    cases names with
    | given named => rw [named]
    | ofLeg unnamed byLeg first =>
      rw [unnamed, got, getD_some]
      simp [byLeg, first]
    | ofScope unnamed scopeOnly alone =>
      rw [unnamed, got, getD_some, alone]
      simp [scopeOnly]
  rw [namedRange, named, map_some, shareOf_named (resolve_inside solved), range]

theorem namedRange_plain {u : Transition} (form : PlainForm p) (active : p.state = .active)
    (scope : t.scope = []) (solved : p.resolve t = .ok u) :
    namedRange p t = some (t.shared.getD fullRange) := by
  obtain ⟨-, -, leg, -⟩ := resolve_plain form.plain active solved
  have whole : wholeRange p t = some (t.range.getD fullRange) := by
    unfold wholeRange
    cases t.range with
    | some => rfl
    | none =>
      rw [scope, Placement.spreadBase, if_neg (ne_true_of_eq_false form.plain)]
      simp only [Placement.scopeTable, if_true, Placement.asSpread, getD_some]
      rcases leg with none | same
      · simp [none, fullRange]
      · simp [same, fullRange]
  rw [namedRange, whole, map_some, Transition.shared]
  by_cases given : t.share = 0
  · rw [if_pos given, if_pos given]
  · rw [if_neg given, if_neg given, resolve_share_unranged given solved]
    rfl

theorem namedRange_iff {u : Transition} {plan : MovePlan} (formed : Formed p)
    (solved : p.resolve t = .ok u) (plans : Planned p u plan) :
    namedRange p t = some plan.range ↔ ¬ RangeOverwritten p t := by
  have frame := resolve_frame solved
  rcases formed with form | form
  · obtain ⟨unshared, -, -, ranged⟩ := resolve_plain form.plain plans.active solved
    have scope := (plans.plainTable form).1
    have range := plans.plainRange form unshared
    have sameScope : t.scope = [] := by rw [← scope, frame]
    unfold RangeOverwritten
    rw [range, namedRange_plain form plans.active sameScope solved]
    generalize u.range = given at ranged
    cases ranged with
    | every other => simp [form.plain, other]
    | whole away full | kept full => simp [full]
  · have same := resolve_spread form.spread solved
    subst same
    simp [namedRange_spread solved plans, RangeOverwritten, form.spread]

structure Underway (q : Placement) (m : Move) (s : Placement) : Prop where
  form : SpreadForm s
  same : s = { q with state := s.state, barrier := s.barrier, move := s.move }
  move : ∃ ramp cutover, s.move = some { m with ramp := ramp, cutover := cutover }

theorem Underway.away (underway : Underway q m s) : s.state ≠ .active := by
  intro active
  obtain ⟨ramp, cutover, moving⟩ := underway.move
  rw [underway.form.rest.mp active] at moving
  cases moving

theorem Underway.owner (underway : Underway q m s) (key : Key) :
    homeLeg hash s key = ownerLeg hash q key := by
  rw [homeLeg, if_pos underway.form.spread, underway.same]
  rfl

theorem Underway.inMove (underway : Underway q m s) (moving : q.move = some m) (key : Key) :
    Migrate.inMove hash s key = Migrate.inMove hash q key := by
  obtain ⟨ramp, cutover, going⟩ := underway.move
  have scope : s.scope key = q.scope key := by rw [underway.same]; rfl
  simp [Migrate.inMove, going, moving, scope]

theorem underway_start (form : SpreadForm q) (moving : q.move = some m) : Underway q m q :=
  ⟨form, rfl, m.ramp, m.cutover, moving⟩

inductive MoveStep (q : Placement) (m : Move) (t : Transition) (s : Placement) : Prop where
  | on (underway : Underway q m s) : MoveStep q m t s
  | back (active : s.state = .active) (freed : t.release = true)
      (homes : ∀ hash key, homeLeg hash s key = ownerLeg hash q key) : MoveStep q m t s
  | done (active : s.state = .active) (inForce : t.release = false)
      (homes : ∀ hash key, homeLeg hash s key =
        if Migrate.inMove hash q key then legIn q.legs m.dest else ownerLeg hash q key) :
      MoveStep q m t s

theorem Underway.applied (underway : Underway q m r) (moving : q.move = some m)
    (res : r.apply t = .ok s) : MoveStep q m t s := by
  obtain ⟨t', solved, step⟩ := apply_step (.inr underway.form) res
  cases resolve_spread underway.form.spread solved
  obtain ⟨ramp, cutover, going⟩ := underway.move
  have form := underway.form
  cases step with
  | plain plain => rw [form.spread] at plain; cases plain
  | start plans => exact absurd plans.active underway.away
  | @step m' nv movingNow view still =>
    rw [going] at movingNow
    cases movingNow
    refine .on ⟨form.stepped going view.ramped still, ?_, _, _, rfl⟩
    rw [underway.same]
    rfl
  | @unwind m' nv movingNow view active freed =>
    refine .back (rested_state form movingNow nv).1 freed fun hash key => ?_
    rw [homeLeg_settle (form.toSpreadCore.rested nv) rfl, ← underway.owner key, homeLeg,
      if_pos form.spread]
    rfl
  | @finish m' nv movingNow view active inForce =>
    refine .done (rested_state form movingNow nv).2 inForce fun hash key => ?_
    rw [endMove_eq, homeLeg_settle (ended_core nv form movingNow) (setScopeTable_move _ _ _),
      ownerLeg_ended form movingNow nv key, underway.inMove moving key, ← underway.owner key,
      homeLeg, if_pos form.spread]
    rw [going] at movingNow
    cases movingNow
    have legs : r.legs = q.legs := by rw [underway.same]
    rw [legs]

theorem underway_run (form : SpreadForm q) (moving : q.move = some m)
    (run : ReflTransGen Continued q s) :
    Underway q m s ∨ ∃ r t, Underway q m r ∧ r.apply t = .ok s ∧ s.state = .active := by
  induction run with
  | refl => exact .inl (underway_start form moving)
  | tail _ step ih =>
    obtain ⟨away, t, res⟩ := step
    rcases ih with underway | ⟨-, -, -, -, active⟩
    · cases underway.applied moving res with
      | on underway => exact .inl underway
      | back active | done active => exact .inr ⟨_, t, underway, res, active⟩
    · exact absurd active away

def HoldsBucket (p : Placement) (bucket : Leg) : Prop :=
  ∃ id : String, p.spreadBase.legs[id]? = some bucket

theorem homeLeg_holds (formed : Formed p) (key : Key) : HoldsBucket p (homeLeg hash p key) := by
  rw [← ownerLeg_spreadBase formed key]
  have mem : ownerID hash p.spreadBase key ∈ p.spreadBase.legs :=
    ownerID_mem (spreadBase_tables formed) key
  obtain ⟨l, got⟩ := exists_leg mem
  exact ⟨_, by rw [ownerLeg, legIn_of_getElem? got]; exact got⟩

structure MovesNamedKeys (p : Placement) (t : Transition) (q : Placement) (m : Move) : Prop where
  named : m.scope = t.scope ∧ namedRange p t = some m.range
  outside : ∀ hash key s, ReflTransGen Continued q s →
    inMove hash q key = false → homeLeg hash s key = homeLeg hash p key
  source : ∀ hash key s, ReflTransGen Continued q s → s.state ≠ .active →
    ∃ m', s.move = some m' ∧ m'.scope = m.scope ∧ m'.range = m.range ∧
      legIn s.legs m'.dest = legIn q.legs m.dest ∧
      (inMove hash q key = true → legIn s.legs m'.source = homeLeg hash p key)
  -- the release of the first step's hold takes the move back, any other end finishes it
  ended : ∀ hash key r u s, ReflTransGen Continued q r → r.state ≠ .active →
    r.apply u = .ok s → s.state = .active → inMove hash q key = true → homeLeg hash s key =
      if u.release then homeLeg hash p key else legIn q.legs m.dest
  removed : ∀ r s bucket, r = p ∧ s = q ∨ ReflTransGen Continued q r ∧ Continued r s →
    HoldsBucket r bucket → ¬ HoldsBucket s bucket → ∀ hash key, homeLeg hash s key ≠ bucket ∧
      (homeLeg hash r key = bucket → inMove hash q key = true)

theorem started_plan (formed : Formed p) (active : p.state = .active)
    (started : p.apply t = .ok q) (moving : q.move = some m) : SpreadForm q ∧ m.scope = t.scope ∧
      (namedRange p t = some m.range ↔ ¬ RangeOverwritten p t) ∧
      ∀ hash key, ownerLeg hash q key = homeLeg hash p key := by
  obtain ⟨u, solved, step⟩ := apply_step formed started
  have form := (step.formed formed).spreadForm moving
  cases step with
  | plain plain step =>
    rw [((step.plainForm (formed.plainForm plain))).noMove] at moving
    cases moving
  | @start plan nv plans =>
    cases moving
    refine ⟨form, ?_, namedRange_iff formed solved plans, fun hash key => ?_⟩
    · change u.scope = t.scope
      rw [resolve_frame solved]
    · exact ownerLeg_planned formed plans key
  | step movingNow | unwind movingNow | finish movingNow =>
    rw [(formed.spreadForm movingNow).rest.mp active] at movingNow; cases movingNow

/-- Over a whole run a move changes exactly the keys its first step names, unless
the source overwrites what that step names. -/
theorem moves_named_keys_iff (valid : p.Valid) (active : p.state = .active)
    (started : p.apply t = .ok q) (moving : q.move = some m) :
    MovesNamedKeys p t q m ↔ ¬ RangeOverwritten p t := by
  obtain ⟨form, scope, named, owners⟩ := started_plan valid.formed active started moving
  refine ⟨fun moves => named.mp moves.named.2, fun exact_ => ?_⟩
  have outside : ∀ hash key s, ReflTransGen Continued q s →
      inMove hash q key = false → homeLeg hash s key = homeLeg hash p key := by
    intro hash key s run outside
    rw [← owners hash key]
    rcases underway_run form moving run with underway | ⟨r, u, underway, res, atRest⟩
    · exact underway.owner key
    cases underway.applied moving res with
    | on going => exact absurd atRest going.away
    | back _ _ homes => exact homes hash key
    | done _ _ homes =>
      rw [homes hash key, outside]
      rfl
  refine ⟨⟨scope, named.mpr exact_⟩, outside, ?_, ?_, ?_⟩
  · intro hash key s run away
    rcases underway_run form moving run with underway | ⟨-, -, -, -, atRest⟩
    · obtain ⟨ramp, cutover, going⟩ := underway.move
      have legs : s.legs = q.legs := by rw [underway.same]
      refine ⟨_, going, rfl, rfl, by rw [legs], fun isIn => ?_⟩
      rw [← owners hash key, ownerLeg, ownerID_inMove form moving isIn, legs]
    · exact absurd atRest away
  · intro hash key r u s run away res atRest isIn
    rcases underway_run form moving run with underway | ⟨-, -, -, -, resting⟩
    · cases underway.applied moving res with
      | on going => exact absurd atRest going.away
      | back _ freed homes =>
        rw [homes hash key, freed, if_pos rfl]
        exact owners hash key
      | done _ inForce homes =>
        rw [homes hash key, isIn, inForce]
        rfl
    · exact absurd resting away
  · intro r s bucket step _ gone hash key
    have sound : Sound q := (sound_active valid.formed active).applied ⟨t, started⟩
    -- a bucket of no leg is no key's home, and no key outside the move changed its home
    have away : homeLeg hash s key ≠ bucket := by
      intro same
      have formed : Formed s := by
        rcases step with ⟨-, rfl⟩ | ⟨run, continued⟩
        · exact sound.formed
        · exact ((sound.continues run).applied continued.2).formed
      exact gone (same ▸ homeLeg_holds formed key)
    refine ⟨away, fun prev => ?_⟩
    by_contra untouched
    have rests : inMove hash q key = false := by simpa using untouched
    apply away
    rcases step with ⟨rfl, rfl⟩ | ⟨run, continued⟩
    · rw [outside hash key s .refl rests, prev]
    · rw [outside hash key s (run.tail continued) rests, ← prev, outside hash key r run rests]

def firstHalf : HashRange := ⟨0, 0x7fffffffffffffff⟩

def halfToArchive : Transition :=
  { toState := some .migrating, target := "east", name := "acme-archive", range := some firstHalf }

def halfToWest : Transition :=
  { toState := some .migrating, target := "west", name := "acme-photos", range := some firstHalf }

def fromEast (to_ : String) (rg : HashRange) : Move :=
  { scope := [], range := rg, source := "east", dest := to_, ramp := none, cutover := none }

def photosMoving (to_ : String) (dest : Leg) (rg : HashRange) : Placement :=
  { state := .migrating, keyHash := rampHash
    legs := ((∅ : StrMap Leg).insert "east" ⟨"east", "acme-photos"⟩).insert to_ dest
    owners := [⟨fullRange.lo, fullRange.hi, "east"⟩]
    move := some (fromEast to_ rg) }

/-- Half of the keys are named, and every key moves: one whose hash is outside the
half is written to the other bucket. -/
theorem halfToArchive_moves_all : photos.Valid ∧ photos.apply halfToArchive =
        .ok (photosMoving "east-2" ⟨"east", "acme-archive"⟩ fullRange) ∧
      writeTo (fun _ => 0xffffffffffffffff)
        (photosMoving "east-2" ⟨"east", "acme-archive"⟩ fullRange) [] =
          .ok (some ⟨"east", "acme-archive"⟩) ∧ ¬ MovesNamedKeys photos halfToArchive
        (photosMoving "east-2" ⟨"east", "acme-archive"⟩ fullRange)
        (fromEast "east-2" fullRange) := by
  refine ⟨valid_of_directory rfl (by decide), by decide, by decide, ?_⟩
  intro moves
  have named := moves.named.2
  revert named
  decide

theorem halfToWest_moves_half :
    MovesNamedKeys photos halfToWest (photosMoving "west" ⟨"west", "acme-photos"⟩ firstHalf)
      (fromEast "west" firstHalf) :=
  (moves_named_keys_iff (valid_of_directory rfl (by decide)) rfl (by decide) rfl).mpr
    (by rintro ⟨-, ⟨-, away, -⟩, -⟩; revert away; decide)

end Shunt.Migrate
