/-
A key that has moved never moves back.  Over any run of transitions, a key whose
writes reached the target keeps being written there until the placement is at
rest again, and is then at home there.
-/

import Shunt.Migrate.KeyStep

namespace Shunt.Migrate

open Directory Relation
open Library (Phase Hand HandStep Number)

variable {hash : Key → Hash} {p q : Placement} {t : Transition} {key : Key}

def Applied (p q : Placement) : Prop := ∃ t, p.apply t = .ok q

def Continued (p q : Placement) : Prop := p.state ≠ .active ∧ Applied p q

/-- The step, where no ratio it stores is NaN. -/
def Numeric (step : Placement → Placement → Prop) (p q : Placement) : Prop :=
  step p q ∧ Numbered (rampOf q)

def targetOf (p : Placement) : Option Leg :=
  if p.state = .active then none
  else
    match p.move with
    | some m => some (legIn p.legs m.dest)
    | none => some (endpoint p .primary)

theorem targetOf_plain (form : PlainForm p) (away : p.state ≠ .active) :
    targetOf p = some (endpoint p .primary) := by
  rw [targetOf, if_neg away, form.noMove]

theorem targetOf_moving {m : Move} (form : SpreadForm p) (moving : p.move = some m) :
    targetOf p = some (legIn p.legs m.dest) := by
  have away := form.away moving
  rw [targetOf, if_neg away, moving]

theorem rested_state {m : Move} (form : SpreadForm p) (moving : p.move = some m) (nv : Placement) :
    (p.rested nv).settle.state = .active ∧ (p.endMove m nv).state = .active := by
  have core := ended_core nv form moving
  refine ⟨settle_state (form.toSpreadCore.rested nv) rfl, ?_⟩
  rw [endMove_eq]
  exact (settle_state core (setScopeTable_move _ _ _)).trans (setScopeTable_state _ _ _)

theorem applyStep_target (formed : Formed p) (step : ApplyStep p t q) (away : p.state ≠ .active)
    (still : q.state ≠ .active) : targetOf q = targetOf p := by
  cases step with
  | plain plain step =>
    have form := formed.plainForm plain
    rw [targetOf_plain form away, targetOf_plain (step.plainForm form) still]
    cases step with
    | leave active => exact absurd active away
    | within => rfl
    | unwind | finish => exact absurd rfl still
  | start plans => exact absurd plans.active away
  | step moving view going =>
    have form := formed.spreadForm moving
    rw [targetOf_moving form moving, targetOf_moving (form.stepped moving view.ramped going) rfl]
    rfl
  | @unwind m nv moving =>
    exact absurd (rested_state (formed.spreadForm moving) moving nv).1 still
  | @finish m nv moving =>
    exact absurd (rested_state (formed.spreadForm moving) moving nv).2 still

inductive Going (hash : Key → Hash) (p : Placement) (key : Key) : Hand Leg → Prop where
  | whole {phase : Phase} (form : PlainForm p) (away : p.state ≠ .active) :
      Going hash p key ⟨phase, endpoint p .source, endpoint p .primary⟩
  | part {m : Move} {phase : Phase} (form : SpreadForm p) (moving : p.move = some m)
      (isIn : inMove hash p key = true) :
      Going hash p key ⟨phase, ownerLeg hash p key, legIn p.legs m.dest⟩

theorem handOf_going (formed : Formed p) {a : Hand Leg} (got : handOf hash p key = .ok a)
    (going : a.phase ≠ .rest) : Going hash p key a := by
  cases handOf_cases formed got with
  | @plain phase form at_ =>
    have moving : phase ≠ .rest := going
    have away : p.state ≠ .active := by
      intro active
      rw [active] at at_
      exact moving (Except.ok.inj at_).symm
    simp only [handIn, if_neg moving]
    exact .whole form away
  | owner => exact absurd rfl going
  | move form _ moving isIn => exact .part form moving isIn

theorem Going.target {a : Hand Leg} (going : Going hash p key a) : targetOf p = some a.target := by
  cases going with
  | whole form away => exact targetOf_plain form away
  | part form moving => exact targetOf_moving form moving

theorem Going.apart {a : Hand Leg} (going : Going hash p key a) : a.home ≠ a.target := by
  cases going with
  | whole form =>
    simp only [endpoint_plain form.roles]
    intro eq
    exact form.apart (congrArg Leg.cluster eq)
  | @part m phase form moving isIn =>
    have ends := form.moving m moving
    obtain ⟨source, atSource⟩ := exists_leg ends.source
    obtain ⟨dest, atDest⟩ := exists_leg ends.dest
    simp only [ownerLeg, ownerID_inMove form moving isIn, legIn_of_getElem? atSource,
      legIn_of_getElem? atDest]
    intro eq
    subst eq
    exact ends.different (form.apart _ _ _ atSource atDest)

theorem applyStep_noStart (formed : Formed p) (split : KnownSplit p) (step : ApplyStep p t q)
    (away : p.state ≠ .active) {a b : Hand Leg} (prev : handOf hash p key = .ok a)
    (post : handOf hash q key = .ok b) (rests : a.phase = .rest) : b.phase = .rest := by
  have formAfter := step.formed formed
  have splitAfter := applyStep_split formed split step
  have ends : q.state = .active → b.phase = .rest := by
    intro active
    rw [handOf_rest formAfter splitAfter active] at post
    cases post
    rfl
  cases step with
  | plain plain =>
    rw [handOf_plain plain] at prev
    cases got : phaseOf hash p.state p.ramp key with
    | error => simp [got, Except.map] at prev
    | ok =>
      simp only [got, Except.map] at prev
      cases prev
      exact absurd rests (phaseOf_ne_rest away got)
  | start plans => exact absurd plans.active away
  | @step m nv moving view still =>
    by_contra going
    have form := formed.spreadForm moving
    have spreadAfter := form.stepped moving view.ramped still
    cases isIn : inMove hash p key with
    | false =>
      have outside : inMove hash (p.stepped m nv) key = false :=
        (inMove_stepped moving nv key).trans isIn
      rw [handOf_owner spreadAfter.toSpreadCore spreadAfter.spread (split form.spread)
        outside] at post
      cases post
      exact going rfl
    | true =>
      rw [handOf_move form (split form.spread) moving isIn] at prev
      cases got : phaseOf hash p.state (m.range.limit m.ramp) key with
      | error => simp [got, Except.map] at prev
      | ok =>
        simp only [got, Except.map] at prev
        cases prev
        exact phaseOf_ne_rest away got rests
  | @unwind m nv moving =>
    exact ends (rested_state (formed.spreadForm moving) moving nv).1
  | @finish m nv moving =>
    exact ends (rested_state (formed.spreadForm moving) moving nv).2

structure Sound (p : Placement) : Prop where
  formed : Formed p
  clean : Clean p

theorem sound_active (formed : Formed p) (active : p.state = .active) : Sound p := by
  have noRamp := rampOf_active formed active
  refine ⟨formed, ?_, ?_⟩
  · rw [noRamp]
    rintro r ⟨⟩
  intro plain r stands
  have eq : rampOf p = p.ramp := by rw [rampOf, (formed.plainForm plain).noMove]
  rw [← eq, noRamp] at stands
  cases stands

theorem Sound.applied (sound : Sound p) (step : Applied p q) : Sound q := by
  obtain ⟨t, res⟩ := step
  obtain ⟨t', -, step⟩ := apply_step sound.formed res
  exact ⟨step.formed sound.formed, applyStep_clean sound.formed sound.clean step⟩

theorem Sound.run (sound : Sound p) (run : ReflTransGen Applied p q) : Sound q := by
  induction run with
  | refl => exact sound
  | tail _ step ih => exact ih.applied step

theorem Sound.continues (sound : Sound p) (run : ReflTransGen Continued p q) : Sound q := by
  induction run with
  | refl => exact sound
  | tail _ step ih => exact ih.applied step.2

theorem numbered_run {step : Placement → Placement → Prop} (numbers : Numbered (rampOf p))
    (run : ReflTransGen (Numeric step) p q) : Numbered (rampOf q) := by
  cases run with
  | refl => exact numbers
  | tail _ last => exact last.2

/-- A key that is written where its migration or move goes is written there after
every further step. -/
structure Arrived (hash : Key → Hash) (key : Key) (bucket : Leg) (p : Placement) : Prop where
  sound : Sound p
  numbers : Numbered (rampOf p)
  split : KnownSplit p
  hand : ∃ a, handOf hash p key = .ok a ∧ a.settledAt bucket
  target : p.state ≠ .active → targetOf p = some bucket

theorem writeTo_formed (formed : Formed p) :
    writeTo hash p key = (handOf hash p key).map Hand.writes :=
  writeTo_hand fun _ sent => roled_of_formed formed sent

theorem Arrived.writes {bucket : Leg} (arrived : Arrived hash key bucket p) :
    writeTo hash p key = .ok (some bucket) := by
  obtain ⟨a, got, settled⟩ := arrived.hand
  rw [writeTo_formed arrived.sound.formed, got, Except.map, Hand.writes_settled settled]

theorem arrived_of_writes {bucket : Leg} (sound : Sound p) (numbers : Numbered (rampOf p))
    (target : targetOf p = some bucket)
    (wrote : writeTo hash p key = .ok (some bucket)) : Arrived hash key bucket p := by
  rw [writeTo_formed sound.formed] at wrote
  cases got : handOf hash p key with
  | error => simp [got, Except.map] at wrote
  | ok a =>
    have split : KnownSplit p := fun spread => known_of_hand spread got
    have writes : a.writes = some bucket := by
      simpa [got, Except.map] using wrote
    refine ⟨sound, numbers, split, ⟨a, got, ?_⟩, fun _ => target⟩
    by_cases rests : a.phase = .rest
    · rw [Hand.writes_home (.inl rests)] at writes
      exact .inl ⟨rests, Option.some.inj writes⟩
    have going := handOf_going sound.formed got rests
    have eq : a.target = bucket := by
      rw [going.target] at target
      exact Option.some.inj target
    have gone : a.gone := by
      cases phase : a.phase with
      | rest => exact absurd phase rests
      | out =>
        rw [Hand.writes_home (.inr phase), ← eq] at writes
        exact absurd (Option.some.inj writes) going.apart
      | held => simp [Hand.writes, phase] at writes
      | moved => exact .inl phase
      | cut => exact .inr phase
    exact .inr ⟨gone, eq⟩

theorem Arrived.continued {bucket : Leg} (arrived : Arrived hash key bucket p)
    (step : Numeric Continued p q) : Arrived hash key bucket q := by
  obtain ⟨⟨away, applied⟩, numbers⟩ := step
  have soundAfter := arrived.sound.applied applied
  obtain ⟨t, res⟩ := applied
  have formed := arrived.sound.formed
  obtain ⟨t', -, step⟩ := apply_step formed res
  obtain ⟨a, got, settled⟩ := arrived.hand
  obtain ⟨prev, b, atBefore, atAfter, moves⟩ :=
    applyStep_hand hash formed arrived.sound.clean arrived.split step
      (fun _ => ⟨arrived.numbers, numbers⟩) key
  rw [got] at atBefore
  cases atBefore
  exact
    { sound := soundAfter
      numbers
      split := applyStep_split formed arrived.split step
      hand := ⟨b, atAfter, moves.settled_stays
        (applyStep_noStart formed arrived.split step away got atAfter) settled⟩
      target := fun still =>
        (applyStep_target formed step away still).trans (arrived.target away) }

theorem Arrived.run {bucket : Leg} (arrived : Arrived hash key bucket p)
    (run : ReflTransGen (Numeric Continued) p q) : Arrived hash key bucket q := by
  induction run with
  | refl => exact arrived
  | tail _ step ih => exact ih.continued step

/-- Once a run from ACTIVE routes a key's writes to the target, every later state
of that migration or move routes them there, and at its end the key is at home
there, as long as no ratio is NaN. -/
theorem writes_never_go_back {start p q : Placement} {key : Key} {bucket : Leg}
    (valid : start.Valid) (atRest : start.state = .active)
    (run : ReflTransGen (Numeric Applied) start p) (target : targetOf p = some bucket)
    (wrote : writeTo hash p key = .ok (some bucket))
    (later : ReflTransGen (Numeric Continued) p q) :
    (q.state ≠ .active → targetOf q = some bucket ∧ writeTo hash q key = .ok (some bucket)) ∧
    (q.state = .active → homeLeg hash q key = bucket ∧ writeTo hash q key = .ok (some bucket)) := by
  have sound := (sound_active valid.formed atRest).run
    (ReflTransGen.mono (fun _ _ step => step.1) _ _ run)
  have numbers := numbered_run (rampOf_active valid.formed atRest ▸ numbered_none) run
  have arrived := (arrived_of_writes sound numbers target wrote).run later
  refine ⟨fun still => ⟨arrived.target still, arrived.writes⟩, fun active => ⟨?_, arrived.writes⟩⟩
  have rests : handOf hash q key = _ := handOf_rest arrived.sound.formed arrived.split active
  have home := arrived.writes
  rw [writeTo_formed arrived.sound.formed, rests] at home
  simpa [Except.map, Hand.writes] using home

def site (endpoint : String) : Config.Cluster :=
  { type := "minio", scheme := "http", region := "eu", endpointMode := "static"
    endpoints := [endpoint], credentials := ⟨"key", "env:SECRET"⟩ }

def directoryOf (p : Placement) : File :=
  { clusters := ((∅ : StrMap Config.Cluster).insert "east" (site "east:9000")).insert "west"
      (site "west:9000")
    tenants := (∅ : StrMap Tenant).insert "acme" ⟨"east"⟩
    placements := (∅ : StrMap Placement).insert "acme/photos" p }

theorem valid_of_directory (roles : p.legClusters = ∅) (ok : (directoryOf p).validate = []) :
    p.Valid :=
  ⟨roles, directoryOf p, "acme/photos", ok, Std.ExtTreeMap.getElem?_insert_self⟩

def photos : Placement :=
  { state := .active, primary := "east"
    names := (∅ : StrMap String).insert "east" "acme-photos" }

def photosMigrating : Placement :=
  { photos with
    state := .migrating, source := "east", primary := "west"
    names := photos.names.insert "west" "acme-photos" }

def photosCutover : Placement := { photosMigrating with state := .cutover }

def photosMoved : Placement :=
  { photos with primary := "west", names := (∅ : StrMap String).insert "west" "acme-photos" }

/-- A migration from east to west, to its end. -/
theorem photos_never_go_back : homeLeg (fun _ => 0) photosMoved [] = ⟨"west", "acme-photos"⟩ ∧
      writeTo (fun _ => 0) photosMoved [] = .ok (some ⟨"west", "acme-photos"⟩) := by
  have first : Applied photos photosMigrating :=
    ⟨{ toState := some .migrating, target := "west", name := "acme-photos" }, by decide⟩
  have second : Continued photosMigrating photosCutover :=
    ⟨by decide, { toState := some .cutover }, by decide⟩
  have third : Continued photosCutover photosMoved :=
    ⟨by decide, { toState := some .active }, by decide⟩
  have valid : photos.Valid := valid_of_directory rfl (by decide)
  exact (writes_never_go_back valid rfl (.single ⟨first, numbered_none⟩) (by decide) (by decide)
    (.tail (.single ⟨second, numbered_none⟩) ⟨third, numbered_none⟩)).2 rfl

def photosRamping (ratio : Number) : Placement :=
  { photosMigrating with state := .ramping, ramp := some { hash := rampHash, ratio } }

def lastHash : Key → Hash := fun _ => UInt64.ofNat (2 ^ 64 - 1)

theorem photosRamping_steps (word : UInt64) : Applied photos (photosRamping 1) ∧
    Applied (photosRamping 1) (photosRamping (.nan word)) :=
  ⟨⟨{ toState := some .ramping, target := "west", name := "acme-photos", ratio := 1 }, by decide⟩,
    { toState := some .ramping, ratio := .nan word }, rfl⟩

/-- No integer NaN becomes is above the last hash. -/
theorem photosNan_hand (word : UInt64) : handOf lastHash (photosRamping (.nan word)) [] =
    .ok ⟨.out, endpoint (photosRamping 1) .source, endpoint (photosRamping 1) .primary⟩ := by
  have last : (lastHash []).toNat = 2 ^ 64 - 1 := by decide
  have below : ¬ ((lastHash []).toNat : Int) < word.toNat := by
    have bound := word.toNat_lt
    omega
  have nowhere : inShare lastHash none (.nan word) [] = false := decide_eq_false below
  have phase := @phaseOf_ramp lastHash { hash := rampHash, ratio := .nan word } rfl []
  rw [inKeys, nowhere] at phase
  rw [handOf_plain rfl]
  exact congrArg (Except.map (handIn (photosRamping (.nan word)))) phase

/-- The last key is written to west at ratio 1 and to east once NaN is stored, whatever NaN
is as an integer. -/
theorem nan_goes_back : photos.Valid ∧ Applied photos (photosRamping 1) ∧
      writeTo lastHash (photosRamping 1) [] = .ok (some ⟨"west", "acme-photos"⟩) ∧
      ∀ word, Continued (photosRamping 1) (photosRamping (.nan word)) ∧
        writeTo lastHash (photosRamping (.nan word)) [] = .ok (some ⟨"east", "acme-photos"⟩) := by
  have valid : photos.Valid := valid_of_directory rfl (by decide)
  refine ⟨valid, (photosRamping_steps 0).1, by decide, fun word => ?_⟩
  obtain ⟨whole, shrinks⟩ := photosRamping_steps word
  refine ⟨⟨by decide, shrinks⟩, ?_⟩
  have sound := ((sound_active valid.formed rfl).applied whole).applied shrinks
  rw [writeTo_formed sound.formed, photosNan_hand]
  decide

end Shunt.Migrate
