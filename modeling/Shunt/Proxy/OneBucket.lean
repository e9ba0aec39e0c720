/-
A placement behaves as one bucket.  Over any run of requests, mover copies and steps
of any number of migrations and moves, each key's value is where the phase of its
handover says, so every read returns it and every listing shows it.
-/

import Shunt.Proxy.Requests

namespace Shunt.Proxy

open Function (update)

open Directory
open Migrate
open Library (Phase Hand HandStep HandKind Cells CellStep)

variable {V : Type} {hash : Key → Hash} {p q : Placement} {t : Transition} {m : Move}
  {c : Contents V} {key pre : Key} {a b : Hand Leg} {w w' : World V}
  {texts : Leg → Key → Key} {keys : List Key}

theorem foreign_spread (foreign : ¬ KnownSplit p) : p.spread ∧ p.keyHash ≠ rampHash := by
  unfold KnownSplit at foreign
  push Not at foreign
  exact foreign

theorem get_foreign (foreign : ¬ KnownSplit p) :
    get hash p c key = .error (.unknownRampHash p.keyHash) := by
  obtain ⟨spread, hashed⟩ := foreign_spread foreign
  simp [get, dispatch, routedBy_foreign spread hashed]

theorem put_foreign (foreign : ¬ KnownSplit p) (v : V) :
    put hash p c key v = .error (.unknownRampHash p.keyHash) := by
  obtain ⟨spread, hashed⟩ := foreign_spread foreign
  simp [put, dispatch, routedBy_foreign spread hashed]

theorem delete_foreign (foreign : ¬ KnownSplit p) :
    delete hash p c key = .error (.unknownRampHash p.keyHash) := by
  obtain ⟨spread, hashed⟩ := foreign_spread foreign
  simp [delete, dispatch, routedBy_foreign spread hashed]

theorem legEntry_foreign (form : SpreadForm p) (foreign : p.keyHash ≠ rampHash)
    (nil : ∀ bucket ∈ buckets p, c bucket key = none) (id : String) :
    legEntry hash p c id key = none := by
  unfold legEntry
  split
  · rename_i own
    have leg : id ∈ p.legs := by
      simp only [ownKey, ownerOf, if_pos foreign, Bool.or_false] at own
      cases moving : p.move with
      | none => simp [moving] at own
      | some m =>
        simp only [moving, Bool.and_eq_true, Bool.or_eq_true, decide_eq_true_eq] at own
        rcases own.1 with rfl | rfl
        · exact (form.moving m moving).source
        · exact (form.moving m moving).dest
    exact nil _ (leg_mem_buckets form.spread leg)
  · rfl

theorem list_foreign (form : SpreadForm p) (foreign : p.keyHash ≠ rampHash)
    (readable : Readable c texts keys) (nil : ∀ bucket ∈ buckets p, c bucket key = none) :
    list hash p c texts keys pre key = .ok none := by
  have entry : ∀ id, legEntry hash p (pagesOf c texts keys pre) id key = none := by
    refine legEntry_foreign form foreign fun bucket mem => ?_
    rw [pagesOf_readable readable, nil bucket mem, ite_self]
  unfold list
  simp only [if_pos form.spread, spreadListing_none entry]

/-- Each key's value is where the phase of its handover says, and no other bucket of
the placement has the key. -/
structure Coupled (hash : Key → Hash) (w : World V) : Prop where
  sound : Sound w.placement
  numbers : Numbered (rampOf w.placement)
  known : KnownSplit w.placement → ∀ key, ∃ a, handOf hash w.placement key = .ok a ∧
    Cells (· ∈ buckets w.placement) a (fun b => w.contents b key) (w.bucket key)
  foreign : ¬ KnownSplit w.placement → ∀ key, w.bucket key = none ∧
    ∀ b ∈ buckets w.placement, w.contents b key = none

theorem Coupled.listed (coupled : Coupled hash w) (readable : Readable w.contents texts keys)
    (pre key : Key) : list hash w.placement w.contents texts keys pre key =
      .ok (if hasPrefix key pre then w.bucket key else none) := by
  by_cases split : KnownSplit w.placement
  · obtain ⟨a, got, holds⟩ := coupled.known split key
    exact list_hand coupled.sound.formed readable got holds
  obtain ⟨spread, hashed⟩ := foreign_spread split
  obtain ⟨none, nil⟩ := coupled.foreign split key
  have form : SpreadForm w.placement := by
    rcases coupled.sound.formed with plain | form
    · rw [plain.plain] at spread
      cases spread
    · exact form
  rw [list_foreign form hashed readable nil, none]
  simp

theorem Coupled.write {v : V} {c : Contents V} (coupled : Coupled hash w)
    (ok : put hash w.placement w.contents key v = .ok (some c)) :
    Coupled hash { w with contents := c, bucket := update w.bucket key (some v) } := by
  have split : KnownSplit w.placement := by
    by_contra foreign
    rw [put_foreign foreign] at ok
    cases ok
  refine ⟨coupled.sound, coupled.numbers, fun _ other => ?_, fun foreign => absurd split foreign⟩
  have formed := coupled.sound.formed
  obtain ⟨a, got, holds⟩ := coupled.known split key
  rw [put_hand formed got] at ok
  cases wrote : a.writes with
  | none => simp [wrote] at ok
  | some =>
    simp only [wrote, Option.map_some, Except.ok.injEq, Option.some.injEq] at ok
    subst ok
    by_cases eq : other = key
    · subst eq
      refine ⟨a, got, ?_⟩
      simp only [set_column, Function.update_self]
      exact holds.write (hand_apart formed got) wrote v
    obtain ⟨b, at_, kept⟩ := coupled.known split other
    refine ⟨b, at_, ?_⟩
    simpa only [set_other (.inr eq), Function.update_of_ne eq] using kept

theorem Coupled.delete (coupled : Coupled hash w)
    (ok : delete hash w.placement w.contents key = .ok c) :
    Coupled hash { w with contents := c, bucket := update w.bucket key none } := by
  have split : KnownSplit w.placement := by
    by_contra foreign
    rw [delete_foreign foreign] at ok
    cases ok
  refine ⟨coupled.sound, coupled.numbers, fun _ other => ?_, fun foreign => absurd split foreign⟩
  have formed := coupled.sound.formed
  obtain ⟨a, got, holds⟩ := coupled.known split key
  obtain ⟨home, target, aside, rest⟩ := delete_hand formed got ok
  by_cases eq : other = key
  · subst eq
    refine ⟨a, got, ?_⟩
    simp only [Function.update_self]
    exact Cells.cleared home target fun b named away =>
      (aside b away).trans (holds.others b named away)
  obtain ⟨b, at_, kept⟩ := coupled.known split other
  refine ⟨b, at_, ?_⟩
  simpa only [rest _ other eq, Function.update_of_ne eq] using kept

theorem Coupled.copy (coupled : Coupled hash w) (key : Key) :
    Coupled hash { w with contents := copyOne hash w.placement w.contents key } := by
  unfold copyOne
  dsimp only
  split
  · rename_i copies
    obtain ⟨runs, keeps, absent⟩ := copies
    refine ⟨coupled.sound, coupled.numbers, fun split other => ?_, fun foreign other => ?_⟩
    · by_cases eq : other = key
      · subst eq
        obtain ⟨a, got, holds⟩ := coupled.known split other
        obtain ⟨moved, going⟩ := mover_moved coupled.sound runs keeps got
        obtain ⟨-, home, target⟩ := going_mover going
        refine ⟨a, got, ?_⟩
        simp only [set_column, ← home, ← target] at absent ⊢
        exact holds.copy moved going.apart absent
      obtain ⟨b, at_, kept⟩ := coupled.known split other
      refine ⟨b, at_, ?_⟩
      simpa only [set_other (.inr eq)] using kept
    · obtain ⟨none, nil⟩ := coupled.foreign foreign other
      refine ⟨none, fun bucket mem => ?_⟩
      have source := nil _ (moverView_source_mem coupled.sound.formed runs)
      change Contents.set _ _ _ _ bucket other = Option.none
      unfold Contents.set
      split
      · rename_i at_
        rw [← at_.2]
        exact source
      · exact nil bucket mem
  · exact coupled

theorem stepKind_release (p : Placement) (t : Transition) :
    stepKind p t = .release ↔ t.release = true := by
  rw [← t.kind_eq_release]
  unfold stepKind handKind
  cases t.kind with
  | hold | release => simp
  | step => cases heldRamp (rampOf p) <;> simp

theorem routedBy_state {v : Placement} (routed : routedBy hash p key = .ok v) :
    v.state = .active ∨ v.state = p.state := by
  have owner : ∀ {v : Placement}, narrowToOwner hash p key = .ok v → v.state = .active := by
    intro v narrowed
    unfold narrowToOwner at narrowed
    cases owned : ownerOf hash p key with
    | error => simp [owned] at narrowed
    | ok =>
      simp only [owned] at narrowed
      cases narrowed
      rfl
  unfold routedBy narrow at routed
  split at routed
  · cases moving : p.move with
    | none =>
      simp only [moving] at routed
      exact .inl (owner routed)
    | some =>
      simp only [moving] at routed
      split at routed
      · cases routed
      split at routed
      · cases routed
        exact .inr rfl
      · exact .inl (owner routed)
  · cases routed
    exact .inr rfl

theorem cut_state (got : handOf hash p key = .ok a) (cut : a.phase = .cut) :
    p.state = .cutover := by
  obtain ⟨v, phase, routed, at_, rfl⟩ := handOf_view got
  have last : phase = .cut := cut
  subst last
  have state : v.state = .cutover := by
    cases state : v.state with
    | active | migrating => rw [state] at at_; cases at_
    | cutover => rfl
    | ramping =>
      rw [state] at at_
      simp only [phaseOf] at at_
      repeat' split at at_
      all_goals cases at_
  rcases routedBy_state routed with active | eq
  · rw [active] at state
    cases state
  · rw [← eq, state]

theorem purged_outside {bucket : Leg} (kept : ¬ (q.state = .active ∧ t.release = false ∧
      inMove hash p key ∧ ∃ m, p.move = some m ∧ bucket = legIn p.legs m.source)) :
    purged hash p c t q bucket key = c bucket key := by
  unfold purged
  cases moving : p.move with
  | none => rfl
  | some m =>
    refine if_neg fun gone => kept ⟨gone.1, gone.2.1, gone.2.2.1, m, moving, gone.2.2.2.1⟩

theorem applyStep_ended (formed : Formed p) (step : ApplyStep p t q) (at_ : Going hash p key a)
    (post : handOf hash q key = .ok b) (rests : b.phase = .rest) : q.state = .active := by
  by_contra away
  cases step with
  | plain plain step =>
    rw [handOf_plain (step.plainForm (formed.plainForm plain)).plain] at post
    cases got : phaseOf hash q.state q.ramp key with
    | error => simp [got, Except.map] at post
    | ok =>
      simp only [got, Except.map] at post
      cases post
      exact phaseOf_ne_rest away got rests
  | start plans =>
    cases at_ with
    | whole form gone => exact gone plans.active
    | part form moving =>
      rw [form.rest.mp plans.active] at moving
      cases moving
  | @step m nv moving view still =>
    have form := formed.spreadForm moving
    have formAfter := form.stepped moving view.ramped still
    cases at_ with
    | whole plain => rw [plain.noMove] at moving; cases moving
    | part _ _ isIn =>
      rw [← inMove_stepped moving nv key] at isIn
      exact (handOf_inside formAfter rfl isIn post).1 rests
  | @unwind m nv moving =>
    exact away (rested_state (formed.spreadForm moving) moving nv).1
  | @finish m nv moving =>
    exact away (rested_state (formed.spreadForm moving) moving nv).2

theorem stepKind_advance (advance : stepKind p t = .advance) : t.release = false := by
  by_contra freed
  rw [(stepKind_release p t).mpr (by simpa using freed)] at advance
  cases advance

theorem applyStep_cleared (formed : Formed p) (step : ApplyStep p t q)
    (got : handOf hash p key = .ok a) (post : handOf hash q key = .ok b)
    (moves : HandStep (stepKind p t) a b) (cut : a.phase = .cut) (rests : b.phase = .rest)
    (named : a.home ∈ buckets q) : purged hash p c t q a.home key = none := by
  have going : a.phase ≠ .rest := by rw [cut]; simp
  have inForce : t.release = false := by
    rcases moves.ends going rests with ⟨-, uncut⟩ | ⟨advance, -⟩
    · exact absurd cut uncut
    · exact stepKind_advance advance
  have apart := hand_apart formed got going
  have at_ := handOf_going formed got going
  have active := applyStep_ended formed step at_ post rests
  cases at_ with
  | whole form away =>
    -- a migration leaves its source behind: the placement's one bucket is the target
    have home : homeLeg hash q key = endpoint p .primary := by
      rw [← handOf_home (step.formed formed) post rests, moves.home, if_pos ⟨cut, rests⟩]
    have plain : q.spread = false := by
      cases step with
      | plain plain step => exact (step.plainForm form).plain
      | start plans => exact absurd plans.active away
      | step moving | unwind moving | finish moving => rw [form.noMove] at moving; cases moving
    rw [homeLeg, plain, if_neg Bool.false_ne_true] at home
    simp only [buckets, plain, active, home, if_true, Bool.false_eq_true, if_false,
      List.mem_singleton] at named
    exact absurd named apart
  | @part m phase form moving isIn =>
    have source : ownerLeg hash p key = legIn p.legs m.source := by
      rw [ownerLeg, ownerID_inMove form moving isIn]
    simp only [purged, moving]
    exact if_pos ⟨active, inForce, isIn, source, named⟩

theorem applyStep_cells (formed : Formed p) (split : KnownSplit p) (step : ApplyStep p t q)
    (got : handOf hash p key = .ok a) (post : handOf hash q key = .ok b)
    (moves : HandStep (stepKind p t) a b) (fresh : ∀ b ∈ buckets q, b ∉ buckets p → c b key = none)
    (converged : q.state = .cutover → Converged hash p c) :
    CellStep (· ∈ buckets p) (· ∈ buckets q) a b (fun x => c x key)
      (fun x => purged hash p c t q x key) := by
  refine ⟨fresh, ?_, applyStep_cleared formed step got post moves, ?_⟩
  · intro cut absent
    have going : a.phase ≠ .rest := by
      rcases moves.split with ⟨-, uncut⟩ | ⟨moved, -⟩ | ⟨-, rests⟩
      · exact absurd cut uncut
      · rw [moved]
        simp
      · rw [cut] at rests
        cases rests
    obtain ⟨keeps, home, target⟩ := going_mover (handOf_going formed got going)
    simp only [home, target] at absent ⊢
    exact converged (cut_state post cut) key keeps absent
  · intro bucket named kept
    refine purged_outside ?_
    rintro ⟨active, inForce, isIn, m, moving, source⟩
    have form := formed.spreadForm moving
    have rests : b.phase = .rest := by
      rw [handOf_rest (step.formed formed) (applyStep_split formed split step) active] at post
      cases post
      rfl
    obtain ⟨going, home, -⟩ := handOf_inside form moving isIn got
    rcases moves.ends going rests with ⟨release, -⟩ | ⟨-, cut⟩
    · rw [(stepKind_release p t).mp release] at inForce
      cases inForce
    · refine kept ⟨cut, rests, ?_⟩
      rw [source, home, ownerLeg, ownerID_inMove form moving isIn]

theorem Coupled.apply (coupled : Coupled hash w) (ok : w.placement.apply t = .ok q)
    (numbers : Numbered (rampOf q))
    (fresh : ∀ b ∈ buckets q, b ∉ buckets w.placement → ∀ key, w.contents b key = none)
    (converged : q.state = .cutover → Converged hash w.placement w.contents) :
    Coupled hash
      { w with placement := q, contents := purged hash w.placement w.contents t q } := by
  have formed := coupled.sound.formed
  have sound := coupled.sound.applied ⟨t, ok⟩
  obtain ⟨u, solved, step⟩ := apply_step formed ok
  have release : u.release = t.release := by rw [resolve_frame solved]
  by_cases split : KnownSplit w.placement
  · have splitAfter := applyStep_split formed split step
    refine ⟨sound, numbers, fun _ key => ?_, fun foreign => absurd splitAfter foreign⟩
    obtain ⟨a, b, prev, post, moves⟩ :=
      applyStep_hand hash formed coupled.sound.clean split step
        (fun _ => ⟨coupled.numbers, numbers⟩) key
    obtain ⟨a', got, holds⟩ := coupled.known split key
    rw [prev] at got
    cases got
    have cells := applyStep_cells formed split step prev post moves
      (fun b now prev => fresh b now prev key) converged
    have eq : (fun x => purged hash w.placement w.contents u q x key) =
        fun x => purged hash w.placement w.contents t q x key := by
      simp only [purged, release]
    rw [eq] at cells
    obtain ⟨home, target⟩ := hand_buckets sound.formed post
    exact ⟨b, post, holds.step moves cells (hand_apart formed prev)
      (hand_apart sound.formed post) home target⟩
  · have nil : ∀ key, ∀ b ∈ buckets q,
        purged hash w.placement w.contents t q b key = none := by
      intro key b now
      have held : w.contents b key = none := by
        by_cases prev : b ∈ buckets w.placement
        · exact (coupled.foreign split key).2 b prev
        · exact fresh b now prev key
      unfold purged
      split
      · exact held
      split
      · rfl
      · exact held
    refine ⟨sound, numbers, fun splitAfter key => ?_, fun _ key => ?_⟩
    · obtain ⟨a, got⟩ := handOf_ok sound splitAfter key
      obtain ⟨home, target⟩ := hand_buckets sound.formed got
      refine ⟨a, got, ?_⟩
      simp only [(coupled.foreign split key).1]
      exact Cells.cleared (nil key _ home) (fun going => nil key _ (target going))
        fun b named _ => nil key b named
    · exact ⟨(coupled.foreign split key).1, nil key⟩

/-- A bucket at rest: each key is in its home and in no other bucket of the
placement.  What this build cannot split holds nothing it could have written. -/
structure Begins (hash : Key → Hash) (w : World V) : Prop where
  valid : w.placement.Valid
  active : w.placement.state = .active
  home : ∀ key, w.contents (homeLeg hash w.placement key) key = w.bucket key
  alone : ∀ key, ∀ b ∈ buckets w.placement, b ≠ homeLeg hash w.placement key →
    w.contents b key = none
  routed : KnownSplit w.placement ∨ ∀ key, w.bucket key = none

theorem Begins.coupled (begins : Begins hash w) : Coupled hash w := by
  have formed := begins.valid.formed
  refine ⟨sound_active formed begins.active,
    rampOf_active formed begins.active ▸ numbered_none, fun split key => ?_, fun foreign key => ?_⟩
  · refine ⟨_, handOf_rest formed split begins.active, begins.home key, ?_⟩
    intro b named aside
    exact begins.alone key b named aside.1
  have none := begins.routed.resolve_left foreign key
  refine ⟨none, fun b named => ?_⟩
  by_cases home : b = homeLeg hash w.placement key
  · rw [home, begins.home key, none]
  · exact begins.alone key b named home

/-- The step, where no ratio of the placement is NaN. -/
def ServesNumbers (hash : Key → Hash) (w w' : World V) : Prop :=
  Serves hash w w' ∧ Numbered (rampOf w'.placement)

theorem Coupled.serves (coupled : Coupled hash w) (step : ServesNumbers hash w w') :
    Coupled hash w' := by
  obtain ⟨step, numbers⟩ := step
  cases step with
  | write ok => exact coupled.write ok
  | delete ok => exact coupled.delete ok
  | copy key => exact coupled.copy key
  | apply ok fresh converged => exact coupled.apply ok numbers fresh converged

theorem Coupled.run (coupled : Coupled hash w)
    (run : Relation.ReflTransGen (ServesNumbers hash) w w') : Coupled hash w' := by
  induction run with
  | refl => exact coupled
  | tail _ step ih => exact ih.serves step

/-- In every state of every run that stores no NaN a read of a key returns the one bucket's
value, and a listing shows it where the backends' texts decode to their keys.  A placement
this build cannot split refuses the read, and has no key. -/
theorem served_as_one_bucket {start : World V} (begins : Begins hash start)
    (run : Relation.ReflTransGen (ServesNumbers hash) start w) (key : Key) :
    (∀ texts keys pre, Readable w.contents texts keys →
      list hash w.placement w.contents texts keys pre key = .ok
        (if hasPrefix key pre then w.bucket key else none)) ∧
    (KnownSplit w.placement → get hash w.placement w.contents key = .ok (w.bucket key)) ∧
    (¬ KnownSplit w.placement → get hash w.placement w.contents key =
        .error (.unknownRampHash w.placement.keyHash) ∧ w.bucket key = none) := by
  have coupled := begins.coupled.run run
  refine ⟨fun _ _ pre readable => coupled.listed readable pre key, fun split => ?_, fun foreign =>
    ?_⟩
  · obtain ⟨a, got, holds⟩ := coupled.known split key
    rw [get_hand coupled.sound.formed got, holds.reads]
  · exact ⟨get_foreign foreign, (coupled.foreign foreign key).1⟩

def photosStored : Contents Nat :=
  Contents.set (fun _ _ => none) (endpoint Migrate.photos .primary) [1] (some 7)

/-- The key is read and listed while the bucket migrates to west. -/
theorem photos_served : get (fun _ => 0) photosMigrating photosStored [1] = .ok (some 7) ∧
      list (fun _ => 0) photosMigrating photosStored (fun _ key => key) [[1]] [] [1] =
        .ok (some 7) := by
  have begins : Begins (fun _ => 0)
      (⟨Migrate.photos, fun _ _ => none, fun _ => none⟩ : World Nat) :=
    ⟨valid_of_directory rfl (by decide), rfl, fun _ => rfl, fun _ _ _ _ => rfl, Or.inr fun _ => rfl⟩
  have wrote : Serves (fun _ => 0) (⟨Migrate.photos, fun _ _ => none, fun _ => none⟩ : World Nat)
      ⟨Migrate.photos, photosStored, update (fun _ => none) [1] (some 7)⟩ :=
    .write rfl
  have migrates : Serves (fun _ => 0)
      (⟨Migrate.photos, photosStored, update (fun _ => none) [1] (some 7)⟩ : World Nat)
      ⟨photosMigrating, photosStored, update (fun _ => none) [1] (some 7)⟩ := by
    refine .apply (t := { toState := some .migrating, target := "west", name := "acme-photos" })
      (by decide) ?_ (fun no => by cases no)
    intro b _ new key
    have away : b ≠ endpoint Migrate.photos .primary := fun eq =>
      new (List.mem_singleton.mpr eq)
    simp only [photosStored, set_other (Or.inl away)]
  have served := served_as_one_bucket begins
    (.tail (.single ⟨wrote, numbered_none⟩) ⟨migrates, numbered_none⟩) [1]
  refine ⟨served.2.1 (fun spread => by cases spread), served.1 _ _ [] fun b k stored => ?_⟩
  have eq : k = [1] := by
    by_contra other
    exact stored (by simp only [photosStored, set_other (Or.inr other)])
  rw [eq]
  decide

def westStored : Contents Nat :=
  Contents.set (fun _ _ => none) (endpoint (photosRamping 1) .primary) [] (some 7)

/-- A key is written at ratio 1, and a read misses it once NaN is stored. -/
theorem nan_read_missed :
    Begins lastHash (⟨Migrate.photos, fun _ _ => none, fun _ => none⟩ : World Nat) ∧
      ∀ word, ∃ w : World Nat, Relation.ReflTransGen (Serves lastHash)
          ⟨Migrate.photos, fun _ _ => none, fun _ => none⟩ w ∧
        w.placement = photosRamping (.nan word) ∧ w.bucket [] = some 7 ∧
        get lastHash w.placement w.contents [] = .ok none := by
  have valid : Migrate.photos.Valid := valid_of_directory rfl (by decide)
  refine ⟨⟨valid, rfl, fun _ => rfl, fun _ _ _ _ => rfl, Or.inr fun _ => rfl⟩, fun word => ?_⟩
  obtain ⟨⟨t, leaves⟩, u, shrinks⟩ := photosRamping_steps word
  have first : Serves lastHash (⟨Migrate.photos, fun _ _ => none, fun _ => none⟩ : World Nat)
      ⟨photosRamping 1, fun _ _ => none, fun _ => none⟩ :=
    .apply leaves (fun _ _ _ _ => rfl) fun no => by cases no
  have second : Serves lastHash (⟨photosRamping 1, fun _ _ => none, fun _ => none⟩ : World Nat)
      ⟨photosRamping 1, westStored, update (fun _ => none) [] (some 7)⟩ := .write rfl
  have third : Serves lastHash
      (⟨photosRamping 1, westStored, update (fun _ => none) [] (some 7)⟩ : World Nat)
      ⟨photosRamping (.nan word), westStored, update (fun _ => none) [] (some 7)⟩ :=
    .apply shrinks (fun b now prev => absurd now prev) fun no => by cases no
  refine ⟨_, .tail (.tail (.single first) second) third, rfl, rfl, ?_⟩
  have sound := ((sound_active valid.formed rfl).applied ⟨t, leaves⟩).applied ⟨u, shrinks⟩
  rw [get_hand sound.formed (photosNan_hand word)]
  change Except.ok (westStored (endpoint (photosRamping 1) .source) []) = .ok none
  decide

end Shunt.Proxy
