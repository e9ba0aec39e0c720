/-
The handover of a key, read off the form of its placement: a plain placement's
two roles, or the owner of the key and the destination of the move it is in.
-/

import Shunt.Migrate.Phases

namespace Shunt.Migrate

open Directory
open Library (Phase Hand)

variable {hash : Key → Hash} {p : Placement} {m : Move} {key : Key}

theorem endpoint_plain (roles : p.legClusters = ∅) (side : Side) :
    endpoint p side =
      match side with
      | .primary => ⟨p.primary, nameIn p.names p.primary⟩
      | .source => ⟨p.source, nameIn p.names p.source⟩ := by
  cases side <;> simp [endpoint, Placement.clusterOf, roles]

theorem roleMap_dest {V : Type} (m : Move) (ofSource ofDest : V) :
    (roleMap m ofSource ofDest)[m.dest]? = some ofDest := by
  simp [roleMap]

theorem roleMap_source {V : Type} (m : Move) (ofSource ofDest : V) (ne : m.source ≠ m.dest) :
    (roleMap m ofSource ofDest)[m.source]? = some ofSource := by
  have apart : ¬ m.dest = m.source := fun eq => ne eq.symm
  unfold roleMap
  rw [Std.ExtTreeMap.getElem?_insert, if_neg (by simpa [Std.compare_eq_iff_eq] using apart),
    Std.ExtTreeMap.getElem?_insert_self]

theorem endpoint_moveView_primary (p : Placement) (m : Move) :
    endpoint (p.moveView m) .primary = legIn p.legs m.dest := by
  simp [endpoint, Placement.clusterOf, Placement.moveView, nameIn, roleMap_dest]

theorem endpoint_moveView_source (p : Placement) (m : Move) (ne : m.source ≠ m.dest) :
    endpoint (p.moveView m) .source = legIn p.legs m.source := by
  simp [endpoint, Placement.clusterOf, Placement.moveView, nameIn, roleMap_source, ne]

theorem endpoint_onLeg (p : Placement) (id : String) :
    endpoint (onLeg p id) .primary = legIn p.legs id := by
  simp [endpoint, Placement.clusterOf, onLeg, nameIn]

def ownerID (hash : Key → Hash) (p : Placement) (key : Key) : String :=
  ownerIn (p.scope key).2 (hash key)

def ownerLeg (hash : Key → Hash) (p : Placement) (key : Key) : Leg :=
  legIn p.legs (ownerID hash p key)

theorem scope_over (tables : Tables p) (key : Key) : TableOver p.legs (p.scope key).2 :=
  scopeTable_over tables (scopeTable_scope tables key)

theorem ownerID_mem (tables : Tables p) (key : Key) : ownerID hash p key ∈ p.legs := by
  have covers := scope_over tables key
  obtain ⟨o, mem, -, got⟩ := ownerIn_mem covers.1 (hash key)
  unfold ownerID
  rw [got]
  exact covers.2 o mem

theorem ownerOf_known (core : SpreadCore p) (known : p.keyHash = rampHash) (key : Key) :
    ownerOf hash p key = .ok (ownerID hash p key) := by
  have named : ownerID hash p key ≠ "" := core.ids _ (ownerID_mem core.tables key)
  unfold ownerOf
  rw [if_neg (not_not.mpr known)]
  exact if_neg named

theorem ownerID_inMove (form : SpreadForm p) (moves : p.move = some m)
    (isIn : inMove hash p key) : ownerID hash p key = m.source := by
  simp only [inMove, moves, Bool.and_eq_true, decide_eq_true_eq] at isIn
  obtain ⟨table, got, o, mem, owner, holds⟩ := (form.moving m moves).owned
  have sameTable : (p.scope key).2 = table := by
    have located := scopeTable_scope form.tables key
    rw [isIn.2, got] at located
    exact (Option.some.inj located).symm
  have contained := (HashRange.contains_iff m.range (hash key)).mp isIn.1
  have has : o.has (hash key) :=
    ⟨UInt64.le_trans holds.1 contained.1, UInt64.le_trans contained.2 holds.2⟩
  unfold ownerID
  rw [sameTable, ← owner]
  exact ownerIn_of_mem (scopeTable_over form.tables got).1 mem has

theorem routedBy_plain (plain : p.spread = false) : routedBy hash p key = .ok p := by
  simp [routedBy, plain]

theorem routedBy_foreign (spread : p.spread) (foreign : p.keyHash ≠ rampHash) :
    routedBy hash p key = .error (.unknownRampHash p.keyHash) := by
  unfold routedBy narrow narrowToOwner ownerOf
  rw [if_pos spread]
  cases p.move with
  | none | some => simp [foreign]

theorem routedBy_owner (core : SpreadCore p) (spread : p.spread)
    (known : p.keyHash = rampHash) (outside : inMove hash p key = false) :
    routedBy hash p key = .ok (onLeg p (ownerID hash p key)) := by
  have owned : narrowToOwner hash p key = .ok (onLeg p (ownerID hash p key)) := by
    unfold narrowToOwner
    rw [ownerOf_known core known]
  unfold routedBy narrow
  rw [if_pos spread]
  cases p.move with
  | none => exact owned
  | some => simp [known, outside, owned]

theorem routedBy_move (spread : p.spread) (known : p.keyHash = rampHash)
    (moves : p.move = some m) (isIn : inMove hash p key) :
    routedBy hash p key = .ok (p.moveView m) := by
  simp [routedBy, narrow, spread, moves, known, isIn]

/-- What a formed placement is routed by for a key. -/
inductive Routed (hash : Key → Hash) (p : Placement) (key : Key) :
    Except RouteError Placement → Prop where
  | plain (form : PlainForm p) : Routed hash p key (.ok p)
  | owner (form : SpreadForm p) (known : p.keyHash = rampHash)
      (outside : inMove hash p key = false) : Routed hash p key (.ok (onLeg p (ownerID hash p key)))
  | move {m : _} (form : SpreadForm p) (known : p.keyHash = rampHash)
      (moves : p.move = some m) : Routed hash p key (.ok (p.moveView m))
  | foreign (foreign : p.keyHash ≠ rampHash) :
      Routed hash p key (.error (.unknownRampHash p.keyHash))

theorem routedBy_cases (formed : Formed p) : Routed hash p key (routedBy hash p key) := by
  rcases formed with form | form
  · rw [routedBy_plain form.plain]
    exact .plain form
  by_cases known : p.keyHash = rampHash
  · cases isIn : inMove hash p key with
    | false =>
      rw [routedBy_owner form.toSpreadCore form.spread known isIn]
      exact .owner form known isIn
    | true =>
      cases moves : p.move with
      | none => simp [inMove, moves] at isIn
      | some =>
        rw [routedBy_move form.spread known moves isIn]
        exact .move form known moves
  · rw [routedBy_foreign form.spread known]
    exact .foreign known

theorem roled_of_formed (formed : Formed p) {v : Placement}
    (sent : routedBy hash p key = .ok v) : Roled v := by
  have view := @routedBy_cases hash _ key formed
  rw [sent] at view
  cases view with
  | plain form => exact form.rest
  | owner => exact ⟨fun _ => rfl, fun _ => rfl⟩
  | move form known moves =>
    have named := form.ids _ (form.moving _ moves).source
    have away := form.away moves
    simp [Roled, Placement.moveView, named, away]

theorem handOf_plain (plain : p.spread = false) :
    handOf hash p key = (phaseOf hash p.state p.ramp key).map (handIn p) := by
  simp only [handOf, routedBy_plain plain]
  cases phaseOf hash p.state p.ramp key <;> rfl

theorem handOf_foreign (spread : p.spread) (foreign : p.keyHash ≠ rampHash) :
    handOf hash p key = .error (.unknownRampHash p.keyHash) := by
  simp only [handOf, routedBy_foreign spread foreign]

theorem handOf_owner (core : SpreadCore p) (spread : p.spread)
    (known : p.keyHash = rampHash) (outside : inMove hash p key = false) : handOf hash p key =
      .ok ⟨.rest, ownerLeg hash p key, ownerLeg hash p key⟩ := by
  simp only [handOf, routedBy_owner core spread known outside]
  simp [onLeg, phaseOf, handIn]
  have leg := endpoint_onLeg p (ownerID hash p key)
  exact leg

theorem handOf_move (form : SpreadForm p) (known : p.keyHash = rampHash)
    (moves : p.move = some m) (isIn : inMove hash p key) : handOf hash p key =
      (phaseOf hash p.state (m.range.limit m.ramp) key).map fun phase =>
        ⟨phase, if phase = .rest then legIn p.legs m.dest else ownerLeg hash p key,
          legIn p.legs m.dest⟩ := by
  have state : (p.moveView m).state = p.state := rfl
  have ramp : (p.moveView m).ramp = m.range.limit m.ramp := rfl
  simp only [handOf, routedBy_move form.spread known moves isIn, handIn, state, ramp,
    endpoint_moveView_primary, endpoint_moveView_source p m (form.moving m moves).different,
    ownerLeg, ownerID_inMove form moves isIn]
  cases phaseOf hash p.state (m.range.limit m.ramp) key <;> rfl

theorem phaseOf_ne_rest {s : State} {ramp : Option Ramp} {phase : Phase} (away : s ≠ .active)
    (got : phaseOf hash s ramp key = .ok phase) : phase ≠ .rest := by
  intro eq
  subst eq
  cases s with
  | active => exact away rfl
  | migrating | cutover => cases got
  | ramping =>
    simp only [phaseOf] at got
    split at got
    · cases got
    · cases got
    · split at got <;> cases got

theorem known_of_hand (spread : p.spread) {a : Hand Leg}
    (got : handOf hash p key = .ok a) : p.keyHash = rampHash := by
  by_contra foreign
  rw [handOf_foreign spread foreign] at got
  cases got

/-- The hands a formed placement deals a key. -/
inductive Handed (hash : Key → Hash) (p : Placement) (key : Key) : Hand Leg → Prop where
  | plain {phase : _} (form : PlainForm p) (at_ : phaseOf hash p.state p.ramp key = .ok phase) :
      Handed hash p key (handIn p phase)
  | owner (form : SpreadForm p) (known : p.keyHash = rampHash)
      (outside : inMove hash p key = false) :
      Handed hash p key ⟨.rest, ownerLeg hash p key, ownerLeg hash p key⟩
  | move {m phase : _} (form : SpreadForm p) (known : p.keyHash = rampHash)
      (moves : p.move = some m) (isIn : inMove hash p key = true) (going : phase ≠ .rest) :
      Handed hash p key ⟨phase, ownerLeg hash p key, legIn p.legs m.dest⟩

theorem handOf_cases (formed : Formed p) {a : Hand Leg} (got : handOf hash p key = .ok a) :
    Handed hash p key a := by
  rcases formed with plain | spread
  · rw [handOf_plain plain.plain] at got
    cases at_ : phaseOf hash p.state p.ramp key with
    | error => simp [at_, Except.map] at got
    | ok =>
      simp only [at_, Except.map] at got
      cases got
      exact .plain plain at_
  have known := known_of_hand spread.spread got
  cases isIn : inMove hash p key with
  | false =>
    rw [handOf_owner spread.toSpreadCore spread.spread known isIn] at got
    cases got
    exact .owner spread known isIn
  | true =>
    cases moves : p.move with
    | none => simp [inMove, moves] at isIn
    | some m =>
      rw [handOf_move spread known moves isIn] at got
      cases at_ : phaseOf hash p.state (m.range.limit m.ramp) key with
      | error => simp [at_, Except.map] at got
      | ok =>
        simp only [at_, Except.map] at got
        cases got
        have going := phaseOf_ne_rest (spread.away moves) at_
        rw [if_neg going]
        exact .move spread known moves isIn going

end Shunt.Migrate
