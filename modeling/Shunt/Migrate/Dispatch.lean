/-
The backend bucket each request goes to, and the phase of the handover its key
is in.  The routing table depends on a key through its phase only.
-/

import Shunt.Directory.Formed
import Shunt.Library.Handover
import Shunt.Migrate.Route

namespace Shunt.Migrate

open Directory
open Library (Phase Hand)

def endpoint (v : Placement) (side : Side) : Leg :=
  let role := match side with
    | .primary => v.primary
    | .source => v.source
  ⟨v.clusterOf role, nameIn v.names role⟩

/-- A routed request: its route, and the buckets in the two roles. -/
structure Dispatch where
  route : Route
  primary : Leg
  source : Leg
  deriving DecidableEq

def Dispatch.first (d : Dispatch) : Leg :=
  match d.route.cluster with
  | .primary => d.primary
  | .source => d.source

section

variable (hash : Key → Hash)

def dispatch (p : Placement) (cls : OpClass) (key : Key) : Except RouteError Dispatch :=
  match routedBy hash p key with
  | .error e => .error e
  | .ok v =>
    match decideRoute hash v cls key with
    | .error e => .error e
    | .ok route => .ok ⟨route, endpoint v .primary, endpoint v .source⟩

def writeTo (p : Placement) (key : Key) : Except RouteError (Option Leg) :=
  match dispatch hash p .write key with
  | .error e => .error e
  | .ok d => .ok (if d.route.held then none else some d.first)

def phaseOf (state : State) (ramp : Option Ramp) (key : Key) : Except RouteError Phase :=
  match state with
  | .active => .ok .rest
  | .migrating => .ok .moved
  | .cutover => .ok .cut
  | .ramping =>
    match inRange hash ramp key with
    | .error e => .error e
    | .ok true => .ok .moved
    | .ok false =>
      match inHold hash ramp key with
      | .error e => .error e
      | .ok true => .ok .held
      | .ok false => .ok .out

def phaseRoute (cls : OpClass) : Phase → Route
  | .rest => { cluster := .primary }
  | .out => { cluster := .source }
  | .held =>
    if cls = .write then { cluster := .primary, held := true }
    else { cluster := .primary, fallback := true }
  | .moved => inForce cls
  | .cut => { cluster := .primary }

def handIn (v : Placement) (phase : Phase) : Hand Leg :=
  ⟨phase, if phase = .rest then endpoint v .primary else endpoint v .source, endpoint v .primary⟩

def handOf (p : Placement) (key : Key) : Except RouteError (Hand Leg) :=
  match routedBy hash p key with
  | .error e => .error e
  | .ok v =>
    match phaseOf hash v.state v.ramp key with
    | .error e => .error e
    | .ok phase => .ok (handIn v phase)

end

variable {hash : Key → Hash}

def Roled (v : Placement) : Prop := v.state = .active ↔ v.source = ""

theorem decideRoute_phase {v : Placement} (roled : Roled v) {cls : OpClass}
    (object : cls = .write ∨ cls = .read) (key : Key) : decideRoute hash v cls key =
      (phaseOf hash v.state v.ramp key).map (phaseRoute cls) := by
  have notDelete : cls ≠ .delete := by
    rcases object with eq | eq <;> rw [eq] <;> simp
  unfold decideRoute phaseOf
  cases state : v.state with
  | active => simp [phaseRoute, Except.map]
  | migrating =>
    have named : v.source ≠ "" := fun nil => by simp [roled.mpr nil] at state
    simp [named, object, phaseRoute, Except.map]
  | cutover =>
    have named : v.source ≠ "" := fun nil => by simp [roled.mpr nil] at state
    simp [named, notDelete, phaseRoute, Except.map]
  | ramping =>
    have named : v.source ≠ "" := fun nil => by simp [roled.mpr nil] at state
    simp only [named, reduceCtorEq, or_self, if_false, object, if_true]
    cases inRange hash v.ramp key with
    | error => rfl
    | ok isIn =>
      cases isIn with
      | true => rfl
      | false =>
        simp only [outOfRamp]
        cases inHold hash v.ramp key with
        | error => rfl
        | ok held =>
          cases held with
          | false => simp [phaseRoute, Except.map]
          | true =>
            rcases object with eq | eq <;> rw [eq] <;> simp [phaseRoute, Except.map]

theorem writeTo_hand {p : Placement} {key : Key}
    (roled : ∀ v, routedBy hash p key = .ok v → Roled v) :
    writeTo hash p key = (handOf hash p key).map Hand.writes := by
  unfold writeTo dispatch handOf
  cases sent : routedBy hash p key with
  | error => rfl
  | ok v =>
    simp only [decideRoute_phase (roled v sent) (.inl rfl) key]
    cases phaseOf hash v.state v.ramp key with
    | error => rfl
    | ok phase => cases phase <;> rfl

end Shunt.Migrate
