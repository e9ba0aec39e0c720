/-
Where a request goes.  The key hash is a parameter: every definition takes the
function this build splits keys by, and nothing depends on which function it is.
-/

import Shunt.Directory.Moves

namespace Shunt.Migrate

open Directory
open Library (Number)

inductive OpClass where
  | read
  | write
  | delete
  | list
  | bucket
  | upload
  | service
  deriving DecidableEq

/-- Which of a placement's two roles a request goes to first. -/
inductive Side where
  | primary
  | source
  deriving DecidableEq

structure Route where
  cluster : Side
  fallback : Bool := false
  both : Bool := false
  merge : Bool := false
  held : Bool := false
  deriving DecidableEq

inductive RouteError where
  | unknownRampHash (hash : String)
  | uncovered (h : Hash)
  deriving DecidableEq

section

variable (hash : Key → Hash)

def hasAnyPrefix (key : Key) (prefixes : List Key) : Bool := prefixes.any (hasPrefix key)

def ratioLimit : Number → Int
  | .num q => (q * 2 ^ 64).floor
  | .nan word => word.toNat

def inRangeOf (r : Ramp) (rg : HashRange) (key : Key) : Except RouteError Bool :=
  if r.hash ≠ rampHash then .error (.unknownRampHash r.hash)
  else if rg.contains (hash key) = false then .ok false
  else if hasAnyPrefix key r.prefixes then .ok true
  else if r.ratio ≤ 0 then .ok false
  else if 1 ≤ r.ratio then .ok true
  else .ok (decide (.num (hash key - rg.lo).toNat < r.ratio.scale ((rg.hi - rg.lo).toNat + 1)))

def inRange (ramp : Option Ramp) (key : Key) : Except RouteError Bool :=
  match ramp with
  | none => .ok false
  | some r =>
    match r.range with
    | some rg => inRangeOf hash r rg key
    | none =>
      if hasAnyPrefix key r.prefixes then .ok true
      else if r.ratio ≤ 0 then .ok false
      else if 1 ≤ r.ratio then .ok true
      else if r.hash ≠ rampHash then .error (.unknownRampHash r.hash)
      else .ok (decide (((hash key).toNat : Int) < ratioLimit r.ratio))

def Ramp.heldRamp (r : Ramp) (h : RampHold) : Ramp :=
  { hash := r.hash, ratio := h.ratio, prefixes := h.prefixes, range := r.range }

def inHold (ramp : Option Ramp) (key : Key) : Except RouteError Bool :=
  match ramp with
  | none => .ok false
  | some r =>
    match r.hold with
    | none => .ok false
    | some h => inRange hash (some (Ramp.heldRamp r h)) key

def outOfRamp (p : Placement) (cls : OpClass) (key : Key) : Except RouteError Route :=
  match inHold hash p.ramp key with
  | .error e => .error e
  | .ok held =>
    if held = true ∧ cls = .write then .ok { cluster := .primary, held := true }
    else if held = true then .ok { cluster := .primary, fallback := true }
    else .ok { cluster := .source }

def inForce (cls : OpClass) : Route :=
  if cls = .read then { cluster := .primary, fallback := true } else { cluster := .primary }

def decideRoute (p : Placement) (cls : OpClass) (key : Key) : Except RouteError Route :=
  if p.source = "" ∨ p.state = .active then .ok { cluster := .primary }
  else if p.state = .cutover then
    if cls = .delete then .ok { cluster := .primary, both := true }
    else .ok { cluster := .primary }
  else if cls = .write ∨ cls = .read then
    if p.state = .ramping then
      match inRange hash p.ramp key with
      | .error e => .error e
      | .ok true => .ok (inForce cls)
      | .ok false => outOfRamp hash p cls key
    else .ok (inForce cls)
  else if cls = .delete then .ok { cluster := .primary, both := true }
  else if cls = .list then .ok { cluster := .primary, merge := true }
  else .ok { cluster := .primary }

def ownerOf (p : Placement) (key : Key) : Except RouteError String :=
  if p.keyHash ≠ rampHash then .error (.unknownRampHash p.keyHash)
  else
    let leg := ownerIn (p.scope key).2 (hash key)
    if leg = "" then .error (.uncovered (hash key)) else .ok leg

def inMove (p : Placement) (key : Key) : Bool :=
  match p.move with
  | none => false
  | some m => m.range.contains (hash key) && decide ((p.scope key).1 = m.scope)

def onLeg (p : Placement) (id : String) : Placement :=
  let l := legIn p.legs id
  { state := .active, primary := l.cluster
    names := (∅ : StrMap String).insert l.cluster l.bucket
    created := p.created, readOnly := p.readOnly, rejectWrites := p.rejectWrites
    barrier := p.barrier }

def narrowToOwner (p : Placement) (key : Key) : Except RouteError Placement :=
  match ownerOf hash p key with
  | .error e => .error e
  | .ok id => .ok (onLeg p id)

def narrow (p : Placement) (key : Key) : Except RouteError Placement :=
  match p.move with
  | none => narrowToOwner hash p key
  | some m =>
    if p.keyHash ≠ rampHash then .error (.unknownRampHash p.keyHash)
    else if inMove hash p key then .ok (p.moveView m)
    else narrowToOwner hash p key

def routedBy (p : Placement) (key : Key) : Except RouteError Placement :=
  if p.spread then narrow hash p key else .ok p

end

end Shunt.Migrate
