/-
State transitions of a placement with two roles, a source and a primary: the
part of Apply below its dispatch to moves.  A plain placement steps by it
directly, and a move of part of a bucket steps by it on the view that names its
two legs as roles.
-/

import Shunt.Directory.Scopes

namespace Shunt.Directory

open Config (Barrier BarrierKind quoted joined)

def legal : State → State → Bool
  | .active, .ramping => true
  | .active, .migrating => true
  | .ramping, .ramping => true
  | .ramping, .migrating => true
  | .migrating, .cutover => true
  | .cutover, .active => true
  | _, _ => false

def nextStates (s : State) : List State := states.filter (legal s)

def Placement.fail {α : Type} (p : Placement) (t : Transition) (reason : String) :
    Except TransitionError α :=
  .error ⟨p.state, t.toState, reason⟩

/-- Undo a held step.  A barrier, when given, must be the hold's. -/
def Placement.release (p : Placement) (barrier : String) : Except TransitionError Placement :=
  let fail (reason : String) : Except TransitionError Placement :=
    .error ⟨p.state, some p.state, reason⟩
  match p.ramp with
  | none => fail "there is no held step to release"
  | some r =>
    if p.state ≠ .ramping ∨ r.hold = none then fail "there is no held step to release"
    else if barrier ≠ "" ∧ p.carries barrier = false then
      fail ("the held step carries " ++ p.barrierText ++ ", not " ++ barrier ++
        "; another operation's hold is not released")
    else if r.ratio = 0 ∧ r.prefixes = [] then
      -- held from ACTIVE: nothing was ever routed to the target
      .ok { p with
        barrier := none, state := .active, primary := p.source, source := "",
        target := p.primary, ramp := none }
    else .ok { p with barrier := none, ramp := some { r with hold := none } }

/-- The first step inherits the target an expand recorded, and may only repeat it. -/
def Placement.inheritTarget (p : Placement) (t : Transition) : Except TransitionError Transition :=
  if p.state = .active ∧ p.target ≠ "" then
    if t.target ≠ "" ∧ t.target ≠ p.target then
      p.fail t (p.primary ++ " was expanded to " ++ p.target ++
        "; a different target needs expand first")
    else if t.name ≠ "" ∧ t.name ≠ nameIn p.names p.target then
      p.fail t ("the target backend bucket is " ++ p.target ++ "/" ++
        nameIn p.names p.target ++ " (recorded by expand), not " ++ t.name)
    else .ok { t with target := p.target, name := nameIn p.names p.target }
  else .ok t

/-- The legality of a step to a named state, before its own fields are read. -/
def Placement.checkLegal (p : Placement) (t : Transition) (to_ : State) :
    Except TransitionError Unit :=
  if t.hold = true ∧ to_ ≠ .ramping ∧ to_ ≠ .migrating then
    p.fail t "only a step to RAMPING or MIGRATING is held"
  else if heldRamp p.ramp = true ∧ t.hold = true then
    p.fail t "a held step is already in progress; repeat that step to complete it first"
  else if t.complete = true ∧ p.held = false then
    p.fail t "the held step was released or completed meanwhile; nothing is held to complete"
  else if legal p.state to_ = false then
    p.fail t ("allowed from " ++ p.state.text ++ ": " ++
      joined ", " ((nextStates p.state).map State.text))
  else if p.state ≠ .active ∧ (t.target ≠ "" ∨ t.name ≠ "") then
    p.fail t "a target cluster and backend name are only given when leaving ACTIVE"
  else .ok ()

def Placement.checkFields (p : Placement) (t : Transition) (to_ : State) :
    Except TransitionError Unit :=
  if t.cutover ≠ none ∧ to_ ≠ .cutover then
    p.fail t "cutover evidence only applies to CUTOVER"
  else if to_ ≠ .ramping ∧ (t.ratio ≠ 0 ∨ t.prefixes ≠ []) then
    p.fail t "a ramp ratio or prefix only applies to RAMPING"
  else .ok ()

def Placement.checkBarrier (p : Placement) (t : Transition) : Except TransitionError Unit :=
  if t.barrier ≠ "" ∧ t.hold = false ∧ p.carries t.barrier = false then
    p.fail t ("the placement carries " ++ p.barrierText ++ ", not barrier " ++ t.barrier)
  else .ok ()

/-- Leaving ACTIVE: the target becomes the primary and the primary the source. -/
def Placement.leave (p : Placement) (t : Transition) (to_ : State) :
    Except TransitionError Placement :=
  if t.target = "" ∨ t.name = "" then
    p.fail t "the target cluster and its backend bucket name are required"
  else if t.target = p.primary then
    p.fail t ("target " ++ quoted t.target ++ " is already the primary")
  else if to_ = .ramping then
    if t.ratio = 0 ∧ t.prefixes = [] then
      p.fail t "RAMPING needs a ratio or at least one prefix"
    else
      .ok { p with
        state := to_, source := p.primary, primary := t.target, target := "",
        names := p.names.insert t.target t.name,
        ramp := some { hash := rampHash, ratio := t.ratio, prefixes := t.prefixes } }
  else
    .ok { p with
      state := to_, source := p.primary, primary := t.target, target := "",
      names := p.names.insert t.target t.name }

def addPrefixes (kept given : List Key) : List Key :=
  given.foldl (fun all pre => if pre ∈ all then all else all ++ [pre]) kept

def grownRamp (old : Ramp) (t : Transition) : Ramp :=
  { hash := old.hash
    ratio := if t.ratio ≠ 0 then t.ratio else old.ratio
    prefixes := addPrefixes old.prefixes t.prefixes }

def beyondHold (old : Ramp) (h : RampHold) (r : Ramp) : Option Key :=
  r.prefixes.find? fun pre => decide (pre ∉ old.prefixes) && decide (pre ∉ h.prefixes)

/-- RAMPING → RAMPING: the ramp only grows, and completing a held step may move
only the keys that were held. -/
def Placement.rampStep (p : Placement) (t : Transition) : Except TransitionError Placement :=
  let old := p.ramp.getD { hash := "" }
  let r := grownRamp old t
  if old.hash ≠ rampHash then
    p.fail t ("the ramp splits keys by hash " ++ quoted old.hash ++
      ", which this build does not implement (it implements " ++ rampHash ++
      "); extending it would re-split keys: finish it with the build that started it")
  else if t.ratio ≠ 0 ∧ t.ratio < old.ratio then
    p.fail t ("the ramp only grows: ratio " ++ t.ratio.text ++ " is below the current " ++
      old.ratio.text ++ " (shrinking needs a reconcile first)")
  else if r.ratio.same old.ratio ∧ r.prefixes.length = old.prefixes.length then
    p.fail t "the ramp step changes nothing; give a higher ratio or a new prefix"
  else
    match (if t.hold then none else old.hold) with
    | none => .ok { p with state := .ramping, ramp := some r }
    | some h =>
      match beyondHold old h r with
      | some pre =>
        p.fail t ("prefix " ++ quoted (keyText pre) ++
          " was not part of the held step; repeat the held step to complete it first")
      | none =>
        if h.ratio < r.ratio ∧ old.ratio < r.ratio then
          p.fail t ("ratio " ++ r.ratio.text ++ " is beyond the held step's " ++
            h.ratio.text ++ "; repeat the held step to complete it first")
        else .ok { p with state := .ramping, ramp := some r }

def Placement.heldBelowOne (p : Placement) : Bool :=
  match p.ramp with
  | none => false
  | some r =>
    match r.hold with
    | none => false
    | some h => decide (h.ratio < 1)

def Placement.finish (p : Placement) : Placement :=
  { p with
    state := .active
    names := if p.source ≠ p.primary ∧ p.source ≠ p.cold then p.names.erase p.source else p.names
    source := "", cutover := none, barrier := none }

def Placement.stepTo (p : Placement) (t : Transition) (to_ : State) :
    Except TransitionError Placement :=
  if p.state = .active then p.leave t to_
  else if p.state = .ramping ∧ to_ = .ramping then p.rampStep t
  else if to_ = .migrating then
    if p.heldBelowOne = true ∧ t.hold = false then
      p.fail t ("a held ramp step is in progress; repeat that ramp step to complete it " ++
        "before MIGRATING")
    else .ok { p with state := .migrating, ramp := none }
  else if to_ = .cutover then .ok { p with state := .cutover, cutover := t.cutover }
  else if p.state = .cutover ∧ to_ = .active then .ok p.finish
  else .ok { p with state := to_ }

def heldKeys (np : Placement) : RampHold :=
  match np.ramp with
  | some r => { ratio := r.ratio, prefixes := r.prefixes }
  | none => { ratio := 1 }

def Placement.rampInForce (p : Placement) : Ramp :=
  match p.state, p.ramp with
  | .ramping, some r => r
  | _, _ => { hash := rampHash }

def Placement.holdStep (p np : Placement) (t : Transition) : Placement :=
  { np with
    state := .ramping
    barrier := if t.barrier ≠ "" then some ⟨t.barrier, .mutations⟩ else none
    ramp := some { p.rampInForce with hold := some (heldKeys np) } }

def Placement.closeStep (p np : Placement) (t : Transition) : Placement :=
  if t.hold then p.holdStep np t
  else if t.complete = true ∨ t.barrier ≠ "" then { np with barrier := none }
  else np

def Placement.applyRoles (p : Placement) (t : Transition) : Except TransitionError Placement :=
  if t.release then p.release t.barrier
  else
    match p.checkBarrier t with
    | .error e => .error e
    | .ok _ =>
      match t.toState with
      | none => p.fail t ("unknown state " ++ quoted (stateText t.toState) ++
          "; states are " ++ joined ", " (states.map State.text))
      | some to_ =>
        match p.checkLegal t to_ with
        | .error e => .error e
        | .ok _ =>
          match p.inheritTarget t with
          | .error e => .error e
          | .ok t' =>
            match p.checkFields t' to_ with
            | .error e => .error e
            | .ok _ =>
              match p.stepTo t' to_ with
              | .error e => .error e
              | .ok np => .ok (p.closeStep np t')

end Shunt.Directory
