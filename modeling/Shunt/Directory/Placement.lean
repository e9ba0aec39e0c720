/-
Placements, transitions and their parts, as the directory package declares them.
-/

import Mathlib.Data.Rat.Lemmas
import Shunt.Config.Cluster
import Shunt.Library.Number

namespace Shunt.Directory

open Config (Barrier BarrierKind quoted joined)
open Library (Number)

abbrev Key := List UInt8

abbrev Hash := UInt64

inductive State where
  | active
  | ramping
  | migrating
  | cutover
  deriving DecidableEq

def State.text : State → String
  | .active => "ACTIVE"
  | .ramping => "RAMPING"
  | .migrating => "MIGRATING"
  | .cutover => "CUTOVER"

def states : List State := [.active, .ramping, .migrating, .cutover]

structure HashRange where
  lo : Hash
  hi : Hash
  deriving DecidableEq

def fullRange : HashRange := ⟨0, 0xffffffffffffffff⟩

def rampHash : String := "fnv1a-fmix64-v1"

structure RampHold where
  ratio : Number := 0
  prefixes : List Key := []
  deriving DecidableEq

structure Ramp where
  hash : String
  ratio : Number := 0
  prefixes : List Key := []
  range : Option HashRange := none
  hold : Option RampHold := none
  deriving DecidableEq

def rampNumbers (ramp : Option Ramp) : List Number :=
  ramp.elim [] fun r => r.ratio :: r.hold.elim [] fun h => [h.ratio]

structure CutoverEvidence where
  takenAt : Int
  window : Int
  fallbackReads : Number
  deriving DecidableEq

structure Leg where
  cluster : String
  bucket : String
  deriving DecidableEq

structure Owner where
  lo : Hash
  hi : Hash
  leg : String
  deriving DecidableEq

structure PrefixRule where
  pre : Key
  owners : List Owner
  deriving DecidableEq

structure Move where
  scope : Key
  range : HashRange
  source : String
  dest : String
  ramp : Option Ramp
  cutover : Option CutoverEvidence
  deriving DecidableEq

structure Placement where
  state : State
  primary : String := ""
  source : String := ""
  target : String := ""
  cutover : Option CutoverEvidence := none
  ramp : Option Ramp := none
  names : StrMap String := ∅
  cold : String := ""
  tier : String := ""
  lifecycle : String := ""
  created : Int := 0
  readOnly : Bool := false
  rejectWrites : Bool := false
  watch : Bool := false
  barrier : Option Barrier := none
  legs : StrMap Leg := ∅
  owners : List Owner := []
  keyHash : String := ""
  move : Option Move := none
  prefixes : List PrefixRule := []
  legClusters : StrMap String := ∅
  deriving DecidableEq

/-- A requested state change.  `toState` is `none` for a text that names no state. -/
structure Transition where
  toState : Option State := none
  target : String := ""
  name : String := ""
  ratio : Number := 0
  prefixes : List Key := []
  cutover : Option CutoverEvidence := none
  hold : Bool := false
  release : Bool := false
  complete : Bool := false
  barrier : String := ""
  range : Option HashRange := none
  leg : String := ""
  scope : Key := []
  share : ℚ := 0
  deriving DecidableEq

/-- An illegal or malformed state change, naming both states. -/
structure TransitionError where
  fromState : State
  toState : Option State
  reason : String
  deriving DecidableEq

def nameIn (names : StrMap String) (role : String) : String := names[role]?.getD ""

def legIn (legs : StrMap Leg) (id : String) : Leg := legs[id]?.getD ⟨"", ""⟩

def Placement.clusterOf (p : Placement) (role : String) : String :=
  p.legClusters[role]?.getD role

def Placement.spread (p : Placement) : Bool :=
  decide (1 < p.owners.length) || p.move.isSome || !p.prefixes.isEmpty

theorem noRules {p : Placement} (plain : p.spread = false) : p.prefixes = [] ∧ p.move = none := by
  simp only [Placement.spread, Bool.or_eq_false_iff] at plain
  simpa using And.intro plain.2 plain.1.2

def heldRamp (ramp : Option Ramp) : Bool :=
  match ramp with
  | some r => r.hold.isSome
  | none => false

def Placement.held (p : Placement) : Bool :=
  match p.move with
  | some m => heldRamp m.ramp
  | none => heldRamp p.ramp

def Placement.carries (p : Placement) (id : String) : Bool :=
  match p.barrier with
  | some b => b.id == id
  | none => false

def keyText (k : Key) : String := String.ofList (k.map fun b => Char.ofNat b.toNat)

def hex16 (h : Hash) : String :=
  let digits := Nat.toDigits 16 h.toNat
  String.ofList (List.replicate (16 - digits.length) '0' ++ digits)

def HashRange.text (rg : HashRange) : String := hex16 rg.lo ++ "-" ++ hex16 rg.hi

def scopeText (scope : Key) : String :=
  if scope = [] then "" else " of the keys under " ++ quoted (keyText scope)

def stateText (named : Option State) : String :=
  match named with
  | some s => s.text
  | none => ""

def listText (items : List String) : String := "[" ++ joined " " items ++ "]"

def Placement.barrierText (p : Placement) : String :=
  match p.barrier with
  | some b => "barrier " ++ b.id
  | none => "no barrier"

end Shunt.Directory
