/-
Schema v2 of a placement: what its legs, owner tables, prefix rules and move say
on their own, and its conversion to the plain form on decode.
-/

import Shunt.Directory.Moves

namespace Shunt.Directory

open Config (quoted)

def lastHash : Hash := 0xffffffffffffffff

/-- The ranges from `index` on follow `next` without a gap or an overlap, each
names a leg, and the last one ends the key space.  `first` is whether `index` is 0. -/
def checkOwnersFrom (legs : StrMap Leg) (index : Nat) (next : Hash) : List Owner → Option String
  | [] => some ("owners: the ranges stop at " ++ hex16 (next - 1) ++
      "; they must cover the key space up to ffffffffffffffff")
  | o :: rest =>
    if o.leg ∉ legs then
      some ("owners[" ++ toString index ++ "].leg: unknown leg " ++ quoted o.leg)
    else if index = 0 ∧ o.lo ≠ 0 then
      some ("owners[0]: starts at " ++ hex16 o.lo ++
        "; the first range starts at 0000000000000000")
    else if o.lo ≠ next then
      some ("owners[" ++ toString index ++ "]: starts at " ++ hex16 o.lo ++
        "; the previous range ends at " ++ hex16 (next - 1) ++
        ", and the ranges must follow on without a gap or an overlap")
    else if o.hi < o.lo then
      some ("owners[" ++ toString index ++ "]: from is after to")
    else if o.hi = lastHash then
      if rest = [] then none
      else some ("owners[" ++ toString index ++
        "]: ends the key space, but more ranges follow")
    else checkOwnersFrom legs (index + 1) (o.hi + 1) rest

def checkOwners (owners : List Owner) (legs : StrMap Leg) : Option String :=
  if owners = [] then some "owners: at least one range is required"
  else checkOwnersFrom legs 0 0 owners

/-- Each rule from `index` on: a non-empty prefix after the one before it, and a
table that partitions the key space. -/
def checkPrefixesFrom (legs : StrMap Leg) (index : Nat) (last : Option Key) :
    List PrefixRule → Option String
  | [] => none
  | rule :: rest =>
    let at_ := "prefixes[" ++ toString index ++ "]"
    if rule.pre = [] then
      some (at_ ++ ".prefix: required; the empty prefix is the placement's own owners")
    else if maxPrefixLen < rule.pre.length then
      some (at_ ++ ".prefix: " ++ toString rule.pre.length ++ " bytes; a prefix has at most " ++
        toString maxPrefixLen)
    else if (last.any fun prev => decide (¬ prev < rule.pre)) = true then
      some (at_ ++ ".prefix: " ++ quoted (keyText rule.pre) ++
        "; rules are sorted by prefix, each prefix once")
    else
      match checkOwners rule.owners legs with
      | some msg => some (at_ ++ " (" ++ quoted (keyText rule.pre) ++ "): " ++ msg)
      | none => checkPrefixesFrom legs (index + 1) (some rule.pre) rest

def Placement.checkPrefixes (p : Placement) : Option String :=
  if p.prefixes = [] then none
  else if maxPrefixRules < p.prefixes.length then
    some ("prefixes: " ++ toString p.prefixes.length ++ " rules; a placement has at most " ++
      toString maxPrefixRules ++ " (ADR-0020)")
  else if p.keyHash = "" then
    some ("hash: required when prefix rules split the key space, e.g. " ++ rampHash)
  else checkPrefixesFrom p.legs 0 none p.prefixes

def hashNameChar (index : Nat) (c : Char) : Bool :=
  c.isLower || c.isDigit || (c == '-' && decide (0 < index))

def validRampHashName (s : String) : Bool :=
  decide (s ≠ "") && decide (s.toList.length ≤ 64) &&
    s.toList.zipIdx.all fun (c, index) => hashNameChar index c

def checkLeg (id : String) (l : Leg) : Option String :=
  if legID id = false then
    some ("legs." ++ id ++ ": a leg id is lowercase letters, digits, - and _, " ++
      "starting with a letter or digit")
  else if l.cluster = "" then some ("legs." ++ id ++ ".cluster: required")
  else if l.bucket = "" then some ("legs." ++ id ++ ".bucket: required")
  else none

def Placement.checkMoveLegs (p : Placement) : Option String :=
  match p.move with
  | none => none
  | some m =>
    if m.range.hi < m.range.lo then some "move.range: from is after to"
    else if m.source ∉ p.legs then some ("move.from: unknown leg " ++ quoted m.source)
    else if m.dest ∉ p.legs then some ("move.to: unknown leg " ++ quoted m.dest)
    else if m.source = m.dest then some "move.to: must differ from move.from"
    else none

/-- What schema v2 says on its own, before any conversion. -/
def Placement.checkV2 (p : Placement) : Option String :=
  if p.legs.size = 0 then some "legs: at least one leg is required"
  else if maxLegs < p.legs.size then
    some ("legs: " ++ toString p.legs.size ++ " legs; a placement has at most " ++
      toString maxLegs ++ " (ADR-0018)")
  else
    match p.legs.toList.findSome? fun (id, l) => checkLeg id l with
    | some msg => some msg
    | none =>
      if p.keyHash ≠ "" ∧ validRampHashName p.keyHash = false then
        some ("hash: " ++ quoted p.keyHash ++ " is not a hash name")
      else if 1 < p.owners.length ∧ p.keyHash = "" then
        some ("hash: required when owners split the key space, e.g. " ++ rampHash)
      else
        match checkOwners p.owners p.legs with
        | some msg => some msg
        | none =>
          match p.checkPrefixes with
          | some msg => some msg
          | none =>
            match p.checkMoveLegs with
            | some msg => some msg
            | none =>
              if p.target ≠ "" ∧ p.target ∉ p.legs then
                some ("target: unknown leg " ++ quoted p.target)
              else if p.cold ≠ "" ∧ p.cold ∉ p.legs then
                some ("cold: unknown leg " ++ quoted p.cold)
              else none

def ownsAll (table : List Owner) (leg : String) (rg : HashRange) : Bool :=
  table.any fun o => decide (o.leg = leg) && decide (o.lo ≤ rg.lo) && decide (rg.hi ≤ o.hi)

def Move.rampsByPrefix (m : Move) : Bool :=
  match m.ramp with
  | none => false
  | some r => decide (r.prefixes ≠ []) ||
      match r.hold with
      | none => false
      | some h => decide (h.prefixes ≠ [])

def Placement.checkMoveState (p : Placement) (m : Move) : Option String :=
  match p.scopeTable m.scope with
  | none => some ("move.scope: " ++ quoted (keyText m.scope) ++
      " is not a prefix rule of this bucket")
  | some table =>
    if ownsAll table m.source m.range = false then
      some ("move.range: leg " ++ quoted m.source ++ " does not own all of " ++
        m.range.text ++ scopeText m.scope)
    else if m.scope ≠ [] ∧ m.rampsByPrefix = true then
      some "move.ramp.prefixes: a move within a prefix rule ramps by ratio only (ADR-0020)"
    else if p.state = .ramping ∧ m.ramp = none then
      some "move.ramp: required in state RAMPING"
    else if p.state ≠ .ramping ∧ m.ramp ≠ none then
      some "move.ramp: only allowed in state RAMPING"
    else if p.state ≠ .cutover ∧ m.cutover ≠ none then
      some "move.cutover: only allowed in state CUTOVER"
    else none

def Placement.checkSpread (p : Placement) : Option String :=
  if p.target ≠ "" ∨ p.cold ≠ "" ∨ p.tier ≠ "" ∨ p.lifecycle ≠ "" then
    some ("target, cold, tier and lifecycle are not set on a placement spread over legs " ++
      "in this build")
  else
    match p.move with
    | none =>
      if p.state = .active then none
      else some ("move: required in state " ++ p.state.text)
    | some m =>
      if p.state = .active then some "move: not allowed in state ACTIVE"
      else p.checkMoveState m

def Placement.isV2 (p : Placement) : Bool :=
  !p.legs.isEmpty || !p.owners.isEmpty || p.move.isSome || !p.prefixes.isEmpty

def Placement.sameClusterMove (p : Placement) (m : Move) : Bool :=
  match p.legs[m.source]?, p.legs[m.dest]? with
  | some src, some dst => decide (src.cluster = dst.cluster)
  | _, _ => false

def Placement.keepsLegs (p : Placement) : Bool :=
  decide (1 < p.owners.length) || !p.prefixes.isEmpty ||
    match p.move with
    | none => false
    | some m => decide (m.range ≠ fullRange) || p.sameClusterMove m

def plainNames : List (String × Leg) → StrMap String → Except String (StrMap String)
  | [], names => .ok names
  | (_, l) :: rest, names =>
    if l.cluster ∈ names then
      .error ("legs: two legs on cluster " ++ quoted l.cluster ++
        ", but one leg owns every key and nothing moves: " ++
        "a plain placement names one bucket per cluster")
    else plainNames rest (names.insert l.cluster l.bucket)

/-- The v1 fields of a v2 placement whose one leg owns every key. -/
def Placement.plainRoles (p : Placement) (names : StrMap String) : Except String Placement :=
  let cluster := fun leg => (legIn p.legs leg).cluster
  let owner := ((p.owners.head?).map Owner.leg).getD ""
  let v1 := { p with
    legs := ∅, owners := [], move := none, keyHash := "", names := names
    target := if p.target ≠ "" then cluster p.target else p.target
    cold := if p.cold ≠ "" then cluster p.cold else p.cold }
  match p.move with
  | some m =>
    if p.state = .active then .error "move: not allowed in state ACTIVE"
    else if m.range ≠ fullRange then
      .error ("move.range: a move of part of the key space needs ADR-0018 N3; " ++
        "this build moves every key")
    else if m.source ≠ owner then
      .error ("move.from: " ++ quoted m.source ++ " does not own the range it moves; " ++
        quoted owner ++ " does")
    else
      .ok { v1 with
        source := cluster m.source, primary := cluster m.dest
        ramp := m.ramp, cutover := m.cutover }
  | none =>
    if p.state = .active then .ok { v1 with primary := cluster owner }
    else .error ("move: required in state " ++ p.state.text)

def Placement.fromV2 (p : Placement) : Except String Placement :=
  if p.isV2 = false then .ok p
  else if p.primary ≠ "" ∨ p.source ≠ "" ∨ p.names ≠ ∅ ∨ p.ramp ≠ none ∨ p.cutover ≠ none then
    .error ("a placement is written in one schema: legs, owners and move (v2), or primary, " ++
      "source, names, ramp and cutover (v1), not both")
  else
    match p.checkV2 with
    | some msg => .error msg
    | none =>
      if p.keepsLegs then
        match p.checkSpread with
        | some msg => .error msg
        | none => .ok p
      else
        match plainNames p.legs.toList ∅ with
        | .error msg => .error msg
        | .ok names => p.plainRoles names

end Shunt.Directory
