/-
The member record of the fleet table and the functions that change it.  A proxy's
record holds its current process, the processes that ended without retiring and the
last few an operator resolved; each call reads it, changes it and writes it back.
Times are numbers, zero for the unset one.
-/

import Shunt.Config.Cluster

namespace Shunt.Cp

open Config (quoted)

inductive IncarnationState where
  | active
  | retired
  | unclean
  | resolved
deriving DecidableEq

structure Incarnation where
  id : String
  started : Nat := 0
  ended : Nat := 0
  state : IncarnationState
  uncertain : Int := 0
  attestation : String := ""
  resolvedBy : String := ""
  resolvedAt : Nat := 0
deriving DecidableEq

def maxUnresolvedIncarnations : Nat := 8

def maxResolvedKept : Nat := 4

def isHexDigit (c : Char) : Bool := (decide ('0' ≤ c) && decide (c ≤ '9')) ||
  (decide ('a' ≤ c) && decide (c ≤ 'f'))

def validIncarnation (id : String) : Bool :=
  decide (id.toList.length = 32) && id.toList.all isHexDigit

def Incarnation.clean (p : Incarnation) : Bool :=
  decide (p.state = .retired ∧ p.uncertain = 0)

def Incarnation.endedUnclean (p : Incarnation) : Bool :=
  decide (p.state = .unclean ∨ 0 < p.uncertain)

structure Heartbeat where
  incarnation : String
  started : Nat := 0
  previous : List Incarnation := []
deriving DecidableEq

def previousValid (incarnation : String) : List String → List Incarnation → Bool
  | _, [] => true
  | seen, p :: rest =>
    validIncarnation p.id && decide (p.id ≠ incarnation) &&
      decide (p.state = .retired ∨ p.state = .unclean) && decide (0 ≤ p.uncertain) &&
      decide (p.id ∉ seen) && previousValid incarnation (p.id :: seen) rest

def Heartbeat.check (hb : Heartbeat) : Option String :=
  if validIncarnation hb.incarnation = false then
    some ("incarnation " ++ quoted hb.incarnation ++ ": want 32 lowercase hex characters")
  else if maxUnresolvedIncarnations < hb.previous.length then
    some ("previous: at most " ++ toString maxUnresolvedIncarnations ++ " incarnations")
  else if previousValid hb.incarnation [] hb.previous = false then
    some ("previous: want other incarnations' ids, once each, their state retired or unclean, " ++
      "and non-negative uncertain counts")
  else none

structure MemberRecord where
  joined : Nat := 0
  current : Option Incarnation := none
  unresolved : List Incarnation := []
  resolved : List Incarnation := []
  retireRequested : Bool := false
deriving DecidableEq

inductive FleetError where
  | retirement (proxy : String) (incarnations : List Incarnation) (what : String)
  | refuse (message : String)
  | notFound (message : String)
deriving DecidableEq

structure Grant where
  retire : Bool
  previousRecorded : Bool
deriving DecidableEq

def previousIDs (previous : List Incarnation) : String :=
  String.intercalate "," (previous.map Incarnation.id)

namespace MemberRecord

def knows (rec : MemberRecord) (id : String) : Bool :=
  decide (rec.current.map Incarnation.id = some id) ||
    rec.unresolved.any (fun inc => decide (inc.id = id)) ||
    rec.resolved.any fun inc => decide (inc.id = id)

def endedIncarnations (rec : MemberRecord) : List String :=
  (match rec.current with
    | some cur => if cur.state = .active then [] else [cur.id]
    | none => []) ++ rec.resolved.map Incarnation.id

def addUnresolved (rec : MemberRecord) (inc : Incarnation) : Option MemberRecord :=
  if maxUnresolvedIncarnations ≤ rec.unresolved.length then none
  else some { rec with unresolved := rec.unresolved ++ [inc] }

def endedAt (now : Nat) (p : Incarnation) : Nat := if p.ended = 0 then now else p.ended

def discharge (rec : MemberRecord) (p : Incarnation) : MemberRecord :=
  if p.clean then { rec with unresolved := rec.unresolved.filter (·.id ≠ p.id) } else rec

def reported (now : Nat) (cur p : Incarnation) : Incarnation :=
  if p.clean then { cur with state := .retired, ended := endedAt now p }
  else { cur with uncertain := max cur.uncertain p.uncertain }

/-- The first loop over the previous incarnations: the markers the record already knows of. -/
def takeReport (now : Nat) (incarnation : String) (rec : MemberRecord) (p : Incarnation) :
    MemberRecord :=
  if p.id = incarnation then rec
  else
    match rec.current with
    | some cur =>
      if cur.id = p.id ∧ cur.state = .active then
        { rec with current := some (reported now cur p) }
      else rec.discharge p
    | none => rec.discharge p

/-- A process replaced without retiring is unresolved; a retired one is dropped. -/
def endCurrent (proxy : String) (now : Nat) (incarnation : String) (rec : MemberRecord) :
    Except FleetError MemberRecord :=
  match rec.current with
  | none => .ok rec
  | some cur =>
    if cur.id = incarnation then .ok rec
    else if cur.state = .active then
      match rec.addUnresolved { cur with state := .unclean, ended := now } with
      | none => .error (.retirement proxy rec.unresolved
          ("registering incarnation " ++ incarnation ++ " refused"))
      | some added => .ok { added with current := none }
    else .ok { rec with current := none }

def register (hb : Heartbeat) (rec : MemberRecord) : MemberRecord :=
  match rec.current with
  | some _ => rec
  | none =>
    { rec with
      current := some { id := hb.incarnation, started := hb.started, state := .active }
      retireRequested := false }

def addReport (proxy : String) (now : Nat) (forgotten : List String) (rec : MemberRecord)
    (p : Incarnation) : Except FleetError MemberRecord :=
  if rec.knows p.id = true ∨ p.id ∈ forgotten then .ok rec
  else if p.endedUnclean then
    match rec.addUnresolved
      { id := p.id, started := p.started, ended := endedAt now p, state := .unclean
        uncertain := p.uncertain } with
    | none => .error (.retirement proxy rec.unresolved
        ("recording incarnation " ++ p.id ++ " refused"))
    | some added => .ok added
  else .ok rec

def join (now : Nat) (rec : MemberRecord) : MemberRecord :=
  if rec.joined = 0 then { rec with joined := now } else rec

def heartbeat (proxy : String) (now : Nat) (forgotten : List String) (hb : Heartbeat)
    (rec : MemberRecord) : Except FleetError MemberRecord := do
  let told := hb.previous.foldl (takeReport now hb.incarnation) (rec.join now)
  let free ← told.endCurrent proxy now hb.incarnation
  hb.previous.foldlM (addReport proxy now forgotten) (free.register hb)

def grant (hb : Heartbeat) (rec : MemberRecord) : Grant :=
  ⟨rec.retireRequested, !hb.previous.isEmpty⟩

def retireEarlier (now : Nat) (incarnation : String) (uncertain : Int) :
    List Incarnation → Option (List Incarnation)
  | [] => none
  | inc :: rest =>
    if inc.id = incarnation then
      some (if uncertain = 0 then rest
        else { inc with uncertain := uncertain, ended := now } :: rest)
    else (retireEarlier now incarnation uncertain rest).map (inc :: ·)

def retireCurrent (proxy : String) (now : Nat) (uncertain : Int) (cur : Incarnation)
    (rec : MemberRecord) : Except FleetError MemberRecord :=
  if 0 < uncertain then
    match rec.addUnresolved { cur with ended := now, uncertain, state := .unclean } with
    | none => .error (.retirement proxy rec.unresolved "recording the retirement refused")
    | some added => .ok { added with current := none, retireRequested := false }
  else
    .ok { rec with
      current := some { cur with ended := now, uncertain := uncertain, state := .retired }
      retireRequested := false }

def retireOther (proxy : String) (now : Nat) (incarnation : String) (uncertain : Int)
    (rec : MemberRecord) : Except FleetError MemberRecord :=
  match retireEarlier now incarnation uncertain rec.unresolved with
  | some unresolved => .ok { rec with unresolved := unresolved }
  | none =>
    if rec.knows incarnation then .ok rec
    else .error (.refuse ("proxy " ++ proxy ++ " has no incarnation " ++ incarnation ++
      " to retire"))

def retire (proxy : String) (now : Nat) (incarnation : String) (uncertain : Int)
    (rec : MemberRecord) : Except FleetError MemberRecord :=
  match rec.current with
  | some cur =>
    if cur.id = incarnation then
      if cur.state = .retired then .ok rec else rec.retireCurrent proxy now uncertain cur
    else rec.retireOther proxy now incarnation uncertain
  | none => rec.retireOther proxy now incarnation uncertain

def requestRetire (proxy : String) (rec : MemberRecord) : Except FleetError MemberRecord :=
  match rec.current with
  | some cur =>
    if cur.state = .active then .ok { rec with retireRequested := true }
    else .error (.refuse ("proxy " ++ proxy ++ " has no running process to retire"))
  | none => .error (.refuse ("proxy " ++ proxy ++ " has no running process to retire"))

def takeUnresolved (incarnation : String) :
    List Incarnation → Option (Incarnation × List Incarnation)
  | [] => none
  | inc :: rest =>
    if inc.id = incarnation then some (inc, rest)
    else (takeUnresolved incarnation rest).map fun got => (got.1, inc :: got.2)

def addResolved (now : Nat) (attestation actor : String) (inc : Incarnation)
    (rec : MemberRecord) : MemberRecord :=
  let all := rec.resolved ++
    [{ inc with state := .resolved, attestation := attestation, resolvedBy := actor
                resolvedAt := now }]
  { rec with resolved := all.drop (all.length - maxResolvedKept) }

def resolve (proxy : String) (now : Nat) (live : Bool) (incarnation attestation actor : String)
    (rec : MemberRecord) : Except FleetError MemberRecord :=
  match takeUnresolved incarnation rec.unresolved with
  | some (inc, others) =>
    .ok (addResolved now attestation actor inc { rec with unresolved := others })
  | none =>
    match rec.current.filter fun cur => cur.id = incarnation ∧ cur.state = .active with
    | some cur =>
      if live then .error (.refuse ("proxy " ++ proxy ++ "'s incarnation " ++ incarnation ++
        " is live (its lease has not expired): a running process is retired, not resolved"))
      else .ok (addResolved now attestation actor { cur with ended := now }
        { rec with current := none })
    | none =>
      if rec.knows incarnation then .error (.refuse ("proxy " ++ proxy ++
        "'s incarnation " ++ incarnation ++ " is not unresolved"))
      else .error (.notFound ("proxy " ++ proxy ++ " has no incarnation " ++ incarnation))

def unproven (rec : MemberRecord) : List Incarnation :=
  (rec.current.filter fun cur => cur.state = .active).toList ++ rec.unresolved

def forget (proxy : String) (live : Bool) (rec : MemberRecord) : Except FleetError (List String) :=
  if live then .error (.refuse ("proxy " ++ proxy ++ " is live (its lease has not expired); " ++
    "stop it first, then forget it. A running proxy re-joins on its next heartbeat"))
  else if rec.unproven = [] then .ok rec.endedIncarnations
  else .error (.retirement proxy rec.unproven ("forgetting proxy " ++ proxy ++ " refused"))

end MemberRecord

end Shunt.Cp
