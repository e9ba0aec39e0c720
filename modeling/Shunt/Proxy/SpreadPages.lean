/-
The listing of a bucket spread over legs, page by page: a sorted merge of what the legs
list, each keeping the keys it owns and those of a move it takes part in.
-/

import Shunt.Proxy.MergeListing

namespace Shunt.Proxy

open Config (joined)
open Directory
open Library
open Migrate

def afterPrefix : Key := [0xf4, 0x8f, 0xbf, 0xbf]

structure SpreadToken where
  last : Key := []
  isPrefix : Bool := false
  done : List String := []

def SpreadToken.record (t : SpreadToken) : List (String × Option Json) :=
  [("l", omitText (textOf t.last)), ("p", omitFlag t.isPrefix), ("d", omitList Json.text t.done)]

def SpreadToken.encode (t : SpreadToken) : Json := .object (written t.record)

def SpreadToken.unmarshal (value : Json) : Except String SpreadToken := do
  let fields ← value.fields
  let last ← readField "l" decodeBytes [] fields
  let isPrefix ← readField "p" decodeFlag false fields
  let done ← readField "d" (decodeList decodeText) [] fields
  return { last, isPrefix, done }

def decodeSpreadToken (value : Json) : Except ListError SpreadToken :=
  match SpreadToken.unmarshal value with
  | .error _ => .error .invalidToken
  | .ok t =>
    -- a token that resumes nowhere
    if t.last = [] ∧ (t.isPrefix = true ∨ t.done ≠ []) then .error .invalidToken else .ok t

inductive ListVersion where
  | v1
  | v2
  deriving DecidableEq

inductive ListToken where
  | token (value : Json)
  | marker (name : Key)

def startOf (version : ListVersion) (delimiter start : Key) (request : Option ListToken) :
    Except ListError SpreadToken :=
  match version, request with
  | .v1, some (.marker name) =>
    .ok { last := name, isPrefix := decide (delimiter ≠ []) && delimiter.isSuffixOf name }
  | .v2, some (.token value) => decodeSpreadToken value
  | .v1, _ => .ok {}
  | .v2, _ => .ok { last := start }

def SpreadToken.after (t : SpreadToken) : Key :=
  if t.isPrefix then t.last ++ afterPrefix else t.last

section

variable {O : Type}

structure SpreadLeg (O : Type) where
  id : String
  side : ListSide O

def ownItem (hash : Key → Hash) (p : Placement) (id : String) (x : ListItem O) : Bool :=
  x.isPrefix || ownKey hash p id x.name

def spreadPageSize (maxKeys live : Nat) : Nat :=
  if 1 < live then max (min maxKeys (maxKeys / live + maxKeys / (4 * live) + 16)) 1
  else max maxKeys 1

def missingLeg (id : String) (l : Leg) : String :=
  "leg " ++ id ++ ": bucket " ++ l.bucket ++ " is missing on " ++ l.cluster

def failureOf {α : Type} : Except String α → Option String
  | .error text => some text
  | .ok _ => none

def allOrJoined {α : Type} (results : List (Except String α)) : Except ListError (List α) :=
  let failed := results.filterMap failureOf
  if failed = [] then .ok (results.filterMap Except.toOption)
  else .error (.upstream (joined "\n" failed))

def leastHead : List (SpreadLeg O) → Option (ListItem O)
  | [] => none
  | l :: rest =>
    match l.side.items.head?, leastHead rest with
    | none, other => other
    | some x, none => some x
    | some x, some y => if y.name < x.name then some y else some x

def SpreadLeg.pop (name : Key) (l : SpreadLeg O) : SpreadLeg O :=
  match l.side.items with
  | x :: items => if x.name = name then { l with side := { l.side with items := items } } else l
  | [] => l

/-- The least head, the destination's of a moving key, taken from every leg that has it. -/
def spreadTake (dest : Option String) (legs : List (SpreadLeg O)) :
    Option (ListItem O × List (SpreadLeg O)) :=
  match leastHead legs with
  | none => none
  | some least =>
    let ofDest := legs.findSome? fun l =>
      if some l.id = dest then
        l.side.items.head?.filter fun x => decide (x.name = least.name)
      else none
    some (ofDest.getD least, legs.map (SpreadLeg.pop least.name))

def spreadEmit (headOf : SpreadLeg O → Except ListError (SpreadLeg O)) (dest : Option String) :
    Nat → List (SpreadLeg O) → Except ListError (List (ListItem O) × List (SpreadLeg O))
  | 0, legs => .ok ([], legs)
  | n + 1, legs => do
      let legs ← legs.mapM headOf
      match spreadTake dest legs with
      | none => return ([], legs)
      | some (x, legs) =>
        let (emitted, ends) ← spreadEmit headOf dest n legs
        return (x :: emitted, ends)

def spreadPage (headOf : SpreadLeg O → Except ListError (SpreadLeg O)) (dest : Option String)
    (n : Nat) (legs : List (SpreadLeg O)) :
    Except ListError (List (ListItem O) × Bool × List String) := do
  let (emitted, legs) ← spreadEmit headOf dest n legs
  let legs ← legs.mapM headOf
  return (emitted, legs.any fun l => !l.side.items.isEmpty,
    (legs.filter fun l => l.side.items.isEmpty).map SpreadLeg.id)

def nextToken (version : ListVersion) (x : ListItem O) (done : List String) : ListToken :=
  if version = .v1 then .marker x.name
  else .token (SpreadToken.encode { last := x.name, isPrefix := x.isPrefix, done })

section

variable (rounds : Nat) (hash : Key → Hash) (p : Placement) (available : String → Bool)
  (b : Leg → Backend O) (q : Query) (start : Key)

def headOfLeg (pageSize : Nat) (after : Key) (l : SpreadLeg O) :
    Except ListError (SpreadLeg O) := do
  let leg := legIn p.legs l.id
  let side ← head (b leg) q pageSize start after (ownItem hash p l.id)
    (fun _ => .error (.upstream (missingLeg l.id leg))) rounds l.side
  return { l with side }

def firstOfLeg (pageSize : Nat) (after : Key) (l : SpreadLeg O) : Except String (SpreadLeg O) :=
  let leg := legIn p.legs l.id
  if l.side.done then .ok l
  else
    match fetchListPage (b leg) q pageSize start after l.side with
    | .failed text => .error text
    | .missing _ => .error (missingLeg l.id leg)
    | .read s => .ok { l with side := { s with items := s.items.filter (ownItem hash p l.id) } }

def spreadListingPage (maxKeys : Nat) (version : ListVersion) (request : Option ListToken) :
    Except ListError (Page (ListItem O) ListToken) := do
  let n := pageLimit maxKeys
  let tok ← startOf version q.delimiter start request
  let ids := p.listingLegs q.pre
  let pageSize := spreadPageSize n (ids.filter fun id => decide (id ∉ tok.done)).length
  match ids.find? fun id => !available (legIn p.legs id).cluster with
  | some id => .error (.unavailable (legIn p.legs id).cluster)
  | none =>
    let legs := ids.map fun id => ⟨id, { done := decide (id ∈ tok.done) }⟩
    let legs ← allOrJoined (legs.map (firstOfLeg hash p b q start pageSize tok.after))
    let (emitted, truncated, done) ← spreadPage
      (headOfLeg rounds hash p b q start pageSize tok.after) (p.move.map Move.dest) n legs
    return {
      items := emitted, truncated
      next := if truncated then emitted.getLast?.map (nextToken version · done) else none }

end

end

end Shunt.Proxy
