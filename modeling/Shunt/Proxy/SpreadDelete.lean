/-
DeleteObjects on a bucket spread over legs.

The request goes unchanged to every leg, the source of a move first.  Each key's answer is
taken from the leg that owns it, the destination for a key of the move.  A leg that does not
answer fails the request, unless it is the source of the move: then the keys it still owns
are answered with an error.
-/

import Shunt.Admission.Gates
import Shunt.Migrate.Dispatch

namespace Shunt.Proxy

open Admission
open Config (Cluster)
open Directory
open Migrate

structure DeletedObject where
  key : Key
  versionID : String := ""
  deleteMarker : Option Bool := none
  deleteMarkerVersionID : String := ""
  deriving DecidableEq

structure DeleteError where
  key : Key
  versionID : String := ""
  code : String
  message : String
  deriving DecidableEq

structure DeleteResult where
  deleted : List DeletedObject := []
  errors : List DeleteError := []
  deriving DecidableEq

structure DeleteObject where
  key : Key
  versionID : String := ""

/-- What came of the request to one leg: an error, which may have come after it was sent, or
an answer with its status, the code of an error it reports and what its body reads as. -/
inductive LegReply where
  | failed (err : String) (dispatched : Bool)
  | answered (status : Nat) (errorCode : String) (parsed : Except String DeleteResult)

inductive DeleteReply where
  | answer (code message : String)
  -- answered with a Retry-After
  | retry (reason message : String)
  | relayed (status : Nat) (errorCode : String)
  | upstream (text : String)
  | result (out : DeleteResult)
  deriving DecidableEq

/-- A reply, the legs the request was sent to, and what is not known of its end. -/
structure DeleteOutcome where
  reply : DeleteReply
  sent : List String := []
  uncertain : Bool := false
  srcUncertain : Bool := false

structure DeleteRuntime where
  clusters : StrMap Cluster
  connected : String → Bool
  gate : Gate
  version : Int
  stale : Bool

def refuseReadOnly (reason message : String) (reject : Bool) : DeleteReply :=
  if reject then .answer "AccessDenied" message else .retry reason message

def refuseGate (barrier : String) : DeleteReply :=
  if barrier = superseded then
    .retry "superseded"
      "This bucket's routing changed while the request was being prepared. Retry."
  else
    .retry "barrier"
      "This bucket's writes pause while a change to it reaches every proxy. Retry shortly."

section

variable (hash : Key → Hash) (p : Placement) (rt : DeleteRuntime)

def placementRefusal : Option DeleteReply :=
  if p.readOnly then
    some (refuseReadOnly "placement-read-only" "This bucket is read-only for maintenance."
      p.rejectWrites)
  else if p.barrier.any fun b => decide (b.kind = .mutations) then
    some (.retry "barrier"
      "This bucket's writes pause while a change to it reaches every proxy. Retry shortly.")
  else
    match p.move with
    | none => none
    | some m =>
      if p.keyHash ≠ rampHash then
        some (.answer "ServiceUnavailable" ("This bucket's key split cannot be routed by this " ++
          "proxy version. Try again later."))
      else if (p.moveView m).held then
        some (.retry "hold" ("Keys of this bucket are moving to another cluster and their " ++
          "deletes pause until every proxy has the change. Retry shortly."))
      else if p.state ≠ .active ∧ rt.stale then
        some (.retry "stale" ("This proxy has lost contact with its control node and does not " ++
          "write to a bucket that is moving. Retry shortly."))
      else none

def legRefusal (id : String) : Option DeleteReply :=
  let name := (legIn p.legs id).cluster
  if rt.connected name = false then
    some (.answer "ServiceUnavailable"
      ("Cluster " ++ name ++ " of this bucket is not available to this proxy."))
  else
    match rt.clusters[name]? with
    | none => none
    | some c =>
      if c.readOnly then
        some (refuseReadOnly "cluster-read-only"
          ("Backend cluster " ++ name ++ " is read-only for maintenance.") c.rejectWrites)
      else if c.barrier.isSome then
        some (.retry "barrier" ("Backend cluster " ++ name ++
          "'s writes pause while a change to it reaches every proxy. Retry shortly."))
      else none

def gateRefusal : Option DeleteReply :=
  match rt.gate.enter .mutations rt.version with
  | .error barrier => some (refuseGate barrier)
  | .ok gate =>
    match p.move with
    | none => none
    | some _ =>
      let closed : DeleteReply := .retry "source_closed"
        "This bucket's deletes pause while its migration source is removed. Retry shortly."
      match gate.enter .source rt.version with
      | .error barrier => some (if barrier = superseded then refuseGate barrier else closed)
      | .ok _ => if p.barrier.any fun b => decide (b.kind = .source) then some closed else none

def deleteLegs : List String :=
  (p.listingLegs []).foldl
    (fun legs id => if p.move.any fun m => decide (id = m.source) then id :: legs else legs ++ [id])
    []

def LegReply.read : LegReply → Except String DeleteResult
  | .failed err _ => .error err
  | .answered status errorCode parsed =>
    if status ≠ 200 then .error ("HTTP " ++ toString status ++ " " ++ errorCode)
    else
      match parsed with
      | .error err => .error ("unreadable answer: " ++ err)
      | .ok res => .ok res

def LegReply.dispatched : LegReply → Bool
  | .failed _ sent => sent
  | .answered _ _ _ => false

def legFailure (id : String) (reply : LegReply) (err : String) : DeleteReply :=
  let failure : DeleteReply :=
    .upstream ("leg " ++ id ++ " on " ++ (legIn p.legs id).cluster ++ ": " ++ err)
  match reply with
  | .failed _ _ => failure
  | .answered status errorCode _ =>
    if 400 ≤ status ∧ status < 500 then .relayed status errorCode else failure

structure Collected where
  results : List (String × DeleteResult) := []
  sourceErr : Option String := none
  sourceDispatched : Bool := false
  uncertain : Bool := false

def Collected.mark (c : Collected) (dispatched source : Bool) : Collected :=
  if dispatched then
    if source then { c with sourceDispatched := true } else { c with uncertain := true }
  else c

/-- The legs' answers, in order, up to a leg that fails the request. -/
def collect (backend : String → LegReply) : List String → Collected → Collected × Option DeleteReply
  | [], c => (c, none)
  | id :: rest, c =>
    let source := p.move.any fun m => decide (id = m.source)
    let c := c.mark (backend id).dispatched source
    match (backend id).read with
    | .ok res => collect backend rest { c with results := c.results ++ [(id, res)] }
    | .error err =>
      if source then collect backend rest { c with sourceErr := some err }
      else (c, some (legFailure p id (backend id) err))

def answeringLeg (key : Key) : String :=
  let owner := match ownerOf hash p key with
    | .ok id => id
    | .error _ => ""
  match p.move with
  | none => owner
  | some m => if inMove hash p key then m.dest else owner

def mergeResults (results : List (String × DeleteResult)) : DeleteResult where
  deleted := results.flatMap fun r =>
    r.2.deleted.filter fun d => decide (answeringLeg hash p d.key = r.1)
  errors := results.flatMap fun r =>
    r.2.errors.filter fun e => decide (answeringLeg hash p e.key = r.1)

def unansweredError (err : String) (obj : DeleteObject) : DeleteError where
  key := obj.key
  versionID := obj.versionID
  code := "InternalError"
  message := "The backend that holds this key did not answer the delete: " ++ err

def mergedReply (parsed : Except String (List DeleteObject)) (c : Collected) : DeleteReply × Bool :=
  let out := mergeResults hash p c.results
  match c.sourceErr, p.move with
  | some err, some m =>
    match parsed with
    | .error unread => (.upstream ("leg " ++ m.source ++ " answered nothing, and the request's " ++
        "keys could not be read to answer for them: " ++ unread), c.uncertain)
    | .ok objects =>
      let lost := objects.filter fun obj =>
        decide (answeringLeg hash p obj.key = m.source)
      (.result { out with errors := out.errors ++ lost.map (unansweredError err) },
        c.uncertain || (c.sourceDispatched && !lost.isEmpty))
  | _, _ => (.result out, c.uncertain)

def refusal : Option DeleteReply :=
  (placementRefusal p rt).or
    (((p.listingLegs []).findSome? (legRefusal p rt)).or (gateRefusal p rt))

/-- DeleteObjects: the request's body is refused with a code, or read; its objects may then
not be readable. -/
def spreadDeleteObjects (body : Except String (Except String (List DeleteObject)))
    (backend : String → LegReply) : DeleteOutcome :=
  match refusal p rt with
  | some reply => { reply }
  | none =>
    match body with
    | .error code => { reply := .answer code "" }
    | .ok parsed =>
      let legs := deleteLegs p
      let collected := collect p backend legs {}
      match collected.2 with
      | some reply =>
        { reply, sent := legs, uncertain := collected.1.uncertain
          srcUncertain := collected.1.sourceDispatched }
      | none =>
        let merged := mergedReply hash p parsed collected.1
        { reply := merged.1, sent := legs, uncertain := merged.2
          srcUncertain := collected.1.sourceDispatched }

end

end Shunt.Proxy
