/-
One request from the placement it names to the backends it is sent to.
-/

import Shunt.Migrate.Ops
import Shunt.Migrate.Order
import Shunt.Proxy.SpreadDelete
import Shunt.Proxy.Uploads

namespace Shunt.Proxy

open Admission
open Config (Cluster)
open Directory
open Migrate

structure ProxyRequest where
  op : Op
  level : Level
  method : String
  key : Key
  query : Key
  -- what its preconditions, its copy source or its body refuse it with
  later : Option DeleteReply := none

/-- How a request is served: shunt answers it, merges listings for it, asks every leg, or
routes it by one placement. -/
inductive Routing where
  | answered (reply : DeleteReply)
  | listing
  | multiDelete
  | single (v : Placement)

inductive Served where
  | answered (reply : DeleteReply)
  | listing
  | deleted (outcome : DeleteOutcome)
  | forwarded (bucket : Leg) (second : Option Leg) (query : Key)

def firstLeg (p : Placement) : Placement := onLeg p ((p.owners.head?.map Owner.leg).getD "")

section

variable (hash : Key → Hash)

def routing (p : Placement) (req : ProxyRequest) : Routing :=
  if refusedOps req.op then
    .answered (.answer "NotImplemented" (req.op.text ++ " is not supported through shunt: its " ++
      "configuration names buckets and accounts that differ per backend."))
  else if req.op = .createBucket then .answered (.answer "BucketAlreadyOwnedByYou" "")
  else if p.state ≠ .active ∧ (req.op = .putBucketVersioning ∨ req.op = .deleteBucket) then
    .answered (.answer "InvalidBucketState" ("The bucket is " ++ p.state.text ++ "; " ++
      req.op.text ++ " is refused until its migration completes."))
  else if p.spread then
    if req.level = .object then
      match narrow hash p req.key with
      | .error _ => .answered (.answer "ServiceUnavailable"
          "This bucket's key split cannot be routed by this proxy version. Try again later.")
      | .ok v => .single v
    else if req.op = .listObjectsV2 ∨ req.op = .listObjects then .listing
    else if req.op = .headBucket ∨ req.op = .getBucketLocation then .single (firstLeg p)
    else if req.op = .deleteObjects then .multiDelete
    else .answered (.answer "NotImplemented" (req.op.text ++
      " is not supported on a bucket spread over " ++ toString p.legs.size ++
      " backend buckets yet (ADR-0018)."))
  else .single p

def staleRead (stale : Bool) (cls : OpClass) (route : Route) : Route :=
  if stale = true ∧ cls = .read ∧ route.cluster = .source ∧ route.fallback = false then
    { cluster := .primary, fallback := true }
  else route

def clusterRefusal (clusters : StrMap Cluster) (name : String) : Option DeleteReply :=
  match clusters[name]? with
  | none => none
  | some c =>
    if c.readOnly then
      some (refuseReadOnly "cluster-read-only"
        ("Backend cluster " ++ name ++ " is read-only for maintenance.") c.rejectWrites)
    else if c.barrier.isSome then
      some (.retry "barrier" ("Backend cluster " ++ name ++
        "'s writes pause while a change to it reaches every proxy. Retry shortly."))
    else none

def viewRefusal (v : Placement) : Option DeleteReply :=
  if v.readOnly then
    some (refuseReadOnly "placement-read-only" "This bucket is read-only for maintenance."
      v.rejectWrites)
  else if v.barrier.any fun b => decide (b.kind = .mutations) then
    some (.retry "barrier"
      "This bucket's writes pause while a change to it reaches every proxy. Retry shortly.")
  else none

def sourceClosed (v : Placement) (gate : Gate) (version : Int) : Except String Bool :=
  if v.barrier.any fun b => decide (b.kind = .source) then .ok true
  else
    match gate.enter .source version with
    | .ok _ => .ok false
    | .error barrier => if barrier = superseded then .error barrier else .ok true

/-- A request at its bucket's gates: refused, or admitted on a route that may have lost its
source. -/
def passGates (v : Placement) (gate : Gate) (version : Int) (mutating : Bool) (route : Route) :
    Except DeleteReply Route :=
  match (if mutating then gate.enter .mutations version else Except.ok gate) with
  | .error barrier => .error (refuseGate barrier)
  | .ok gate =>
    if route.fallback || route.both || route.merge then
      match sourceClosed v gate version with
      | .error barrier => .error (refuseGate barrier)
      | .ok false => .ok route
      | .ok true =>
        if route.both then
          .error (.retry "source_closed"
            "This bucket's deletes pause while its migration source is removed. Retry shortly.")
        else .ok { route with fallback := false, merge := false }
    else .ok route

def otherBucket (connected : List String) (v : Placement) (route : Route) (role : String) :
    Option Leg :=
  let other := if role = v.source then v.primary else v.source
  if v.source ≠ "" ∧ (route.fallback || route.both || route.merge) = true ∧
      v.clusterOf other ∈ connected ∧ nameIn v.names other ≠ "" then
    some (bucketIn v other)
  else none

variable (clusterID bucketTag : Digest)

/-- The route and role of a request, by the upload id it carries when it carries one. -/
def pinned (connected : List String) (v : Placement) (query : Key) (route : Route) :
    Option (Route × String × Key) :=
  match rewriteUploadIDs query with
  | none => none
  | some (rewritten, pre) =>
    if pre = [] then
      some (route, (match route.cluster with
        | .primary => v.primary
        | .source => v.source), rewritten)
    else
      match uploadRole clusterID bucketTag v connected pre with
      | none => none
      | some role => some ({ cluster := .primary }, role, rewritten)

def forward (rt : DeleteRuntime) (connected : List String) (v : Placement) (req : ProxyRequest) :
    Served :=
  let mutating := mutates req.op req.method
  let stale := decide (v.state ≠ .active) && rt.stale
  match (if mutating then viewRefusal v else none) with
  | some reply => .answered reply
  | none =>
    match decideRoute hash v (opClass req.op) req.key with
    | .error _ => .answered (.answer "ServiceUnavailable"
        "This bucket's migration ramp cannot be routed by this proxy version. Try again later.")
    | .ok decided =>
      let route := staleRead stale (opClass req.op) decided
      if route.held then
        .answered (.retry "hold" ("This key is moving to another cluster and its writes " ++
          "pause until every proxy has the change. Retry shortly."))
      else if stale = true ∧ (opClass req.op = .write ∨ opClass req.op = .delete) then
        .answered (.retry "stale" ("This proxy has lost contact with its control node and " ++
          "does not write to a bucket that is moving. Retry shortly."))
      else
        match pinned clusterID bucketTag connected v req.query route with
        | none => .answered (.answer "NoSuchUpload" "")
        | some (route, role, query) =>
          let checked := v.clusterOf role ::
            (if route.both then [v.clusterOf v.source] else [])
          match (if mutating then checked.findSome? (clusterRefusal rt.clusters) else none) with
          | some reply => .answered reply
          | none =>
            match passGates v rt.gate rt.version mutating route with
            | .error reply => .answered reply
            | .ok route =>
              if v.clusterOf role ∉ connected then .answered (.answer "InternalError" "")
              else
                match req.later with
                | some reply => .answered reply
                | none =>
                  let other := otherBucket connected v route role
                  if route.merge && other.isSome && decide (req.op = .listObjectsV2)
                  then .listing
                  else .forwarded (bucketIn v role) other query

def serve (rt : DeleteRuntime) (connected : List String) (p : Placement) (req : ProxyRequest)
    (body : Except String (Except String (List DeleteObject))) (backend : String → LegReply) :
    Served :=
  match routing hash p req with
  | .answered reply => .answered reply
  | .listing => .listing
  | .multiDelete => .deleted (spreadDeleteObjects hash p rt body backend)
  | .single v => forward hash clusterID bucketTag rt connected v req

def changes (p : Placement) (req : ProxyRequest) : Served → List Leg
  | .answered _ => []
  | .listing => []
  | .deleted outcome => outcome.sent.map (legIn p.legs)
  | .forwarded bucket second _ =>
    if mutates req.op req.method then bucket :: second.toList else []

end

variable {hash : Key → Hash} {clusterID bucketTag : Digest} {rt : DeleteRuntime}
  {connected : List String} {p v : Placement} {req : ProxyRequest}

def movesFor (hash : Key → Hash) (p : Placement) (req : ProxyRequest) : Prop :=
  match routing hash p req with
  | .single v => v.state ≠ .active
  | .multiDelete => p.state ≠ .active
  | _ => True

/-- Nothing but its class stands in a mutation's way: neither its placement, its upload id, its
cluster and gate, nor its preconditions and body. -/
structure Unhindered (clusterID bucketTag : Digest) (rt : DeleteRuntime) (connected : List String)
    (v : Placement) (req : ProxyRequest) : Prop where
  view : viewRefusal v = none
  role : ∃ route role query,
    pinned clusterID bucketTag connected v req.query { cluster := .primary } =
      some (route, role, query) ∧
    clusterRefusal rt.clusters (v.clusterOf role) = none ∧ v.clusterOf role ∈ connected
  gate : (rt.gate.enter .mutations rt.version).isOk = true
  later : req.later = none

theorem decideRoute_plain {cls : OpClass} (plain : cls = .upload ∨ cls = .bucket) (key : Key) :
    decideRoute hash v cls key = .ok { cluster := .primary } := by
  unfold decideRoute
  by_cases still : v.source = "" ∨ v.state = .active
  · rw [if_pos still]
  rw [if_neg still]
  by_cases cut : v.state = .cutover
  · rcases plain with eq | eq <;> simp [cut, eq]
  · rcases plain with eq | eq <;> simp [cut, eq]

theorem pinned_route {route : Route} {role : String} {query : Key}
    (got : pinned clusterID bucketTag connected v req.query { cluster := .primary } =
      some (route, role, query)) : route = { cluster := .primary } := by
  unfold pinned at got
  split at got
  · cases got
  split at got
  · cases got
    rfl
  · split at got <;> cases got
    rfl

theorem forward_changes_iff (plain : opClass req.op = .upload ∨ opClass req.op = .bucket)
    (mutating : mutates req.op req.method) :
    changes p req (forward hash clusterID bucketTag rt connected v req) = [] ↔
      ¬ Unhindered clusterID bucketTag rt connected v req := by
  have unread (stale : Bool) : staleRead stale (opClass req.op) { cluster := .primary } =
      { cluster := .primary } := by
    unfold staleRead
    rcases plain with eq | eq <;> simp [eq]
  have noWrite : ¬ (opClass req.op = .write ∨ opClass req.op = .delete) := by
    rcases plain with eq | eq <;> simp [eq]
  unfold forward
  simp only [mutating, if_true, decideRoute_plain plain, unread, Bool.false_eq_true, if_false,
    noWrite, and_false]
  cases fails : viewRefusal v with
  | some =>
    simp only [changes, true_iff]
    intro free
    rw [free.view] at fails
    cases fails
  | none =>
    simp only
    cases pin : pinned clusterID bucketTag connected v req.query { cluster := .primary } with
    | none =>
      simp only [changes, true_iff]
      rintro ⟨-, ⟨route, role, query, got, -⟩, -, -⟩
      rw [pin] at got
      cases got
    | some triple =>
      obtain ⟨route, role, query⟩ := triple
      obtain rfl := pinned_route pin
      have only : Unhindered clusterID bucketTag rt connected v req ↔
          clusterRefusal rt.clusters (v.clusterOf role) = none ∧
          v.clusterOf role ∈ connected ∧
          (rt.gate.enter .mutations rt.version).isOk ∧ req.later = none := by
        constructor
        · rintro ⟨-, ⟨route', role', query', got, cluster, has⟩, gate, later⟩
          rw [pin] at got
          cases got
          exact ⟨cluster, has, gate, later⟩
        · rintro ⟨cluster, has, gate, later⟩
          exact ⟨fails, ⟨_, role, query, pin, cluster, has⟩, gate, later⟩
      rw [only]
      simp only [Bool.false_eq_true, if_false, List.findSome?_cons, List.findSome?_nil]
      cases cluster : clusterRefusal rt.clusters (v.clusterOf role) with
      | some => simp [changes]
      | none =>
        simp only [passGates, if_true, Bool.or_self, Bool.false_eq_true, if_false]
        cases gate : rt.gate.enter .mutations rt.version with
        | error => simp [changes, Except.isOk, Except.toBool]
        | ok =>
          by_cases has : v.clusterOf role ∈ connected
          · cases later : req.later with
            | some => simp [changes, has]
            | none => simp [changes, has, mutating, Except.isOk, Except.toBool]
          · simp [changes, has]

variable (hash clusterID bucketTag connected) in
theorem forward_stale (lapsed : rt.stale) (moving : v.state ≠ .active)
    (writes : opClass req.op = .write ∨ opClass req.op = .delete) :
    ∃ reply, forward hash clusterID bucketTag rt connected v req = .answered reply := by
  have stale : (decide (v.state ≠ .active) && rt.stale) := by simp [lapsed, moving]
  unfold forward
  simp only [stale]
  split
  · exact ⟨_, rfl⟩
  split
  · exact ⟨_, rfl⟩
  split
  · exact ⟨_, rfl⟩
  · rw [if_pos ⟨trivial, writes⟩]
    exact ⟨_, rfl⟩

theorem changes_harmless (harmless : mutates req.op req.method = false) :
    changes p req (forward hash clusterID bucketTag rt connected v req) = [] := by
  cases served : forward hash clusterID bucketTag rt connected v req with
  | answered | listing => rfl
  | deleted =>
    unfold forward at served
    simp only [harmless] at served
    repeat' split at served
    all_goals cases served
  | forwarded => simp [changes, harmless]

variable (hash) in
theorem multiDelete_stale (formed : Formed p) (lapsed : rt.stale)
    (moving : p.state ≠ .active) (spread : p.spread)
    (body : Except String (Except String (List DeleteObject))) (backend : String → LegReply) :
    (spreadDeleteObjects hash p rt body backend).sent = [] := by
  obtain ⟨m, moves⟩ : ∃ m, p.move = some m := by
    cases got : p.move with
    | none => exact absurd ((formed.spreading spread).rest.mpr got) moving
    | some m => exact ⟨m, rfl⟩
  obtain ⟨reply, fails⟩ : ∃ reply, placementRefusal p rt = some reply := by
    unfold placementRefusal
    simp only [moves]
    by_cases readOnly : p.readOnly
    · exact ⟨_, if_pos readOnly⟩
    rw [if_neg readOnly]
    split
    · exact ⟨_, rfl⟩
    split
    · exact ⟨_, rfl⟩
    split
    · exact ⟨_, rfl⟩
    · rw [if_pos ⟨moving, lapsed⟩]
      exact ⟨_, rfl⟩
  unfold spreadDeleteObjects refusal
  rw [fails]
  rfl

theorem routing_multiDelete (got : routing hash p req = .multiDelete) : p.spread = true := by
  unfold routing at got
  by_contra plain
  rw [if_neg plain] at got
  repeat' split at got
  all_goals cases got

/-- A stale proxy changes nothing in a moving bucket, except by a mutation that is neither a
write nor a delete and that nothing hinders. -/
theorem stale_changes_nothing_iff (formed : Formed p) (lapsed : rt.stale = true)
    (moving : movesFor hash p req)
    (body : Except String (Except String (List DeleteObject))) (backend : String → LegReply) :
    changes p req (serve hash clusterID bucketTag rt connected p req body backend) = [] ↔
      ∀ v, routing hash p req = .single v →
        mutates req.op req.method = false ∨ opClass req.op = .write ∨ opClass req.op = .delete ∨
          ¬ Unhindered clusterID bucketTag rt connected v req := by
  unfold movesFor at moving
  unfold serve
  cases how : routing hash p req with
  | answered reply | listing => simp [changes]
  | multiDelete =>
    rw [how] at moving
    have none := multiDelete_stale hash formed lapsed moving (routing_multiDelete how) body backend
    simp [changes, none]
  | single =>
    rw [how] at moving
    simp only [Routing.single.injEq, forall_eq']
    by_cases harmless : mutates req.op req.method = false
    · simp only [harmless, true_or, iff_true]
      exact changes_harmless harmless
    have mutating : mutates req.op req.method = true := by simpa using harmless
    simp only [mutating, Bool.true_eq_false, false_or]
    cases cls : opClass req.op with
    | write =>
      obtain ⟨reply, answered⟩ := forward_stale hash clusterID bucketTag connected
        lapsed moving (Or.inl cls)
      simp [answered, changes]
    | delete =>
      obtain ⟨reply, answered⟩ := forward_stale hash clusterID bucketTag connected
        lapsed moving (Or.inr cls)
      simp [answered, changes]
    | upload =>
      simp only [reduceCtorEq, false_or]
      exact forward_changes_iff (Or.inl cls) mutating
    | bucket =>
      simp only [reduceCtorEq, false_or]
      exact forward_changes_iff (Or.inr cls) mutating
    | read | list | service => simp [mutates, cls] at mutating

def lapsedProxy : DeleteRuntime where
  clusters := ∅
  connected _ := true
  gate := {}
  version := 1
  stale := true

def putRequest : ProxyRequest := ⟨.putObject, .object, "PUT", [1], [], none⟩

def partRequest : ProxyRequest :=
  ⟨.uploadPart, .object, "PUT", [1], uploadIdName ++ [61, 117], none⟩

theorem stale_put_refused : changes photosMigrating putRequest
      (serve (fun _ => 0) sampleDigest sampleDigest lapsedProxy ["east", "west"] photosMigrating
        putRequest (.error "") (fun _ => .failed "" false)) = [] := by
  have formed : Formed photosMigrating :=
    (valid_of_directory (p := photosMigrating) rfl (by decide)).formed
  have moving : movesFor (fun _ => 0) photosMigrating putRequest := by
    unfold movesFor
    rw [show routing (fun _ => 0) photosMigrating putRequest = .single photosMigrating from rfl]
    decide
  refine (stale_changes_nothing_iff formed rfl moving _ _).mpr fun v _ => ?_
  exact .inr (.inl rfl)

/-- A part of an upload is sent to the target by a proxy without a lease. -/
theorem stale_part_sent :
    movesFor (fun _ => 0) photosMigrating partRequest ∧ lapsedProxy.stale = true ∧
    changes photosMigrating partRequest
      (serve (fun _ => 0) sampleDigest sampleDigest lapsedProxy ["east", "west"] photosMigrating
        partRequest (.error "") (fun _ => .failed "" false)) = [⟨"west", "acme-photos"⟩] := by
  refine ⟨?_, rfl, by decide⟩
  unfold movesFor
  rw [show routing (fun _ => 0) photosMigrating partRequest = .single photosMigrating from rfl]
  decide

end Shunt.Proxy
