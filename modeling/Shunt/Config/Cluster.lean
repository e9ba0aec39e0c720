/-
Cluster definitions and drain barriers, and the checks the config package makes
of them.  A check returns every failure, each naming its key.
-/

import Mathlib.Data.String.Basic
import Std.Data.ExtTreeMap

namespace Shunt

abbrev StrMap (V : Type) := Std.ExtTreeMap String V

namespace Config

/-- One validation failure: the dotted path of the offending key, and why. -/
structure FieldError where
  key : String
  msg : String
  deriving DecidableEq

def quoted (s : String) : String := "\"" ++ s ++ "\""

def joined (sep : String) (items : List String) : String := sep.intercalate items

def oneOf (key val : String) (allowed : List String) : List FieldError :=
  if val ∈ allowed then []
  else if val = "" then [⟨key, "required; one of " ++ joined "|" allowed⟩]
  else [⟨key, quoted val ++ " is not one of " ++ joined "|" allowed⟩]

inductive BarrierKind where
  | mutations
  | source
  deriving DecidableEq

def BarrierKind.text : BarrierKind → String
  | .mutations => "mutations"
  | .source => "source"

/-- A drain barrier on a placement or a cluster.  The id is its operation's. -/
structure Barrier where
  id : String
  kind : BarrierKind
  deriving DecidableEq

def barrierChar (c : Char) : Bool :=
  c.isAlphanum || c == '.' || c == '_' || c == ':' || c == '-'

def validBarrierID (id : String) : Bool :=
  decide (id ≠ "") && decide (id.toList.length ≤ 64) && id.toList.all barrierChar

def Barrier.validate (b : Barrier) : Option String :=
  if validBarrierID b.id then none
  else some ("barrier id " ++ quoted b.id ++
    ": want 1-64 letters, digits, '.', '_', ':' or '-'")

structure ClusterTLS where
  ca : String := ""
  insecureSkipVerify : Bool := false
  deriving DecidableEq

structure Credentials where
  accessKey : String
  secretRef : String
  deriving DecidableEq

structure Capabilities where
  enforcesSHA256 : Option Bool := none
  unsignedTrailer : Option Bool := none
  conditionalWrite : Option Bool := none
  conditionalDelete : Option Bool := none
  deriving DecidableEq

structure Cluster where
  type : String
  scheme : String
  region : String
  endpointMode : String := ""
  endpoints : List String := []
  endpoint : String := ""
  tls : ClusterTLS := {}
  credentials : Credentials
  storageClasses : String := ""
  storageClass : String := ""
  access : String := ""
  capabilities : Capabilities := {}
  readOnly : Bool := false
  rejectWrites : Bool := false
  barrier : Option Barrier := none
  deriving DecidableEq

def clusterTypes : List String := ["vast", "minio", "aws", "s3"]

def schemes : List String := ["https", "http"]

def endpointModes : List String := ["static", "dns"]

def storageClassModes : List String := ["native", "emulated"]

def accessModes : List String := ["instant", "restore-required"]

def archiveClasses : List String := ["GLACIER", "DEEP_ARCHIVE"]

def validateClusterBarrier (k : String) (cl : Cluster) : List FieldError :=
  match cl.barrier with
  | none => []
  | some b =>
    match b.validate with
    | some msg => [⟨k ++ ".barrier", msg⟩]
    | none =>
      if b.kind = .mutations then []
      else [⟨k ++ ".barrier.kind",
        "a cluster barrier closes mutations; got " ++ quoted b.kind.text⟩]

def validateEndpoints (k : String) (cl : Cluster) : List FieldError :=
  let mode := oneOf (k ++ ".endpoint_mode") cl.endpointMode endpointModes
  let byMode :=
    if cl.endpointMode = "static" then
      (if cl.endpoints = [] then
        [⟨k ++ ".endpoints", "required in static endpoint_mode"⟩] else []) ++
      (if cl.endpoint ≠ "" then
        [⟨k ++ ".endpoint", "not allowed in static endpoint_mode; use endpoints"⟩] else [])
    else if cl.endpointMode = "dns" then
      (if cl.endpoint = "" then
        [⟨k ++ ".endpoint", "required in dns endpoint_mode"⟩] else []) ++
      (if cl.endpoints ≠ [] then
        [⟨k ++ ".endpoints", "not allowed in dns endpoint_mode; use endpoint"⟩] else [])
    else []
  let hosts := cl.endpoints.zipIdx.filterMap fun (ep, index) =>
    if ep.toList.tails.any ("://".toList.isPrefixOf ·) then
      some ⟨k ++ ".endpoints[" ++ toString index ++ "]",
        "host:port only; the scheme comes from " ++ k ++ ".scheme"⟩
    else none
  mode ++ byMode ++ hosts

def secretRefForm (ref : String) : Bool :=
  "env:".toList.isPrefixOf ref.toList || "file:".toList.isPrefixOf ref.toList ||
    "control:".toList.isPrefixOf ref.toList

def validateCredentials (k : String) (cl : Cluster) : List FieldError :=
  (if cl.credentials.accessKey = "" then
    [⟨k ++ ".credentials.access_key", "required"⟩] else []) ++
  (if cl.credentials.secretRef = "" then
    [⟨k ++ ".credentials.secret_ref", "required (env:NAME or file:/path)"⟩]
  else if secretRefForm cl.credentials.secretRef then []
  else [⟨k ++ ".credentials.secret_ref", quoted cl.credentials.secretRef ++
    " must start with env:, file:, or control: (a secret the control plane stores, ADR-0015)"⟩])

def validateStorageClassPairing (k : String) (cl : Cluster) : List FieldError :=
  if cl.storageClass = "" ∧ cl.access = "" then []
  else if cl.storageClass = "" then [⟨k ++ ".storage_class", "required when access is set"⟩]
  else if cl.access = "" then
    [⟨k ++ ".access", "required when storage_class is set; one of " ++ joined "|" accessModes⟩]
  else if cl.access ∉ accessModes then oneOf (k ++ ".access") cl.access accessModes
  else
    (if cl.access = "restore-required" ∧ cl.storageClass ∉ archiveClasses then
      [⟨k ++ ".access", "restore-required is only legal with storage_class " ++
        joined "|" archiveClasses ++ ", got " ++ quoted cl.storageClass⟩] else []) ++
    (if cl.storageClasses = "native" then
      [⟨k ++ ".storage_class",
        "not allowed on a storage_classes: native cluster; the backend owns its classes"⟩]
    else [])

def validateCluster (k : String) (cl : Cluster) : List FieldError :=
  oneOf (k ++ ".type") cl.type clusterTypes ++
  oneOf (k ++ ".scheme") cl.scheme schemes ++
  (if cl.region = "" then [⟨k ++ ".region", "required"⟩] else []) ++
  validateClusterBarrier k cl ++
  validateEndpoints k cl ++
  (if cl.scheme = "http" ∧ (cl.tls.ca ≠ "" ∨ cl.tls.insecureSkipVerify = true) then
    [⟨k ++ ".tls", "set but scheme is http"⟩] else []) ++
  validateCredentials k cl ++
  (if cl.storageClasses = "" then []
    else oneOf (k ++ ".storage_classes") cl.storageClasses storageClassModes) ++
  validateStorageClassPairing k cl

def validateClusters (pre : String) (clusters : StrMap Cluster) : List FieldError :=
  clusters.toList.flatMap fun (name, cl) => validateCluster (pre ++ "." ++ name) cl

def applyClusterDefaults (clusters : StrMap Cluster) : StrMap Cluster :=
  clusters.map fun _ cl =>
    if cl.endpointMode = "" then { cl with endpointMode := "static" } else cl

end Config

end Shunt
