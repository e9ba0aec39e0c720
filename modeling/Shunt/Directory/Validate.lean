/-
The directory file and the checks every version of it passes before it is
written or installed.  A check returns every failure, each naming its key.
-/

import Shunt.Directory.Legs

namespace Shunt.Directory

open Config (Barrier BarrierKind Cluster FieldError quoted joined oneOf)

structure Tenant where
  defaultCluster : String
  deriving DecidableEq

/-- A directory's lineage: versions compare only within one identity. -/
structure Identity where
  clusterID : String := ""
  epoch : String := ""
  deriving DecidableEq

structure File where
  version : Int := 0
  schema : Int := 0
  identity : Identity := {}
  generations : StrMap Int := ∅
  clusters : StrMap Cluster := ∅
  tenants : StrMap Tenant := ∅
  placements : StrMap Placement := ∅
  deriving DecidableEq

def schemaVersion : Int := 2

def idLen : Nat := 32

def Identity.isZero (i : Identity) : Bool := decide (i = {})

def hexChar (c : Char) : Bool :=
  c.isDigit || (decide ('a' ≤ c) && decide (c ≤ 'f'))

def validID (s : String) : Bool := decide (s.toList.length = idLen) && s.toList.all hexChar

def Identity.validate (i : Identity) : Option String :=
  if validID i.clusterID = false then
    some ("cluster_id " ++ quoted i.clusterID ++ ": want 32 lowercase hex characters")
  else if validID i.epoch = false then
    some ("epoch " ++ quoted i.epoch ++ ": want 32 lowercase hex characters")
  else none

def placementKey (tenant bucket : String) : String := tenant ++ "/" ++ bucket

def splitKey (k : String) : Option (String × String) :=
  let tenant := k.toList.takeWhile (· ≠ '/')
  match k.toList.dropWhile (· ≠ '/') with
  | [] => none
  | _ :: bucket =>
    if tenant = [] ∨ bucket = [] then none
    else some (String.ofList tenant, String.ofList bucket)

def tenantChar (c : Char) : Bool := c.isLower || c.isDigit || c == '-'

def validTenant (name : String) : Bool :=
  decide (name ≠ "") && decide (name.toList.length ≤ 32) &&
    decide (name.toList.head? ≠ some '-') && decide (name.toList.getLast? ≠ some '-') &&
    name.toList.all tenantChar

def bucketLetter (c : Char) : Bool := c.isLower || c.isDigit

def noDoubleDot : List Char → Bool
  | '.' :: '.' :: _ => false
  | _ :: rest => noDoubleDot rest
  | [] => true

def ipv4Field (digits : List Char) : Bool :=
  digits.all Char.isDigit && decide (digits ≠ []) && decide (digits.length ≤ 3) &&
    (decide (digits.length = 1) || decide (digits.head? ≠ some '0')) &&
    decide (digits.foldl (fun n c => n * 10 + (c.toNat - '0'.toNat)) 0 ≤ 255)

def parsesAsIP (name : List Char) : Bool :=
  let fields := name.splitOn '.'
  decide (fields.length = 4) && fields.all ipv4Field

def reservedBucketPrefixes : List String := ["xn--", "sthree-", "amzn-s3-demo-"]

def reservedBucketSuffixes : List String := ["-s3alias", "--ol-s3", ".mrap", "--x-s3", "--table-s3"]

def validBucketName (name : String) : Bool :=
  let cs := name.toList
  decide (3 ≤ cs.length) && decide (cs.length ≤ 63) &&
    cs.all (fun c => bucketLetter c || c == '.' || c == '-') &&
    (cs.head?.any bucketLetter) && (cs.getLast?.any bucketLetter) && noDoubleDot cs &&
    !parsesAsIP cs &&
    reservedBucketPrefixes.all (fun pre => !pre.toList.isPrefixOf cs) &&
    reservedBucketSuffixes.all (fun suf => !suf.toList.isSuffixOf cs)

def refErrors (clusters : StrMap Cluster) (key name : String) : List FieldError :=
  if name = "" then [⟨key, "required"⟩]
  else if name ∉ clusters then [⟨key, "unknown cluster " ++ quoted name⟩]
  else []

def validateRamp (k : String) (state : State) (ramp : Option Ramp) : List FieldError :=
  match ramp with
  | none => if state = .ramping then [⟨k ++ ".ramp", "required in state RAMPING"⟩] else []
  | some r =>
    (if state ≠ .ramping then [⟨k ++ ".ramp", "only allowed in state RAMPING"⟩] else []) ++
    (if validRampHashName r.hash = false then
      [⟨k ++ ".ramp.hash", "required: the name of the hash that splits the ramp's keys, e.g. " ++
        rampHash ++ "; got " ++ quoted r.hash⟩] else []) ++
    (if r.ratio < 0 ∨ 1 < r.ratio then
      [⟨k ++ ".ramp.ratio", "must be within [0, 1], got " ++ r.ratio.text⟩] else []) ++
    (if r.ratio = 0 ∧ r.prefixes = [] ∧ r.hold = none then
      [⟨k ++ ".ramp", "needs a ratio or at least one prefix"⟩] else []) ++
    (match r.hold with
      | none => []
      | some h =>
        (if h.ratio < 0 ∨ 1 < h.ratio then
          [⟨k ++ ".ramp.hold.ratio", "must be within [0, 1], got " ++ h.ratio.text⟩]
        else []) ++
        (if h.ratio = 0 ∧ h.prefixes = [] then
          [⟨k ++ ".ramp.hold", "needs a ratio or at least one prefix"⟩] else [])) ++
    (match r.range with
      | none => []
      | some rg => if rg.hi < rg.lo then [⟨k ++ ".ramp.range", "from is after to"⟩] else [])

def Placement.validateBarrier (p : Placement) (k : String) : List FieldError :=
  match p.barrier with
  | none => []
  | some b =>
    match b.validate with
    | some msg => [⟨k ++ ".barrier", msg⟩]
    | none =>
      if b.kind = .source ∧ p.state ≠ .cutover then
        [⟨k ++ ".barrier.kind", "a source barrier is only written on a placement in " ++
          "CUTOVER; the placement is " ++ p.state.text⟩]
      else []

def tierModes : List String := ["native", "emulated"]

def Placement.validateTier (p : Placement) (clusters : StrMap Cluster) (k : String) :
    List FieldError :=
  if p.tier ≠ "" ∧ p.tier ∉ tierModes then oneOf (k ++ ".tier") p.tier tierModes
  else if p.tier = "" then
    (if p.cold ≠ "" then
      [⟨k ++ ".tier", "required when cold is set; one of " ++ joined "|" tierModes⟩] else []) ++
    (if p.lifecycle ≠ "" then [⟨k ++ ".tier", "required when lifecycle is set"⟩] else [])
  else if p.tier = "native" then
    (if p.cold ≠ "" then
      [⟨k ++ ".cold", "not allowed with tier: native; the backend owns its classes"⟩] else []) ++
    (match clusters[p.primary]? with
      | some cl =>
        if cl.storageClasses ≠ "native" then
          [⟨k ++ ".tier", "native requires clusters." ++ p.primary ++
            ".storage_classes: native"⟩] else []
      | none => [])
  else
    if p.cold = "" then [⟨k ++ ".cold", "required with tier: emulated"⟩]
    else if p.cold ∉ clusters then refErrors clusters (k ++ ".cold") p.cold
    else
      (match clusters[p.cold]? with
        | some cl =>
          if cl.storageClass = "" then
            [⟨k ++ ".cold", "cluster " ++ quoted p.cold ++ " has no storage_class; " ++
              "an emulated cold cluster must state one"⟩] else []
        | none => []) ++
      (if p.cold = p.primary then [⟨k ++ ".cold", "must differ from primary"⟩] else [])

def Placement.validateTarget (p : Placement) (clusters : StrMap Cluster) (k : String) :
    List FieldError :=
  if p.target = "" then []
  else if p.state ≠ .active then
    [⟨k ++ ".target", "only allowed in state ACTIVE; a move in progress names its clusters " ++
      "in primary and source"⟩]
  else if p.target = p.primary then [⟨k ++ ".target", "must differ from primary"⟩]
  else if p.target ∉ clusters then refErrors clusters (k ++ ".target") p.target
  else if p.target ∉ p.names then
    [⟨k ++ ".names", "missing backend bucket name for target cluster " ++ quoted p.target⟩]
  else []

def Placement.validateSource (p : Placement) (clusters : StrMap Cluster) (k : String) :
    List FieldError :=
  if p.state ≠ .active ∧ p.source = "" then
    [⟨k ++ ".source", "required in state " ++ p.state.text⟩]
  else if p.state = .active ∧ p.source ≠ "" then
    [⟨k ++ ".source", "not allowed in state ACTIVE"⟩]
  else if p.source ≠ "" then
    refErrors clusters (k ++ ".source") p.source ++
    (if p.source = p.primary then [⟨k ++ ".source", "must differ from primary"⟩] else [])
  else []

abbrev Used := List ((String × String) × String)

def claimBucket (key pk cluster name : String) (used : Used) : List FieldError × Used :=
  if validBucketName name = false then
    ([⟨key, quoted name ++ " is not a valid S3 bucket name"⟩], used)
  else
    match used.lookup (cluster, name) with
    | some other =>
      ([⟨key, "backend bucket " ++ quoted name ++ " on cluster " ++ quoted cluster ++
        " is already used by placement " ++ quoted other ++
        "; placements must never share a backend bucket"⟩], used)
    | none => ([], used ++ [((cluster, name), pk)])

def claimNames (clusters : StrMap Cluster) (k pk : String) :
    List (String × String) → Used → List FieldError × Used
  | [], used => ([], used)
  | (cl, name) :: rest, used =>
    let nk := k ++ ".names." ++ cl
    let claimed :=
      if name = "" then ([⟨nk, "backend bucket name is empty"⟩], used)
      else claimBucket nk pk cl name used
    let later := claimNames clusters k pk rest claimed.2
    (refErrors clusters nk cl ++ claimed.1 ++ later.1, later.2)

/-- Every leg's bucket of a spread placement, in order. -/
def claimLegs (clusters : StrMap Cluster) (k pk : String) :
    List (String × Leg) → Used → List FieldError × Used
  | [], used => ([], used)
  | (id, l) :: rest, used =>
    let lk := k ++ ".legs." ++ id
    let unknown := refErrors clusters (lk ++ ".cluster") l.cluster
    let claimed :=
      if unknown ≠ [] then (unknown, used)
      else claimBucket (lk ++ ".bucket") pk l.cluster l.bucket used
    let later := claimLegs clusters k pk rest claimed.2
    (claimed.1 ++ later.1, later.2)

def Placement.validateNames (p : Placement) (clusters : StrMap Cluster) (k : String) :
    List FieldError :=
  [p.primary, p.source, p.cold].flatMap fun cl =>
    if cl = "" ∨ cl ∉ clusters ∨ cl ∈ p.names then []
    else [⟨k ++ ".names", "missing backend bucket name for cluster " ++ quoted cl⟩]

def Placement.validateSpread (p : Placement) (clusters : StrMap Cluster) (k pk : String)
    (used : Used) : List FieldError × Used :=
  match p.checkV2 with
  | some msg => ([⟨k, msg⟩], used)
  | none =>
    let legs := claimLegs clusters k pk p.legs.toList used
    ((match p.checkSpread with
      | some msg => [⟨k, msg⟩]
      | none => []) ++
    (match p.move with
      | some m => validateRamp (k ++ ".move") p.state m.ramp
      | none => []) ++
    p.validateBarrier k ++
    (if p.primary ≠ "" ∨ p.source ≠ "" ∨ p.names ≠ ∅ ∨ p.ramp ≠ none ∨ p.cutover ≠ none then
      [⟨k, "a placement spread over legs names its buckets in legs, not in primary, source, " ++
        "names, ramp or cutover"⟩] else []) ++
    legs.1, legs.2)

def Placement.validatePlain (p : Placement) (clusters : StrMap Cluster) (k pk : String)
    (used : Used) : List FieldError × Used :=
  let names := claimNames clusters k pk p.names.toList used
  (refErrors clusters (k ++ ".primary") p.primary ++
    p.validateTarget clusters k ++
    (if p.cutover ≠ none ∧ p.state ≠ .cutover then
      [⟨k ++ ".cutover", "only allowed in state CUTOVER"⟩] else []) ++
    p.validateBarrier k ++
    p.validateSource clusters k ++
    validateRamp k p.state p.ramp ++
    names.1 ++
    p.validateNames clusters k ++
    p.validateTier clusters k, names.2)

def validateKey (tenants : StrMap Tenant) (k pk : String) : List FieldError :=
  match splitKey pk with
  | none => [⟨k, "key must be <tenant>/<bucket>"⟩]
  | some (tenant, bucket) =>
    if '/' ∈ bucket.toList then [⟨k, "key must be <tenant>/<bucket>"⟩]
    else
      (if tenant ∉ tenants then [⟨k, "unknown tenant " ++ quoted tenant⟩] else []) ++
      (if validBucketName bucket = false then
        [⟨k, quoted bucket ++ " is not a valid S3 bucket name"⟩] else [])

def validatePlacement (f : File) (pk : String) (p : Placement) (used : Used) :
    List FieldError × Used :=
  let k := "placements." ++ pk
  let checked :=
    if p.spread then p.validateSpread f.clusters k pk used
    else p.validatePlain f.clusters k pk used
  (validateKey f.tenants k pk ++ checked.1, checked.2)

def validatePlacements (f : File) : List (String × Placement) → Used → List FieldError
  | [], _ => []
  | (pk, p) :: rest, used =>
    let checked := validatePlacement f pk p used
    checked.1 ++ validatePlacements f rest checked.2

def validateLineage (f : File) : List FieldError :=
  (if schemaVersion < f.schema then
    [⟨"schema", "directory: written by a newer shunt (schema " ++ toString f.schema ++
      "; this build reads schema " ++ toString schemaVersion ++ "): upgrade this binary"⟩]
  else []) ++
  (if f.identity.isZero then []
    else match f.identity.validate with
      | some msg => [⟨"identity", msg⟩]
      | none => []) ++
  f.generations.toList.flatMap fun (res, g) =>
    if g ≤ 0 ∨ f.version < g then
      [⟨"generations." ++ res, "generation " ++ toString g ++ " outside 1..version " ++
        toString f.version⟩] else []

def validateTenants (f : File) : List FieldError :=
  f.tenants.toList.flatMap fun (name, t) =>
    let k := "tenants." ++ name
    (if validTenant name = false then
      [⟨k, "tenant names are 1-32 lowercase letters, digits, and hyphens, starting and ending " ++
        "with a letter or digit"⟩] else []) ++
    (if t.defaultCluster = "" then [⟨k ++ ".default_cluster", "required"⟩]
    else if t.defaultCluster ∉ f.clusters then
      [⟨k ++ ".default_cluster", "unknown cluster " ++ quoted t.defaultCluster⟩]
    else [])

def File.validate (f : File) : List FieldError :=
  (if f.version < 0 then [⟨"version", "must not be negative"⟩] else []) ++
  validateLineage f ++
  Config.validateClusters "clusters" f.clusters ++
  validateTenants f ++
  validatePlacements f f.placements.toList []

end Shunt.Directory
