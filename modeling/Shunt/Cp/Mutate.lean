/-
Writing the directory: a change is applied to a copy of the state a node holds, the
difference is written as one transaction, and the transaction is made only if the
version in etcd is still the one the node held.
-/

import Shunt.Cp.Records
import Shunt.Library.MapDiff

namespace Shunt.Cp

open Config (Cluster FieldError quoted)
open Directory
open Library (mapDiff)

def secretRef (name : String) : String := "control:" ++ name

def defaultTenant : String := "default"

inductive StoreError where
  | mutation (e : MutationError)
  | refused (text : String)
  | duplicateKey (text : String)
  | unknownKey (accessKey : String)
  | identity (text : String)
  | invalid (errors : List FieldError)
  | prepare (text : String)
  deriving DecidableEq

def mergeKeys (held c : Credential) : Except StoreError Credential :=
  let tenant := if c.tenant = "" then defaultTenant else c.tenant
  if held.tenant ≠ tenant then .error (.duplicateKey ("for tenant " ++ held.tenant))
  else if held.secret ≠ c.secret then .error (.duplicateKey "with a different secret")
  else if held.buckets = [] ∨ c.buckets = [] then .ok { held with buckets := [] }
  else
    .ok { held with
      buckets := c.buckets.foldl (fun all b => if b ∈ all then all else all ++ [b]) held.buckets }

inductive Call where
  | change (m : Mutation)
  | putCluster (name : String) (c : Cluster) (secret : String)
  | removeCluster (name : String)
  | addKey (c : Credential)
  | removeKey (accessKey : String)
  | upgrade

/-- What the function of a call made of a state.  A call that is retried goes on with
the values its function left. -/
inductive Ran where
  | unchanged
  | changed (st : State) (again : Call)

/-- The checks a call makes before it touches any state. -/
def Call.precheck : Call → Option StoreError
  | .putCluster name c secret =>
    if secret ≠ "" ∧ c.credentials.secretRef ≠ secretRef name then
      some (.refused ("a cluster whose secret the control plane stores must name it as " ++
        secretRef name ++ ", not " ++ quoted c.credentials.secretRef))
    else none
  | .addKey c =>
    if c.accessKey = "" ∨ c.secret = "" then
      some (.refused "a client key needs an access key and a secret")
    else none
  | _ => none

def Call.given : Call → Call
  | .addKey c => .addKey (if c.tenant = "" then { c with tenant := defaultTenant } else c)
  | call => call

def State.putSecret (st : State) (name : String) (c : Cluster) (secret : String) :
    Except StoreError (StrMap String) :=
  if secret ≠ "" then .ok (st.secrets.insert name secret)
  else if c.credentials.secretRef = secretRef name then
    if name ∈ st.secrets then .ok st.secrets
    else .error (.refused ("cluster " ++ name ++ " names " ++ secretRef name ++
      " but no secret is stored for it; give the secret"))
  else .ok (st.secrets.erase name)

def Call.run (now : Int) (st : State) : Call → Except StoreError Ran
  | .change m =>
    match m.run now st.file with
    | .error e => .error (.mutation e)
    | .ok f => .ok (.changed { st with file := f } (.change m))
  | .putCluster name c secret =>
    match st.putSecret name c secret with
    | .error e => .error e
    | .ok secrets =>
      .ok (.changed { st with file := st.file.putCluster name c, secrets := secrets }
        (.putCluster name c secret))
  | .removeCluster name =>
    match st.file.removeCluster name with
    | .error e => .error (.mutation e)
    | .ok f =>
      .ok (.changed { st with file := f, secrets := st.secrets.erase name }
        (.removeCluster name))
  | .addKey c =>
    match st.creds[c.accessKey]? with
    | none =>
      .ok (.changed { st with creds := st.creds.insert c.accessKey c } (.addKey c))
    | some held =>
      match mergeKeys held c with
      | .error e => .error e
      | .ok merged =>
        if merged.buckets = held.buckets then .ok .unchanged
        else
          -- the merged key takes the place of the one given
          .ok (.changed { st with creds := st.creds.insert merged.accessKey merged }
            (.addKey merged))
  | .removeKey accessKey =>
    if accessKey ∈ st.creds then
      .ok (.changed { st with creds := st.creds.erase accessKey } (.removeKey accessKey))
    else .error (.unknownKey accessKey)
  | .upgrade =>
    if st.file.identity.isZero then .ok (.changed st .upgrade) else .ok .unchanged

def Call.op : Call → String
  | .change m =>
    match m with
    | .create .. => "create"
    | .delete .. => "delete"
    | .setState .. => "set-state"
    | .setPlacementReadOnly .. => "placement-read-only"
    | .setBarrier .. => "set-barrier"
    | .clearBarrier .. => "clear-barrier"
    | .releaseReadOnly .. => "release-read-only"
    | .setPlacementWatch .. => "placement-watch"
    | .setClusterReadOnly .. => "cluster-read-only"
    | .adopt .. => "adopt"
    | .createSpread .. => "create-spread"
    | .carve .. => "carve"
    | .merge .. => "merge"
    | .clearTarget .. => "clear-target"
    | .setTarget .. => "set-target"
    | .setTenantDefault .. => "set-default"
  | .putCluster .. => "cluster-put"
  | .removeCluster .. => "cluster-remove"
  | .addKey .. => "key-add"
  | .removeKey .. => "key-remove"
  | .upgrade => "schema-upgrade"

def resourceKey (resource : String) : String :=
  match cutPrefix "cluster:" resource with
  | some name => "clusters/" ++ name
  | none => (cutPrefix "placement:" resource).getD resource

def Call.key : Call → String
  | .change m =>
    match m with
    | .create tenant bucket .. => placementKey tenant bucket
    | .delete tenant bucket => placementKey tenant bucket
    | .setState tenant bucket .. => placementKey tenant bucket
    | .setPlacementReadOnly tenant bucket .. => placementKey tenant bucket
    | .setBarrier tenant bucket .. => placementKey tenant bucket
    | .clearBarrier resource _ => resourceKey resource
    | .releaseReadOnly resource .. => resourceKey resource
    | .setPlacementWatch tenant bucket .. => placementKey tenant bucket
    | .setClusterReadOnly name .. => "clusters/" ++ name
    | .adopt tenant bucket .. => placementKey tenant bucket
    | .createSpread tenant bucket .. => placementKey tenant bucket
    | .carve tenant bucket .. => placementKey tenant bucket
    | .merge tenant bucket .. => placementKey tenant bucket
    | .clearTarget tenant bucket => placementKey tenant bucket
    | .setTarget tenant bucket .. => placementKey tenant bucket
    | .setTenantDefault tenant _ => tenant
  | .putCluster name .. => "clusters/" ++ name
  | .removeCluster name => "clusters/" ++ name
  | .addKey c => "credentials/" ++ c.accessKey
  | .removeKey accessKey => "credentials/" ++ accessKey
  | .upgrade => ""

/-- What a write takes from outside: the clock, the identity drawn for a directory that
has none, the nonces of its seals, the clusters' check, and who asks. -/
structure Env where
  now : Int
  drawn : Except String Identity
  nonce : String → Nat
  prepare : State → Option String
  actor : String

def secretIn (secrets : StrMap String) (name : String) : String := secrets.getD name ""

def rotated (cur next : State) : List String :=
  next.file.clusters.keys.flatMap fun name =>
    if secretIn next.secrets name ≠ secretIn cur.secrets name then
      [clusterResource name, secretResource name]
    else []

def State.heldGenerations (st : State) (gens : StrMap Int) : StrMap Int :=
  st.file.clusters.keys.foldl (fun gens name =>
    if name ∈ st.secrets then gens else gens.erase (secretResource name)) gens

/-- The candidate of a write: the changed copy as the next version, stamped and checked. -/
def candidate (env : Env) (cur copy : State) : Except StoreError State :=
  let next := { copy with version := cur.version + 1 }.versioned
  match cur.file.stamp next.file env.drawn (rotated cur next) with
  | .error e => .error (.identity e)
  | .ok f =>
    let stamped := { next with
      file := { f with generations := next.heldGenerations f.generations } }
    if stamped.file.validate ≠ [] then .error (.invalid stamped.file.validate)
    else
      match env.prepare stamped with
      | some e => .error (.prepare e)
      | none => .ok stamped

def sealedCluster (cipher : Cipher) (env : Env) (next : State) (name : String) (c : Cluster) :
    ClusterRecord :=
  ⟨c, match next.secrets[name]? with
    | none => ""
    | some secret => cipher.encrypt (env.nonce (kClusters ++ name)) secret⟩

def sealedKey (cipher : Cipher) (env : Env) (accessKey : String) (c : Credential) :
    CredentialRecord :=
  ⟨c.tenant, c.buckets, cipher.encrypt (env.nonce (kCredentials ++ accessKey)) c.secret⟩

/-! The difference of two states, one kind of record at a time, every secret sealed. -/

def diffClusters (cipher : Cipher) (env : Env) (cur next : State) : List Event :=
  mapDiff (fun name c => .put (kClusters ++ name) (.cluster (sealedCluster cipher env next name c)))
    (fun name => .delete (kClusters ++ name))
    (fun name old c => decide (old = c) &&
      decide (secretIn cur.secrets name = secretIn next.secrets name))
    cur.file.clusters next.file.clusters

def diffTenants (cur next : File) : List Event :=
  mapDiff (fun name t => .put (kTenants ++ name) (.tenant t))
    (fun name => .delete (kTenants ++ name)) (fun _ old t => decide (old = t))
    cur.tenants next.tenants

def diffPlacements (cur next : File) : List Event :=
  mapDiff (fun k p => .put (kPlacements ++ k) (.placement p))
    (fun k => .delete (kPlacements ++ k)) (fun _ old p => decide (old = p))
    cur.placements next.placements

def diffGenerations (cur next : File) : List Event :=
  mapDiff (fun res g => .put (kGenerations ++ res) (.number g))
    (fun res => .delete (kGenerations ++ res)) (fun _ old g => decide (old = g))
    cur.generations next.generations

def diffCredentials (cipher : Cipher) (env : Env) (cur next : State) : List Event :=
  mapDiff (fun ak c => .put (kCredentials ++ ak) (.credential (sealedKey cipher env ak c)))
    (fun ak => .delete (kCredentials ++ ak)) (fun _ old c => decide (old = c))
    cur.creds next.creds

def diff (cipher : Cipher) (env : Env) (cur next : State) : List Event :=
  diffClusters cipher env cur next ++ diffTenants cur.file next.file ++
  diffPlacements cur.file next.file ++
  (if next.file.schema ≠ cur.file.schema then [.put kSchema (.number next.file.schema)] else []) ++
  (if next.file.identity ≠ cur.file.identity then
    [.put kIdentity (.identity next.file.identity)] else []) ++
  diffGenerations cur.file next.file ++ diffCredentials cipher env cur next

def changeRetention : Int := 10000

def auditRecord (env : Env) (call : Call) (cur next : State) : Change :=
  let base : Change :=
    { time := env.now, actor := env.actor, op := call.op, key := call.key
      version := next.version }
  match cutPrefix "clusters/" call.key with
  | some name =>
    { base with
      clusterBefore := cur.file.clusters[name]?, clusterAfter := next.file.clusters[name]? }
  | none =>
    { base with
      before := cur.file.placements[call.key]?, after := next.file.placements[call.key]? }

def writes (cipher : Cipher) (env : Env) (call : Call) (cur next : State) : List Event :=
  diff cipher env cur next ++
  [.put kVersion (.number next.version),
    .put (kChanges ++ toString next.version) (.change (auditRecord env call cur next))] ++
  (if 0 < next.version - changeRetention then
    [.delete (kChanges ++ toString (next.version - changeRetention))] else [])

inductive Attempt where
  | unchanged
  | commit (next : State) (ops : List Event) (again : Call)

def attempt (cipher : Cipher) (env : Env) (cur : State) (call : Call) : Except StoreError Attempt :=
  match call.run env.now cur with
  | .error e => .error e
  | .ok .unchanged => .ok .unchanged
  | .ok (.changed copy again) =>
    match candidate env cur copy with
    | .error e => .error e
    | .ok next => .ok (.commit next (writes cipher env call cur next) again)

def committed (cipher : Cipher) (env : Env) (st : State) (call : Call) :
    Option (State × List Event) :=
  match attempt cipher env st call with
  | .ok (.commit next ops _) => some (next, ops)
  | _ => none

def KV.write (kv : KV) : Event → KV
  | .put key value => kv.insert key value
  | .delete key => kv.erase key

def KV.commit (kv : KV) (ops : List Event) : KV := ops.foldl KV.write kv

def KV.compare (kv : KV) (version : Int) : Bool :=
  if version = 0 then decide (kv[kVersion]? = none)
  else decide (kv[kVersion]? = some (.number version))

end Shunt.Cp
