/-
The operator mutations, as changes to a directory file in memory.  Every store of
the directory applies these, so a rule about what a change may do is here once.
-/

import Shunt.Directory.Validate

namespace Shunt.Directory

open Config (Barrier BarrierKind Cluster quoted joined)

inductive MutationError where
  | alreadyExists
  | notFound (text : String)
  | inUse (text : String)
  | conflict (text : String)
  | refused (text : String)
  | transition (e : TransitionError)
  deriving DecidableEq

def boolText (b : Bool) : String := if b then "true" else "false"

def cutPrefix (pre s : String) : Option String :=
  if pre.toList.isPrefixOf s.toList then some (String.ofList (s.toList.drop pre.toList.length))
  else none

theorem cutPrefix_append (pre s : String) : cutPrefix pre (pre ++ s) = some s := by
  simp [cutPrefix, String.toList_append]

theorem cutPrefix_other {pre other : String} (s : String)
    (apart : (pre.toList.isPrefixOf other.toList || other.toList.isPrefixOf pre.toList) = false) :
    cutPrefix pre (other ++ s) = none := by
  rw [Bool.or_eq_false_iff] at apart
  have ne : ¬ pre.toList <+: (other ++ s).toList := by
    intro starts
    rw [String.toList_append] at starts
    rcases List.prefix_or_prefix_of_prefix starts (List.prefix_append _ _) with lt | lt
    · simp [List.isPrefixOf_iff_prefix.mpr lt] at apart
    · simp [List.isPrefixOf_iff_prefix.mpr lt] at apart
  rw [cutPrefix, if_neg (fun starts => ne (List.isPrefixOf_iff_prefix.mp starts))]

def File.putPlacement (f : File) (k : String) (p : Placement) : File :=
  { f with placements := f.placements.insert k p }

def File.changePlacement (f : File) (k : String) (missing : MutationError)
    (change : Placement → Except MutationError Placement) : Except MutationError File :=
  match f.placements[k]? with
  | none => .error missing
  | some p =>
    match change p with
    | .error e => .error e
    | .ok q => .ok (f.putPlacement k q)

def noBucket (k : String) : MutationError := .notFound ("no bucket " ++ k ++ " in the directory")

def noCluster (name : String) : MutationError :=
  .notFound ("cluster " ++ quoted name ++ " is not in the directory")

def File.changeCluster (f : File) (name : String)
    (change : Cluster → Except MutationError Cluster) : Except MutationError File :=
  match f.clusters[name]? with
  | none => .error (noCluster name)
  | some c =>
    match change c with
    | .error e => .error e
    | .ok d => .ok { f with clusters := f.clusters.insert name d }

def newPlacement (cluster backend : String) (now : Int) : Placement :=
  { state := .active, primary := cluster, names := (∅ : StrMap String).insert cluster backend
    created := now }

def File.create (f : File) (tenant bucket cluster backend : String) (now : Int) :
    Except MutationError File :=
  let k := placementKey tenant bucket
  if k ∈ f.placements then .error .alreadyExists
  else if tenant ∉ f.tenants then
    .error (.notFound ("tenant " ++ quoted tenant ++ " is not in the directory"))
  else .ok (f.putPlacement k (newPlacement cluster backend now))

def File.delete (f : File) (tenant bucket : String) : Except MutationError File :=
  let k := placementKey tenant bucket
  match f.placements[k]? with
  | none => .error (.notFound "")
  | some p =>
    if p.state ≠ .active then
      .error (.conflict (k ++ " is " ++ p.state.text ++
        "; only an ACTIVE placement can be deleted"))
    else .ok { f with placements := f.placements.erase k }

def File.setTenantDefault (f : File) (tenant cluster : String) : Except MutationError File :=
  match f.tenants[tenant]? with
  | none => .error (.notFound ("tenant " ++ quoted tenant ++ " is not in the directory"))
  | some t =>
    if cluster ∉ f.clusters then .error (noCluster cluster)
    else if t.defaultCluster = cluster then
      .error (.conflict (tenant ++ " already defaults to " ++ cluster))
    else .ok { f with tenants := f.tenants.insert tenant { t with defaultCluster := cluster } }

def File.setState (f : File) (tenant bucket : String) (expected : State) (t : Transition) :
    Except MutationError File :=
  let k := placementKey tenant bucket
  f.changePlacement k (.notFound "") fun p =>
    if p.state ≠ expected then
      .error (.conflict (k ++ " is " ++ p.state.text ++ " in the directory, expected " ++
        expected.text))
    else (p.apply t).mapError .transition

def File.ensureTenant (f : File) (tenant cluster : String) : File :=
  if tenant ∈ f.tenants then f else { f with tenants := f.tenants.insert tenant ⟨cluster⟩ }

def File.adopt (f : File) (tenant bucket cluster backend : String) (now : Int) :
    Except MutationError File :=
  let k := placementKey tenant bucket
  if k ∈ f.placements then .error .alreadyExists
  else .ok ((f.ensureTenant tenant cluster).putPlacement k (newPlacement cluster backend now))

def evenOwners (legs : List String) : List Owner :=
  let width : Hash := UInt64.ofNat ((2 ^ 64 - 1) / legs.length)
  legs.zipIdx.map fun (leg, i) =>
    ⟨UInt64.ofNat i * width,
      if i + 1 = legs.length then 0xffffffffffffffff else UInt64.ofNat (i + 1) * width - 1, leg⟩

def legsByCluster : List Leg → StrMap Leg → Except String (StrMap Leg)
  | [], legs => .ok legs
  | l :: rest, legs =>
    if l.cluster ∈ legs then .error l.cluster
    else legsByCluster rest (legs.insert l.cluster l)

def File.createSpread (f : File) (tenant bucket : String) (legs : List Leg) (now : Int) :
    Except MutationError File :=
  let k := placementKey tenant bucket
  if k ∈ f.placements then .error .alreadyExists
  else if legs.length < 2 ∨ maxLegs < legs.length then
    .error (.conflict ("a spread bucket has 2 to " ++ toString maxLegs ++ " legs, not " ++
      toString legs.length))
  else
    match legsByCluster legs ∅ with
    | .error cluster => .error (.conflict ("cluster " ++ cluster ++ " is named twice; " ++
        "a new bucket spreads over different clusters, since splitting one cluster's keys " ++
        "over two of its buckets gains nothing"))
    | .ok byID =>
      .ok ((f.ensureTenant tenant ((legs.head?.map Leg.cluster).getD "")).putPlacement k
        { state := .active, legs := byID, owners := evenOwners (legs.map Leg.cluster)
          keyHash := rampHash, created := now })

def File.setTarget (f : File) (tenant bucket cluster backend : String) :
    Except MutationError File :=
  let k := placementKey tenant bucket
  f.changePlacement k (.notFound "") fun p =>
    if p.state ≠ .active then
      .error (.conflict (k ++ " is " ++ p.state.text ++ "; expand prepares an ACTIVE placement"))
    else if p.spread then
      .error (.conflict (k ++ " is spread over " ++ toString p.legs.size ++
        " legs; expanding it is ADR-0018 N3"))
    else if p.target ≠ "" ∧ p.target ≠ cluster then
      .error (.conflict (k ++ " is already expanded to " ++ p.target))
    else .ok { p with target := cluster, names := p.names.insert cluster backend }

def Placement.idleLegs (p : Placement) : List String :=
  p.legs.keys.filter fun id =>
    (match p.move with
      | none => true
      | some m => decide (id ≠ m.source) && decide (id ≠ m.dest)) && !p.ownsKeys id

/-- The prepared destination of a placement forgotten: its target, or the legs of a
spread one that own nothing. -/
def File.clearTarget (f : File) (tenant bucket : String) : Except MutationError File :=
  let k := placementKey tenant bucket
  f.changePlacement k (.notFound "") fun p =>
    if p.state ≠ .active then
      .error (.conflict (k ++ " is " ++ p.state.text ++
        "; a target can only be cleared before the first step"))
    else if p.spread then
      if p.idleLegs = [] then
        .error (.conflict ("every leg of " ++ k ++ " owns keys; there is no idle leg to retire"))
      else
        .ok { p with legs := p.idleLegs.foldl (fun legs id => legs.erase id) p.legs }.settle
    else if p.target = "" then .error (.conflict (k ++ " has no target to clear"))
    else
      .ok { p with
        target := ""
        names := if p.target ≠ p.cold then p.names.erase p.target else p.names }

def longerParent (pre : Key) (best : Option PrefixRule) (rule : PrefixRule) : Option PrefixRule :=
  if rule.pre = pre then best else longerRule pre best rule

def Placement.parentTable (p : Placement) (pre : Key) : List Owner :=
  match p.prefixes.foldl (longerParent pre) none with
  | none => p.owners
  | some rule => rule.owners

def insertRule (rule : PrefixRule) : List PrefixRule → List PrefixRule
  | [] => [rule]
  | head :: rest =>
    if rule.pre < head.pre then rule :: head :: rest else head :: insertRule rule rest

/-- A placement with a scope for the keys under a prefix, owned as they are now. -/
def Placement.carved (p : Placement) (pre : Key) : Placement :=
  let base :=
    if p.spread then p
    else
      { p with
        legs := (∅ : StrMap Leg).insert p.primary ⟨p.primary, nameIn p.names p.primary⟩
        owners := [⟨fullRange.lo, fullRange.hi, p.primary⟩], primary := "", names := ∅ }
  { base with
    keyHash := rampHash
    prefixes := insertRule ⟨pre, base.parentTable pre⟩ base.prefixes }

def File.carve (f : File) (tenant bucket : String) (pre : Key) : Except MutationError File :=
  let k := placementKey tenant bucket
  f.changePlacement k (.notFound "") fun p =>
    if p.state ≠ .active ∨ p.move ≠ none then
      .error (.refused (k ++ " is " ++ p.state.text ++
        "; prefix rules change only at rest, with no move in progress"))
    else if pre = [] then
      .error (.refused "a prefix is required; the empty prefix is every key")
    else if maxPrefixLen < pre.length then
      .error (.refused ("a prefix has at most " ++ toString maxPrefixLen ++ " bytes"))
    else if maxPrefixRules ≤ p.prefixes.length then
      .error (.refused (k ++ " has " ++ toString maxPrefixRules ++
        " prefix rules, the most a bucket may have (ADR-0020)"))
    else if (p.prefixes.any fun rule => rule.pre == pre) = true then
      .error (.refused (k ++ " already has a rule for " ++ quoted (keyText pre)))
    else if p.spread = false ∧
        (p.target ≠ "" ∨ p.cold ≠ "" ∨ p.tier ≠ "" ∨ p.lifecycle ≠ "") then
      .error (.refused (k ++ " has a target, cold tier or lifecycle recorded; " ++
        "prefix rules need a bucket with none (clear the target first)"))
    else .ok (p.carved pre)

/-- A rule whose table is its parent's goes, and its keys keep their owners. -/
def File.merge (f : File) (tenant bucket : String) (pre : Key) : Except MutationError File :=
  let k := placementKey tenant bucket
  f.changePlacement k (.notFound "") fun p =>
    match p.prefixes.find? fun rule => rule.pre == pre with
    | none => .error (.refused (k ++ " has no rule for " ++ quoted (keyText pre)))
    | some rule =>
      if p.state ≠ .active ∨ p.move ≠ none then
        .error (.refused (k ++ " is " ++ p.state.text ++
          "; prefix rules change only at rest, with no move in progress"))
      else if rule.owners ≠ p.parentTable pre then
        .error (.refused ("the keys under " ++ quoted (keyText pre) ++
          " are owned differently from the rest of their scope; " ++
          "move them to match before merging the rule"))
      else .ok { p with prefixes := p.prefixes.eraseP fun rule => rule.pre == pre }.settle

/-- The maintenance switch of a placement or a cluster, with the drain barrier of the
change that set it. -/
structure Switch where
  readOnly : Bool
  rejectWrites : Bool
  barrier : Option Barrier

def Placement.switch (p : Placement) : Switch := ⟨p.readOnly, p.rejectWrites, p.barrier⟩

def Placement.withSwitch (p : Placement) (s : Switch) : Placement :=
  { p with readOnly := s.readOnly, rejectWrites := s.rejectWrites, barrier := s.barrier }

def clusterSwitch (c : Cluster) : Switch := ⟨c.readOnly, c.rejectWrites, c.barrier⟩

def withClusterSwitch (c : Cluster) (s : Switch) : Cluster :=
  { c with readOnly := s.readOnly, rejectWrites := s.rejectWrites, barrier := s.barrier }

def Switch.carries (s : Switch) (id : String) : Bool := s.barrier.any fun b => b.id == id

def Switch.notCarried (what id : String) : MutationError :=
  .conflict (what ++ " does not carry barrier " ++ id)

def Switch.set (s : Switch) (what : String) (readOnly reject : Bool) (barrier : String) :
    Except MutationError Switch :=
  if readOnly = false ∧ barrier ≠ "" ∧ s.carries barrier = false then
    .error (notCarried what barrier)
  else if s.readOnly = readOnly ∧ s.rejectWrites = (readOnly && reject) ∧
      (barrier = "" ∨ s.barrier ≠ none) then
    .error (.conflict (what ++ " read-only is already " ++ boolText readOnly))
  else if readOnly = true ∧ barrier ≠ "" ∧ s.barrier ≠ none ∧ s.carries barrier = false then
    .error (.conflict (what ++ " carries barrier " ++ (s.barrier.map Barrier.id).getD "" ++
      " of another change"))
  else
    .ok ⟨readOnly, readOnly && reject,
      if readOnly = true ∧ barrier ≠ "" then some ⟨barrier, .mutations⟩ else none⟩

def Switch.release (s : Switch) (what id : String) (readOnly reject : Bool) :
    Except MutationError Switch :=
  if s.carries id = false then .error (notCarried what id)
  else .ok ⟨readOnly, readOnly && reject, none⟩

def Switch.clear (s : Switch) (what id : String) : Except MutationError Switch :=
  if s.carries id = false then .error (notCarried what id) else .ok { s with barrier := none }

def File.setPlacementReadOnly (f : File) (tenant bucket : String) (readOnly reject : Bool)
    (barrier : String) : Except MutationError File :=
  let k := placementKey tenant bucket
  f.changePlacement k (noBucket k) fun p =>
    (p.switch.set k readOnly reject barrier).map p.withSwitch

def File.setClusterReadOnly (f : File) (name : String) (readOnly reject : Bool)
    (barrier : String) : Except MutationError File :=
  f.changeCluster name fun c =>
    ((clusterSwitch c).set ("cluster " ++ name) readOnly reject barrier).map (withClusterSwitch c)

def File.setBarrier (f : File) (tenant bucket : String) (b : Barrier) : Except MutationError File :=
  let k := placementKey tenant bucket
  f.changePlacement k (noBucket k) fun p =>
    match p.barrier with
    | none => .ok { p with barrier := some b }
    | some other =>
      if other = b then .error (.conflict (k ++ " already carries barrier " ++ b.id))
      else .error (.conflict (k ++ " carries barrier " ++ other.id ++ " of another change"))

def File.clearBarrier (f : File) (tenant bucket id : String) : Except MutationError File :=
  let k := placementKey tenant bucket
  f.changePlacement k (noBucket k) fun p => (p.switch.clear k id).map p.withSwitch

def File.clearClusterBarrier (f : File) (name id : String) : Except MutationError File :=
  f.changeCluster name fun c =>
    ((clusterSwitch c).clear ("cluster " ++ name) id).map (withClusterSwitch c)

def File.releaseReadOnly (f : File) (resource id : String) (readOnly reject : Bool) :
    Except MutationError File :=
  match cutPrefix "cluster:" resource with
  | some name =>
    f.changeCluster name fun c =>
      ((clusterSwitch c).release ("cluster " ++ name) id readOnly reject).map
        (withClusterSwitch c)
  | none =>
    let k := (cutPrefix "placement:" resource).getD resource
    f.changePlacement k (noBucket k) fun p =>
      (p.switch.release k id readOnly reject).map p.withSwitch

def File.setPlacementWatch (f : File) (tenant bucket : String) (watch : Bool) :
    Except MutationError File :=
  let k := placementKey tenant bucket
  f.changePlacement k (noBucket k) fun p =>
    if p.watch = watch then
      .error (.conflict (k ++ " watch is already " ++ boolText watch))
    else .ok { p with watch := watch }

def File.putCluster (f : File) (name : String) (c : Cluster) : File :=
  { f with clusters := Config.applyClusterDefaults (f.clusters.insert name c) }

def Placement.names_ (p : Placement) (cluster : String) : Bool :=
  p.primary == cluster || p.source == cluster || p.target == cluster || p.cold == cluster ||
    p.names.contains cluster || p.legs.toList.any fun (_, l) => l.cluster == cluster

def File.references (f : File) (cluster : String) : List String :=
  ((f.tenants.toList.filter fun (_, t) => t.defaultCluster == cluster).map
    fun (name, _) => "tenants." ++ name ++ ".default_cluster") ++
  ((f.placements.toList.filter fun (_, p) => p.names_ cluster).map
    fun (k, _) => "placements." ++ k)

def File.removeCluster (f : File) (name : String) : Except MutationError File :=
  if name ∉ f.clusters then .error (noCluster name)
  else if f.references name ≠ [] then
    .error (.inUse ("cluster " ++ quoted name ++ " is still referenced by " ++
      joined ", " (f.references name)))
  else .ok { f with clusters := f.clusters.erase name }

/-- A change of a directory file that touches no cluster definition. -/
inductive Mutation where
  | create (tenant bucket cluster backend : String)
  | delete (tenant bucket : String)
  | setState (tenant bucket : String) (expected : State) (t : Transition)
  | setPlacementReadOnly (tenant bucket : String) (readOnly reject : Bool) (barrier : String)
  | setBarrier (tenant bucket : String) (b : Barrier)
  | clearBarrier (resource id : String)
  | releaseReadOnly (resource id : String) (readOnly reject : Bool)
  | setPlacementWatch (tenant bucket : String) (watch : Bool)
  | setClusterReadOnly (name : String) (readOnly reject : Bool) (barrier : String)
  | adopt (tenant bucket cluster backend : String)
  | createSpread (tenant bucket : String) (legs : List Leg)
  | carve (tenant bucket : String) (pre : Key)
  | merge (tenant bucket : String) (pre : Key)
  | clearTarget (tenant bucket : String)
  | setTarget (tenant bucket cluster backend : String)
  | setTenantDefault (tenant cluster : String)

def File.clearResource (f : File) (resource id : String) : Except MutationError File :=
  match cutPrefix "cluster:" resource with
  | some name => f.clearClusterBarrier name id
  | none =>
    match splitKey ((cutPrefix "placement:" resource).getD resource) with
    | none => .error (.notFound (quoted resource ++ " is not a placement or cluster resource"))
    | some (tenant, bucket) => f.clearBarrier tenant bucket id

def Mutation.run (now : Int) (f : File) : Mutation → Except MutationError File
  | .create tenant bucket cluster backend => f.create tenant bucket cluster backend now
  | .delete tenant bucket => f.delete tenant bucket
  | .setState tenant bucket expected t => f.setState tenant bucket expected t
  | .setPlacementReadOnly tenant bucket readOnly reject barrier =>
    f.setPlacementReadOnly tenant bucket readOnly reject barrier
  | .setBarrier tenant bucket b => f.setBarrier tenant bucket b
  | .clearBarrier resource id => f.clearResource resource id
  | .releaseReadOnly resource id readOnly reject => f.releaseReadOnly resource id readOnly reject
  | .setPlacementWatch tenant bucket watch => f.setPlacementWatch tenant bucket watch
  | .setClusterReadOnly name readOnly reject barrier =>
    f.setClusterReadOnly name readOnly reject barrier
  | .adopt tenant bucket cluster backend => f.adopt tenant bucket cluster backend now
  | .createSpread tenant bucket legs => f.createSpread tenant bucket legs now
  | .carve tenant bucket pre => f.carve tenant bucket pre
  | .merge tenant bucket pre => f.merge tenant bucket pre
  | .clearTarget tenant bucket => f.clearTarget tenant bucket
  | .setTarget tenant bucket cluster backend => f.setTarget tenant bucket cluster backend
  | .setTenantDefault tenant cluster => f.setTenantDefault tenant cluster

/-- What a mutation makes of the placement it is about. -/
inductive Changed (m : Mutation) (p : Placement) : Placement → Prop where
  | stepped {tenant bucket expected t q}
      (is_ : m = .setState tenant bucket expected t) (res : p.apply t = .ok q) : Changed m p q
  | switched (s : Switch) : Changed m p (p.withSwitch s)
  | watched (watch : Bool) : Changed m p { p with watch := watch }
  | carved {pre} (rests : p.state = .active ∧ p.move = none)
      (fresh : ∀ rule ∈ p.prefixes, rule.pre ≠ pre) : Changed m p (p.carved pre)
  | merged {rule} (rests : p.state = .active ∧ p.move = none)
      (mem : rule ∈ p.prefixes) (eq : rule.owners = p.parentTable rule.pre) :
      Changed m p { p with prefixes := p.prefixes.eraseP fun r => r.pre == rule.pre }.settle
  | targeted {cluster backend} (active : p.state = .active) (plain : p.spread = false) :
      Changed m p { p with target := cluster, names := p.names.insert cluster backend }
  | retired (active : p.state = .active) (spread : p.spread = true) :
      Changed m p { p with legs := p.idleLegs.foldl (fun legs id => legs.erase id) p.legs }.settle
  | untargeted (active : p.state = .active) (plain : p.spread = false) :
      Changed m p { p with
        target := ""
        names := if p.target ≠ p.cold then p.names.erase p.target else p.names }

/-- What a mutation makes of a directory: a placement opened, changed or deleted, or none of
them touched. -/
inductive Mutated (now : Int) (f : File) (m : Mutation) : File → Prop where
  | opened {g k cluster backend} (gone : k ∉ f.placements)
      (placements : g.placements = f.placements.insert k (newPlacement cluster backend now))
      (clusters : g.clusters = f.clusters) : Mutated now f m g
  | spread {g k legs ids} (gone : k ∉ f.placements) (several : 2 ≤ ids.length)
      (placements : g.placements = f.placements.insert k
        { state := .active, legs := legs, owners := evenOwners ids
          keyHash := rampHash, created := now })
      (clusters : g.clusters = f.clusters) : Mutated now f m g
  | changed {k p q} (got : f.placements[k]? = some p)
      (change : Changed m p q) : Mutated now f m (f.putPlacement k q)
  | deleted {k tenant bucket} (is_ : m = .delete tenant bucket) :
      Mutated now f m { f with placements := f.placements.erase k }
  | beside {g} (placements : g.placements = f.placements)
      (clusters : ∀ name ∈ f.clusters, name ∈ g.clusters) : Mutated now f m g

section

variable {f g : File} {m : Mutation} {now : Int} {k name : String}

theorem changePlacement_ok {missing : MutationError}
    {change : Placement → Except MutationError Placement}
    (res : f.changePlacement k missing change = .ok g) :
    ∃ p q, f.placements[k]? = some p ∧ change p = .ok q ∧ g = f.putPlacement k q := by
  unfold File.changePlacement at res
  split at res
  · cases res
  rename_i p got
  split at res
  · cases res
  rename_i q changed
  cases res
  exact ⟨p, q, got, changed, rfl⟩

theorem setState_ok {tenant bucket : String} {expected : State} {t : Transition}
    (res : f.setState tenant bucket expected t = .ok g) :
    ∃ p q, f.placements[placementKey tenant bucket]? = some p ∧ p.apply t = .ok q ∧
      g = f.putPlacement (placementKey tenant bucket) q := by
  obtain ⟨p, q, got, changed, eq⟩ := changePlacement_ok res
  split at changed
  · cases changed
  cases applied : p.apply t with
  | error => simp [applied, Except.mapError] at changed
  | ok =>
    simp only [applied, Except.mapError, Except.ok.injEq] at changed
    exact ⟨p, q, got, by rw [applied, changed], eq⟩

theorem changePlacement_mutated {missing : MutationError}
    {change : Placement → Except MutationError Placement}
    (res : f.changePlacement k missing change = .ok g)
    (each : ∀ p q, change p = .ok q → Changed m p q) : Mutated now f m g := by
  obtain ⟨p, q, got, changed, rfl⟩ := changePlacement_ok res
  exact .changed got (each p q changed)

theorem changeCluster_mutated {change : Cluster → Except MutationError Cluster}
    (res : f.changeCluster name change = .ok g) : Mutated now f m g := by
  unfold File.changeCluster at res
  iterate 2
    split at res
    · cases res
  · cases res
    exact .beside rfl fun _ has => Std.ExtTreeMap.mem_insert.mpr (.inr has)

theorem map_switched {change : Placement → Except MutationError Switch} (p q : Placement)
    (res : (change p).map p.withSwitch = .ok q) : Changed m p q := by
  cases made : change p with
  | error =>
    rw [made] at res
    cases res
  | ok s =>
    rw [made] at res
    cases res
    exact .switched s

theorem ensureTenant_frame (tenant cluster : String) :
    (f.ensureTenant tenant cluster).placements = f.placements ∧
      (f.ensureTenant tenant cluster).clusters = f.clusters := by
  unfold File.ensureTenant
  split <;> exact ⟨rfl, rfl⟩

theorem Mutation.mutated (res : m.run now f = .ok g) : Mutated now f m g := by
  cases m with
  | create =>
    simp only [Mutation.run, File.create] at res
    repeat' split at res
    all_goals cases res
    rename_i gone _
    exact .opened gone rfl rfl
  | adopt tenant bucket cluster =>
    obtain ⟨placements, clusters⟩ := @ensureTenant_frame f tenant cluster
    simp only [Mutation.run, File.adopt] at res
    split at res
    · cases res
    rename_i gone
    cases res
    exact .opened gone (by rw [← placements]; rfl) clusters
  | createSpread tenant bucket legs =>
    obtain ⟨placements, clusters⟩ :=
      @ensureTenant_frame f tenant ((legs.head?.map Leg.cluster).getD "")
    simp only [Mutation.run, File.createSpread] at res
    repeat' split at res
    all_goals cases res
    rename_i gone several _ _ _
    have count : 2 ≤ (legs.map Leg.cluster).length := by
      rw [List.length_map]
      omega
    exact .spread gone count (by rw [← placements]; rfl) clusters
  | delete =>
    simp only [Mutation.run, File.delete] at res
    repeat' split at res
    all_goals cases res
    exact .deleted rfl
  | setTenantDefault =>
    simp only [Mutation.run, File.setTenantDefault] at res
    repeat' split at res
    all_goals cases res
    exact .beside rfl fun _ has => has
  | setClusterReadOnly => exact changeCluster_mutated res
  | setPlacementReadOnly => exact changePlacement_mutated res map_switched
  | clearBarrier =>
    simp only [Mutation.run, File.clearResource] at res
    split at res
    · exact changeCluster_mutated res
    split at res
    · cases res
    · exact changePlacement_mutated res map_switched
  | releaseReadOnly =>
    simp only [Mutation.run, File.releaseReadOnly] at res
    split at res
    · exact changeCluster_mutated res
    · exact changePlacement_mutated res map_switched
  | setState tenant bucket expected t =>
    obtain ⟨p, q, got, applied, rfl⟩ := setState_ok res
    exact .changed got (.stepped rfl applied)
  | setBarrier tenant bucket b =>
    refine changePlacement_mutated res fun p q changed => ?_
    repeat' split at changed
    all_goals cases changed
    exact .switched { p.switch with barrier := some b }
  | setPlacementWatch =>
    refine changePlacement_mutated res fun p q changed => ?_
    split at changed
    all_goals cases changed
    exact .watched _
  | setTarget =>
    refine changePlacement_mutated res fun p q changed => ?_
    repeat' split at changed
    all_goals cases changed
    rename_i active plain _
    exact .targeted (not_not.mp active) (Bool.not_eq_true _ ▸ plain)
  | clearTarget =>
    refine changePlacement_mutated res fun p q changed => ?_
    split at changed
    · cases changed
    rename_i active
    split at changed
    · rename_i spread
      split at changed
      all_goals cases changed
      exact .retired (not_not.mp active) spread
    rename_i plain
    split at changed
    all_goals cases changed
    exact .untargeted (not_not.mp active) (Bool.not_eq_true _ ▸ plain)
  | carve tenant bucket pre =>
    refine changePlacement_mutated res fun p q changed => ?_
    repeat' split at changed
    all_goals cases changed
    rename_i rests _ _ _ fresh _
    refine .carved (by simpa using rests) fun rule mem eq => fresh ?_
    exact List.any_eq_true.mpr ⟨rule, mem, by simp [eq]⟩
  | merge tenant bucket pre =>
    refine changePlacement_mutated res fun p q changed => ?_
    split at changed
    · cases changed
    rename_i rule at_
    repeat' split at changed
    all_goals cases changed
    rename_i rests eq
    have named : rule.pre = pre := by simpa using List.find?_some at_
    subst named
    exact .merged (by simpa using rests) (List.mem_of_find?_eq_some at_) (not_not.mp eq)

end

end Shunt.Directory
