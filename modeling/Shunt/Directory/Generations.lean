/-
What Stamp leaves on the file it prepares: the generation of each placement, cluster,
tenant and cluster secret, read key by key.
-/

import Shunt.Directory.Mutations
import Shunt.Directory.Stamp
import Shunt.Library.MapFold

namespace Shunt.Directory

open Library List Std.ExtTreeMap

inductive Resource where
  | placement (key : String)
  | cluster (name : String)
  | tenant (name : String)
deriving DecidableEq

def Resource.key : Resource → String
  | .placement key => placementResource key
  | .cluster name => clusterResource name
  | .tenant name => tenantResource name

theorem append_injective {pre s t : String} (eq : pre ++ s = pre ++ t) : s = t := by
  have cut := congrArg (cutPrefix pre) eq
  rw [cutPrefix_append, cutPrefix_append] at cut
  exact Option.some.inj cut

theorem append_apart {pre other s t : String}
    (apart : (pre.toList.isPrefixOf other.toList || other.toList.isPrefixOf pre.toList) = false) :
    pre ++ s ≠ other ++ t := by
  intro eq
  have cut := congrArg (cutPrefix pre) eq
  rw [cutPrefix_append, cutPrefix_other t apart] at cut
  cases cut

theorem placementResource_injective (a b : String)
    (eq : placementResource a = placementResource b) : a = b :=
  append_injective eq

theorem clusterResource_injective (a b : String) (eq : clusterResource a = clusterResource b) :
    a = b :=
  append_injective eq

theorem tenantResource_injective (a b : String) (eq : tenantResource a = tenantResource b) :
    a = b :=
  append_injective eq

section

variable {k name other : String}

theorem placement_ne_cluster : placementResource k ≠ clusterResource name :=
  append_apart (by decide)

theorem placement_ne_tenant : placementResource k ≠ tenantResource name :=
  append_apart (by decide)

theorem placement_ne_secret : placementResource k ≠ secretResource name :=
  append_apart (by decide)

theorem cluster_ne_tenant : clusterResource name ≠ tenantResource other :=
  append_apart (by decide)

theorem cluster_ne_secret : clusterResource name ≠ secretResource other :=
  append_apart (by decide)

theorem tenant_ne_secret : tenantResource name ≠ secretResource other :=
  append_apart (by decide)

end

section

variable {prev next : File} {version : Int} {gens : StrMap Int} {res k name : String} {eq : Bool}
  {diff : List String}
variable {resource : String → String}

def File.carried (prev : File) (res : String) : Option Int :=
  if 0 < prev.generation res then some (prev.generation res) else none

theorem getD_carried (nonneg : 0 ≤ prev.generation res) :
    (prev.carried res).getD 0 = prev.generation res := by
  unfold File.carried
  split
  · rfl
  · rw [Option.getD_none]
    omega

theorem getElem?_stampResource : (stampResource prev version gens res eq)[res]? =
      if eq = false then some version else (prev.carried res).or gens[res]? := by
  unfold stampResource File.carried
  split
  · exact getElem?_insert_self
  split
  · exact getElem?_insert_self
  · rfl

theorem getElem?_stampResource_other (other : k ≠ res) :
    (stampResource prev version gens res eq)[k]? = gens[k]? := by
  have apart : compare res k ≠ .eq := fun equal => other (Std.compare_eq_iff_eq.mp equal).symm
  unfold stampResource
  split
  · rw [Std.ExtTreeMap.getElem?_insert, if_neg apart]
  split
  · rw [Std.ExtTreeMap.getElem?_insert, if_neg apart]
  · rfl

def stampAll {V : Type} [DecidableEq V] (prev : File) (version : Int) (resource : String → String)
    (before post : StrMap V) (gens : StrMap Int) : StrMap Int :=
  post.toList.foldl (fun gens entry =>
    stampResource prev version gens (resource entry.1)
      (decide (before[entry.1]? = some entry.2))) gens

theorem stampedGenerations_eq : stampedGenerations prev next diff =
      diff.foldl (fun gens res => gens.insert res next.version)
        (next.clusters.keys.foldl (carrySecret prev)
          (stampAll prev next.version tenantResource prev.tenants next.tenants
            (stampAll prev next.version clusterResource prev.clusters next.clusters
              (stampAll prev next.version placementResource prev.placements next.placements ∅)))) :=
  rfl

theorem distinct_entries {V : Type} {m : StrMap V}
    (injective : ∀ a b, resource a = resource b → a = b) :
    m.toList.Pairwise fun a b => resource a.1 ≠ resource b.1 := by
  refine distinct_keys_toList.imp ?_
  intro a b apart equal
  exact apart (Std.compare_eq_iff_eq.mpr (injective _ _ equal))

def stampedAs {V : Type} [DecidableEq V] (before post : StrMap V) (name : String)
    (carried : Option Int) (version : Int) : Option Int :=
  match post[name]? with
  | none => none
  | some v => if before[name]? = some v then carried else some version

theorem stampAll_other {V : Type} [DecidableEq V] {before post : StrMap V}
    (other : ∀ name, k ≠ resource name) :
    (stampAll prev version resource before post gens)[k]? = gens[k]? :=
  foldl_elsewhere (fun entry : String × V => resource entry.1)
    (fun _ _ _ away => getElem?_stampResource_other away) fun entry _ => other entry.1

theorem stampAll_at {V : Type} [DecidableEq V] {before post : StrMap V}
    (injective : ∀ a b, resource a = resource b → a = b) (fresh : gens[resource name]? = none) :
    (stampAll prev version resource before post gens)[resource name]? =
      stampedAs before post name (prev.carried (resource name)) version := by
  unfold stampAll stampedAs
  cases got : post[name]? with
  | none =>
    rw [foldl_elsewhere (fun entry : String × V => resource entry.1)
      (fun _ _ _ away => getElem?_stampResource_other away)]
    · exact fresh
    intro entry mem eq
    have at_ := mem_toList_iff_getElem?_eq_some.mp mem
    rw [← injective _ _ eq, got] at at_
    cases at_
  | some v =>
    have mem : (name, v) ∈ post.toList := mem_toList_iff_getElem?_eq_some.mpr got
    rw [foldl_at (a := (name, v)) (fun entry : String × V => resource entry.1)
      (fun _ _ _ away => getElem?_stampResource_other away) ?_ (distinct_entries injective) mem,
      getElem?_stampResource, fresh]
    · by_cases kept : before[name]? = some v
      · simp [kept]
      · simp [kept]
    · intro m m' entry equal
      rw [getElem?_stampResource, getElem?_stampResource, equal]

theorem getElem?_carrySecret_other (other : k ≠ secretResource name) :
    (carrySecret prev gens name)[k]? = gens[k]? := by
  unfold carrySecret
  split
  · rw [Std.ExtTreeMap.getElem?_insert,
      if_neg fun equal => other (Std.compare_eq_iff_eq.mp equal).symm]
  · rfl

theorem getElem?_carrySecret : (carrySecret prev gens name)[secretResource name]? =
      (prev.carried (secretResource name)).or gens[secretResource name]? := by
  unfold carrySecret File.carried
  split
  · exact getElem?_insert_self
  · rfl

theorem carrySecrets_other {names : List String} (other : ∀ name, k ≠ secretResource name) :
    (names.foldl (carrySecret prev) gens)[k]? = gens[k]? :=
  foldl_elsewhere secretResource (fun _ _ _ away => getElem?_carrySecret_other away)
    fun name _ => other name

theorem carrySecrets_at {V : Type} {clusters : StrMap V}
    (fresh : gens[secretResource name]? = none) :
    (clusters.keys.foldl (carrySecret prev) gens)[secretResource name]? =
      if name ∈ clusters then prev.carried (secretResource name) else none := by
  by_cases isIn : name ∈ clusters
  · have mem : name ∈ clusters.keys := Std.ExtTreeMap.mem_keys.mpr isIn
    have apart : clusters.keys.Pairwise fun a b => secretResource a ≠ secretResource b := by
      refine distinct_keys.imp ?_
      intro a b ne equal
      exact ne (Std.compare_eq_iff_eq.mpr (append_injective equal))
    rw [if_pos isIn, foldl_at secretResource
      (fun _ _ _ away => getElem?_carrySecret_other away) ?_ apart mem, getElem?_carrySecret,
      fresh, Option.or_none]
    intro m m' a equal
    rw [getElem?_carrySecret, getElem?_carrySecret, equal]
  · rw [if_neg isIn, foldl_elsewhere secretResource
      (fun _ _ _ away => getElem?_carrySecret_other away)]
    · exact fresh
    intro other mem equal
    rw [append_injective equal] at isIn
    exact isIn (Std.ExtTreeMap.mem_keys.mp mem)

theorem stampChanged : (diff.foldl (fun gens res => gens.insert res version) gens)[res]? =
      if res ∈ diff then some version else gens[res]? := by
  induction diff generalizing gens with
  | nil => rfl
  | cons first rest ih =>
    rw [foldl_cons, ih]
    by_cases later : res ∈ rest
    · rw [if_pos later, if_pos (mem_cons_of_mem first later)]
    rw [if_neg later, Std.ExtTreeMap.getElem?_insert]
    by_cases here : first = res
    · rw [if_pos (Std.compare_eq_iff_eq.mpr here), if_pos (by rw [here]; exact mem_cons_self)]
    rw [if_neg fun equal => here (Std.compare_eq_iff_eq.mp equal), if_neg]
    intro mem
    exact (mem_cons.mp mem).elim (fun eq => here eq.symm) later

theorem stamped_placement (unnamed : placementResource k ∉ diff) :
    (stampedGenerations prev next diff)[placementResource k]? =
      stampedAs prev.placements next.placements k (prev.carried (placementResource k))
        next.version := by
  rw [stampedGenerations_eq, stampChanged, if_neg unnamed,
    carrySecrets_other fun _ => placement_ne_secret, stampAll_other fun _ => placement_ne_tenant,
    stampAll_other fun _ => placement_ne_cluster]
  exact stampAll_at (V := Placement) placementResource_injective getElem?_empty

theorem stamped_cluster : (stampedGenerations prev next diff)[clusterResource name]? =
      if clusterResource name ∈ diff then some next.version else
        stampedAs prev.clusters next.clusters name (prev.carried (clusterResource name))
          next.version := by
  rw [stampedGenerations_eq, stampChanged, carrySecrets_other fun _ => cluster_ne_secret,
    stampAll_other fun _ => cluster_ne_tenant, stampAll_at clusterResource_injective]
  exact (stampAll_other fun _ => placement_ne_cluster.symm).trans getElem?_empty

theorem stamped_tenant (unnamed : tenantResource name ∉ diff) :
    (stampedGenerations prev next diff)[tenantResource name]? =
      stampedAs prev.tenants next.tenants name (prev.carried (tenantResource name))
        next.version := by
  rw [stampedGenerations_eq, stampChanged, if_neg unnamed,
    carrySecrets_other fun _ => tenant_ne_secret]
  refine stampAll_at (V := Tenant) tenantResource_injective ?_
  rw [stampAll_other fun _ => cluster_ne_tenant.symm,
    stampAll_other fun _ => placement_ne_tenant.symm]
  exact getElem?_empty

theorem stamped_secret : (stampedGenerations prev next diff)[secretResource name]? =
      if secretResource name ∈ diff then some next.version
      else if name ∈ next.clusters then prev.carried (secretResource name) else none := by
  rw [stampedGenerations_eq, stampChanged, carrySecrets_at]
  rw [stampAll_other fun _ => tenant_ne_secret.symm, stampAll_other fun _ => cluster_ne_secret.symm,
    stampAll_other fun _ => placement_ne_secret.symm]
  exact getElem?_empty

end

end Shunt.Directory
