/-
The lineage of a directory: what a write stamps on the file it produced, before the
file is committed.
-/

import Shunt.Directory.Validate

namespace Shunt.Directory

def placementResource (key : String) : String := "placement:" ++ key

def clusterResource (name : String) : String := "cluster:" ++ name

def secretResource (name : String) : String := "secret:" ++ name

def tenantResource (name : String) : String := "tenant:" ++ name

def File.generation (f : File) (resource : String) : Int := f.generations.getD resource 0

def stampResource (prev : File) (version : Int) (gens : StrMap Int) (res : String)
    (eq : Bool) : StrMap Int :=
  if eq = false then gens.insert res version
  else if 0 < prev.generation res then gens.insert res (prev.generation res)
  else gens

def carrySecret (prev : File) (gens : StrMap Int) (name : String) : StrMap Int :=
  if 0 < prev.generation (secretResource name) then
    gens.insert (secretResource name) (prev.generation (secretResource name))
  else gens

def stampedGenerations (prev next : File) (diff : List String) : StrMap Int :=
  let placements := next.placements.toList.foldl (fun gens (k, p) =>
    stampResource prev next.version gens (placementResource k)
      (decide (prev.placements[k]? = some p))) ∅
  let clusters := next.clusters.toList.foldl (fun gens (name, c) =>
    stampResource prev next.version gens (clusterResource name)
      (decide (prev.clusters[name]? = some c))) placements
  let tenants := next.tenants.toList.foldl (fun gens (name, t) =>
    stampResource prev next.version gens (tenantResource name)
      (decide (prev.tenants[name]? = some t))) clusters
  let secrets := next.clusters.keys.foldl (carrySecret prev) tenants
  diff.foldl (fun gens res => gens.insert res next.version) secrets

def File.stamp (prev next : File) (drawn : Except String Identity) (diff : List String) :
    Except String File :=
  match (if prev.identity.isZero then drawn else .ok prev.identity) with
  | .error e => .error e
  | .ok identity =>
    .ok { next with
      schema := schemaVersion, identity := identity
      generations := stampedGenerations prev next diff }

end Shunt.Directory
