/-
SetState over the whole directory: after a transition that succeeds the validator accepts
the directory again, and one that fails leaves it as it was.
-/

import Shunt.Directory.MoveValid
import Shunt.Directory.Mutations

namespace Shunt.Directory

open Std.ExtTreeMap

open Config (Barrier Cluster)

def File.after (f : File) : Except MutationError File → File
  | .ok g => g
  | .error _ => f

/-- What the validator checks of a placement after a transition and the transition does not:
the barrier's id, the tier of the primary, the hash a move's range is split by. -/
structure Transition.Fits (clusters : StrMap Cluster) (p : Placement) (t : Transition) : Prop where
  barrier : t.BarrierNamed
  tier : TierFits clusters p (p.nextPrimary t)
  hashed : p.HashedEnd

/-- No other placement of the directory holds a backend bucket. -/
def File.Free (f : File) (k : String) (b : String × String) : Prop :=
  ∀ e ∈ f.placements.toList, e.1 ≠ k → b ∉ e.2.buckets

instance (f : File) (k : String) (b : String × String) : Decidable (f.Free k b) :=
  inferInstanceAs (Decidable (∀ e ∈ f.placements.toList, e.1 ≠ k → b ∉ e.2.buckets))

/-- An accepted directory as it is stored: its placements carry no view of a move, and its
cluster names follow the cluster name rule. -/
structure File.Accepted (f : File) : Prop where
  valid : f.validate = []
  roles : ∀ e ∈ f.placements.toList, e.2.legClusters = ∅
  ruled : ∀ cl ∈ f.clusters.keys, legID cl = true

section

variable {f g : File} {tenant bucket : String} {expected : State} {t : Transition}

theorem putPlacement_accepted {k : String} {p q : Placement} (ok : f.validate = [])
    (roles : ∀ (k : String) (p : Placement), f.placements[k]? = some p → p.legClusters = ∅)
    (got : f.placements[k]? = some p) (sound : q.Sound f.clusters) (holds : HoldsOnly p t q)
    (free : t.name ≠ "" → f.Free k (p.newBucket t)) : (f.putPlacement k q).validate = [] := by
  obtain ⟨frame, each, apart⟩ := (validate_iff roles).mp ok
  have look : ∀ (other : String) (r : Placement),
      (f.putPlacement k q).placements[other]? = some r →
        other = k ∧ r = q ∨ other ≠ k ∧ f.placements[other]? = some r := by
    intro other r at_
    simp only [File.putPlacement, Std.ExtTreeMap.getElem?_insert, Std.compare_eq_iff_eq] at at_
    split at at_
    · rename_i eq
      cases at_
      exact .inl ⟨eq.symm, rfl⟩
    · rename_i differ
      exact .inr ⟨fun eq => differ eq.symm, at_⟩
  have disjoint : ∀ (other : String) (r : Placement), other ≠ k →
      f.placements[other]? = some r → ∀ b ∈ q.buckets, b ∉ r.buckets := by
    intro other r differ at_ b isIn again
    rcases holds b isIn with prev | ⟨given, eq⟩
    · exact apart k other p r got at_ (Ne.symm differ) b prev again
    rw [eq] at again
    exact free given (other, r) (mem_toList_iff_getElem?_eq_some.mpr at_) differ again
  rw [validate_iff]
  · refine ⟨frame, ?_, ?_⟩
    · intro other r at_
      rcases look other r at_ with ⟨rfl, rfl⟩ | ⟨differ, prev⟩
      · exact ⟨(each other p got).1, sound⟩
      · exact each other r prev
    intro a b left right atA atB differ
    rcases look a left atA with ⟨rfl, rfl⟩ | ⟨awayA, beforeA⟩
    · rcases look b right atB with ⟨rfl, rfl⟩ | ⟨awayB, beforeB⟩
      · exact absurd rfl differ
      · exact disjoint b right awayB beforeB
    rcases look b right atB with ⟨rfl, rfl⟩ | ⟨awayB, beforeB⟩
    · exact fun c isIn again => disjoint a left awayA beforeA c again isIn
    · exact apart a b left right beforeA beforeB differ
  · intro other r at_
    rcases look other r at_ with ⟨-, rfl⟩ | ⟨-, prev⟩
    · exact sound.roles
    · exact roles other r prev

/-- A transition of a placement keeps the directory accepted, or leaves it alone. -/
theorem setState_preserves (ok : f.Accepted) (named : t.Named f.clusters)
    (free : ∀ p, f.placements[placementKey tenant bucket]? = some p → t.name ≠ "" →
      f.Free (placementKey tenant bucket) (p.newBucket t))
    (fits : ∀ p, f.placements[placementKey tenant bucket]? = some p → t.Fits f.clusters p) :
    (∀ g, f.setState tenant bucket expected t = .ok g → g.validate = []) ∧
      ∀ e, f.setState tenant bucket expected t = .error e →
        f.after (f.setState tenant bucket expected t) = f := by
  refine ⟨fun g res => ?_, fun e fails => by rw [fails]; rfl⟩
  have roles : ∀ (k : String) (p : Placement), f.placements[k]? = some p → p.legClusters = ∅ :=
    fun k p got =>
      ok.roles (k, p) (mem_toList_iff_getElem?_eq_some.mpr got)
  obtain ⟨p, q, got, applied, rfl⟩ := setState_ok res
  have prev := ((validate_iff roles).mp ok.valid).2.1 _ p got
  have fitting := fits p got
  obtain ⟨sound, holds⟩ := apply_sound prev.2
    (fun cl has => ok.ruled cl (Std.ExtTreeMap.mem_keys.mpr has)) named
    fitting.barrier fitting.tier fitting.hashed applied
  exact putPlacement_accepted ok.valid roles got sound holds (free p got)

end

def hotStore : Cluster :=
  { type := "minio", scheme := "http", region := "us-east-1", endpointMode := "static"
    endpoints := ["hot:9000"], credentials := ⟨"AKIA", "env:HOT"⟩ }

def vaultStore : Cluster :=
  { hotStore with endpoints := ["vault:9000"], storageClass := "GLACIER", access := "instant" }

def tieredBucket : Placement :=
  { newPlacement "hot" "acme-films" 0 with
    names := ((∅ : StrMap String).insert "hot" "acme-films").insert "vault" "acme-films-cold"
    tier := "emulated", cold := "vault" }

def halfMoved : Placement :=
  { state := .cutover
    legs := ((∅ : StrMap Leg).insert "hot" ⟨"hot", "acme-books"⟩).insert "vault"
      ⟨"vault", "acme-books"⟩
    owners := [⟨fullRange.lo, fullRange.hi, "hot"⟩]
    move := some
      { scope := [], range := ⟨0, 0x7fffffffffffffff⟩, source := "hot", dest := "vault"
        ramp := none, cutover := none } }

def tieredFile : File :=
  { clusters := ((∅ : StrMap Cluster).insert "hot" hotStore).insert "vault" vaultStore
    tenants := (∅ : StrMap Tenant).insert "acme" ⟨"hot"⟩
    placements := (((∅ : StrMap Placement).insert "acme/films" tieredBucket).insert "acme/books"
      halfMoved).insert "acme/notes" (newPlacement "hot" "acme-notes" 0) }

theorem tieredFile_accepted : tieredFile.Accepted :=
  ⟨by decide, by decide, by decide⟩

def toVault : Transition :=
  { toState := some .ramping, target := "vault", name := "acme-notes", ratio := .num (1 / 10) }

/-- The notes go to the vault and the directory stays accepted. -/
theorem notes_preserved : (tieredFile.setState "acme" "notes" .active toVault).isOk = true ∧
    ∀ g, tieredFile.setState "acme" "notes" .active toVault = .ok g → g.validate = [] := by
  refine ⟨by decide +kernel, ?_⟩
  have got : tieredFile.placements[placementKey "acme" "notes"]? =
      some (newPlacement "hot" "acme-notes" 0) := by decide
  refine (setState_preserves tieredFile_accepted ⟨by decide, by decide,
    by decide +kernel⟩ ?_ ?_).1
  · intro p eq
    rw [got] at eq
    cases eq
    decide
  intro p eq
  rw [got] at eq
  cases eq
  refine ⟨nofun, ⟨fun native => ?_, fun emulated => ?_⟩, nofun⟩
  · exact absurd native (by decide)
  · exact absurd emulated (by decide)

theorem exists_ok {ε α : Type} {r : Except ε α} {P : α → Prop} [DecidablePred P]
    (checked : (r.toOption.any fun a => decide (P a)) = true) : ∃ a, r = .ok a ∧ P a := by
  cases r with
  | error => cases checked
  | ok a => exact ⟨a, rfl, of_decide_eq_true checked⟩

/-- Without the conditions: the films leave for their own cold cluster, the notes are held
under an id no barrier may have, and the books end with two owners and no hash. -/
theorem tiered_step_invalid : tieredFile.Accepted ∧
    ∀ s ∈ [("films", State.active, { toVault with name := "acme-films" }),
        ("notes", .active, { toVault with hold := true, barrier := "no id" }),
        ("books", .cutover, { toState := some .active })],
      Transition.Named tieredFile.clusters s.2.2 ∧
      (∀ p, tieredFile.placements[placementKey "acme" s.1]? = some p → s.2.2.name ≠ "" →
        tieredFile.Free (placementKey "acme" s.1) (p.newBucket s.2.2)) ∧
      ∃ g, tieredFile.setState "acme" s.1 s.2.1 s.2.2 = .ok g ∧ g.validate ≠ [] := by
  have films : tieredFile.placements[placementKey "acme" "films"]? = some tieredBucket := by
    decide
  have notes : tieredFile.placements[placementKey "acme" "notes"]? =
      some (newPlacement "hot" "acme-notes" 0) := by decide
  refine ⟨tieredFile_accepted, fun s mem => ?_⟩
  simp only [List.mem_cons, List.not_mem_nil, or_false] at mem
  rcases mem with rfl | rfl | rfl
  · refine ⟨⟨by decide +kernel, by decide +kernel, by decide +kernel⟩, fun p eq => ?_,
      exists_ok (by decide +kernel)⟩
    rw [films] at eq
    cases eq
    decide
  · refine ⟨⟨by decide +kernel, by decide +kernel, by decide +kernel⟩, fun p eq => ?_,
      exists_ok (by decide +kernel)⟩
    rw [notes] at eq
    cases eq
    decide
  · exact ⟨⟨by decide, by decide, by decide⟩,
      fun p eq given => absurd rfl given, exists_ok (by decide)⟩

end Shunt.Directory
