/-
What the records of a state determine.  Each record says one part of the state, so two
states are the same when they agree at every key, and a list of changes that brings
each key to another state's value brings the whole state there.
-/

import Shunt.Cp.Records
import Shunt.Library.MapDiff

namespace Shunt.Cp

open Config (Cluster)
open Directory Std.ExtTreeMap
open Library (foldl_settles)

def SameAt (a b : State) : Slot → Prop
  | .version => a.version = b.version
  | .cluster name =>
    a.file.clusters[name]? = b.file.clusters[name]? ∧ a.secrets[name]? = b.secrets[name]?
  | .tenant name => a.file.tenants[name]? = b.file.tenants[name]?
  | .placement key => a.file.placements[key]? = b.file.placements[key]?
  | .credential accessKey => a.creds[accessKey]? = b.creds[accessKey]?
  | .schema => a.file.schema = b.file.schema
  | .identity => a.file.identity = b.file.identity
  | .generation resource => a.file.generations[resource]? = b.file.generations[resource]?
  | .change _ => True
  | .unknown _ => True

theorem SameAt.refl (a : State) (slot : Slot) : SameAt a a slot := by
  cases slot with
  | cluster => exact ⟨rfl, rfl⟩
  | change | unknown => trivial
  | _ => rfl

theorem versioned_ext {a b : State} (eq : ∀ slot, SameAt a b slot) : a.versioned = b.versioned := by
  have version : a.version = b.version := eq .version
  have clusters : a.file.clusters = b.file.clusters :=
    ext_getElem? fun name => (eq (.cluster name)).1
  have secrets : a.secrets = b.secrets :=
    ext_getElem? fun name => (eq (.cluster name)).2
  have tenants : a.file.tenants = b.file.tenants :=
    ext_getElem? fun name => eq (.tenant name)
  have placements : a.file.placements = b.file.placements :=
    ext_getElem? fun key => eq (.placement key)
  have creds : a.creds = b.creds :=
    ext_getElem? fun accessKey => eq (.credential accessKey)
  have schema : a.file.schema = b.file.schema := eq .schema
  have identity : a.file.identity = b.file.identity := eq .identity
  have generations : a.file.generations = b.file.generations :=
    ext_getElem? fun resource => eq (.generation resource)
  simp only [State.versioned, version, clusters, secrets, tenants, placements, creds, schema,
    identity, generations]

def Delta.slot : Delta → Slot
  | .version _ => .version
  | .cluster name _ => .cluster name
  | .tenant name _ => .tenant name
  | .placement key _ => .placement key
  | .credential accessKey _ => .credential accessKey
  | .schema _ => .schema
  | .identity _ => .identity
  | .generation resource _ => .generation resource
  | .nothing slot => slot

section

variable {V : Type} (m : StrMap V) {k other : String} (v : Option V)

@[simp] theorem getElem?_setEntry_self : (setEntry m k v)[k]? = v := by
  cases v with
  | none | some => simp [setEntry]

theorem getElem?_setEntry_other (ne : other ≠ k) : (setEntry m k v)[other]? = m[other]? := by
  cases v with
  | none => simp [setEntry, getElem?_erase, Ne.symm ne]
  | some => simp [setEntry, getElem?_insert, Ne.symm ne]

end

theorem SameAt.put_other {st other : State} {d : Delta} {slot : Slot} (away : slot ≠ d.slot)
    (eq : SameAt st other slot) : SameAt (st.put d) other slot := by
  cases d with
  | version => cases slot with
    | version => exact absurd rfl away
    | _ => exact eq
  | cluster name record => cases slot with
    | cluster n =>
      have ne : n ≠ name := fun equal => away (by rw [equal, Delta.slot])
      cases record with
      | none =>
        simpa [SameAt, State.put, getElem?_erase, Ne.symm ne] using eq
      | some record =>
        obtain ⟨c, secret⟩ := record
        cases secret with
        | none | some =>
          simpa [SameAt, State.put, getElem?_insert, Ne.symm ne] using eq
    | _ =>
      rcases record with _ | ⟨c, _ | plain⟩
      all_goals exact eq
  | tenant | placement | credential | generation =>
    cases slot
    all_goals first
      | exact eq
      | exact (getElem?_setEntry_other _ _ fun equal => away (by rw [equal, Delta.slot])).trans eq
  | schema => cases slot with
    | schema => exact absurd rfl away
    | _ => exact eq
  | identity => cases slot with
    | identity => exact absurd rfl away
    | _ => exact eq
  | nothing => exact eq

/-- What a record says is what a state holds at the record's key. -/
def Tells (d : Delta) (st : State) : Prop :=
  match d with
  | .version v => st.version = v
  | .cluster name none => st.file.clusters[name]? = none ∧ st.secrets[name]? = none
  | .cluster name (some (c, secret)) =>
    st.file.clusters[name]? = some c ∧ st.secrets[name]? = secret
  | .tenant name t => st.file.tenants[name]? = t
  | .placement key p => st.file.placements[key]? = p
  | .credential accessKey c => st.creds[accessKey]? = c
  | .schema n => st.file.schema = n
  | .identity i => st.file.identity = i
  | .generation resource g => st.file.generations[resource]? = g
  | .nothing slot => (∃ v, slot = .change v) ∨ ∃ key, slot = .unknown key

def Delta.keepsSecret : Delta → Option String
  | .cluster name (some (_, none)) => some name
  | _ => none

theorem Tells.settles {d : Delta} {st next : State} (told : Tells d next)
    (clear : ∀ name, d.keepsSecret = some name → st.secrets[name]? = none) :
    SameAt (st.put d) next d.slot := by
  cases d with
  | version | schema | identity => exact told.symm
  | cluster name record =>
    rcases record with _ | ⟨c, _ | plain⟩
    · exact ⟨by simp [State.put, told.1], by simp [State.put, told.2]⟩
    · refine ⟨by simp [State.put, told.1], ?_⟩
      rw [told.2]
      exact clear name rfl
    · exact ⟨by simp [State.put, told.1], by simp [State.put, told.2]⟩
  | tenant | placement | credential | generation =>
    exact (getElem?_setEntry_self _ _).trans told.symm
  | nothing =>
    rcases told with ⟨v, rfl⟩ | ⟨key, rfl⟩
    · trivial
    · trivial

theorem applyAll_eq (r : Reader) (st : State) (es : List Event) :
    r.applyAll st es = (es.mapM r.read).map (List.foldl State.put st) := by
  induction es generalizing st with
  | nil => rfl
  | cons e rest ih =>
    rw [Reader.applyAll, List.mapM_cons, Reader.apply]
    cases r.read e with
    | error => rfl
    | ok =>
      simp only [Except.map]
      rw [ih]
      cases rest.mapM r.read with
      | error | ok => rfl

theorem replay_settles {cur next : State} {ds : List Delta} (told : ∀ d ∈ ds, Tells d next)
    (clear : ∀ d ∈ ds, ∀ name, d.keepsSecret = some name → cur.secrets[name]? = none)
    (covers : ∀ slot, SameAt cur next slot ∨ ∃ d ∈ ds, d.slot = slot) :
    (ds.foldl State.put cur).versioned = next.versioned := by
  refine versioned_ext fun slot => ?_
  refine foldl_settles State.put Delta.slot (fun slot st => SameAt st cur slot)
    (fun slot st => SameAt st next slot) (fun st d slot away eq => eq.put_other away)
    (fun st d slot away eq => eq.put_other away) ?_
    (fun slot => .inl (SameAt.refl cur slot)) slot (covers slot)
  intro d mem st prev
  refine (told d mem).settles fun name keeps => ?_
  have slot : d.slot = .cluster name := by
    rcases d with _ | ⟨n, _ | ⟨c, _ | plain⟩⟩ | _ | _ | _ | _ | _ | _ | _ <;> cases keeps
    rfl
  rw [slot] at prev
  rcases prev with old | good
  · exact old.2.trans (clear d mem name keeps)
  have there := told d mem
  rcases d with _ | ⟨n, _ | ⟨c, _ | plain⟩⟩ | _ | _ | _ | _ | _ | _ | _ <;> cases keeps
  exact good.2.trans there.2

theorem replay_keeps {cur : State} {ds : List Delta} {name : String}
    (only : ∀ d ∈ ds, d.slot = .cluster name → d.keepsSecret = some name) :
    (ds.foldl State.put cur).secrets[name]? = cur.secrets[name]? := by
  induction ds generalizing cur with
  | nil => rfl
  | cons d rest ih =>
    rw [List.foldl_cons, ih fun later mem => only later (by simp [mem])]
    by_cases here : d.slot = .cluster name
    · have keeps := only d (by simp) here
      rcases d with _ | ⟨n, _ | ⟨c, _ | plain⟩⟩ | _ | _ | _ | _ | _ | _ | _ <;> cases keeps
      rfl
    · have eq := SameAt.put_other (d := d) (Ne.symm here) (SameAt.refl cur (.cluster name))
      exact eq.2

end Shunt.Cp
