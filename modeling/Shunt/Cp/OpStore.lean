/-
The operation records as etcd holds them, and the transactions the control nodes make
on them: the create with its reservation, the update with its release, the release of a
left reservation, the history trim.  A record's key has the revision it was created at
and the one of its last write; of a reservation and of an idempotency key only the
presence and the value are compared.
-/

import Shunt.Control.Operation

namespace Shunt.Cp

open List

open Directory (Identity clusterResource)
open Control (Operation Scope isPlacement)

structure OpEntry where
  createRev : Nat
  modRev : Nat
  op : Operation

structure OpStore where
  rev : Nat := 0
  ops : StrMap OpEntry := ∅
  scopes : StrMap String := ∅
  /-- The revision of the last placement reservation. -/
  scopeRev : Nat := 0
  idem : StrMap String := ∅
  identity : Option Identity := none
  generations : StrMap Int := ∅

structure Seen where
  idem : Option String
  scope : Option String
  identity : Option Identity
  generation : Option Int
  cluster : Option (String × String)

inductive CreateError where
  | exists_ (id : String)
  | capacity (limit : Nat)
  | scopeBusy (resource owner held : String)
  | lineage (current have_ : Identity)
  | generation (resource : String) (expected current : Int)
  | replay (existing : Operation)
  | idempotencyConflict (owner : String)
  | unavailable

/-- A record the history trim deletes, or the idempotency key of one. -/
inductive Drop where
  | record (id : String)
  | key (index : String)
deriving DecidableEq

namespace OpStore

def reserveCompares (st : OpStore) (op : Operation) (sc : Scope) (bound : Option Nat) : Bool :=
  st.scopes[sc.resource]?.isNone &&
    (decide (op.identity = {}) || decide (st.identity = some op.identity)) &&
    (if sc.generation = 0 then st.generations[sc.resource]?.isNone
      else decide (st.generations[sc.resource]? = some sc.generation)) &&
    match sc.cluster with
    | some _ => bound.any fun revision => decide (st.scopeRev ≤ revision)
    | none => sc.clusters.all fun c => st.scopes[clusterResource c]?.isNone

def createCompares (st : OpStore) (op : Operation) (bound : Option Nat) : Bool :=
  st.ops[op.id]?.isNone &&
    (decide (op.requestID = "") || st.idem[op.idempotencyIndex]?.isNone) &&
    match op.scope with
    | some sc => st.reserveCompares op sc bound
    | none => true

def create (st : OpStore) (op : Operation) : OpStore :=
  { st with
    rev := st.rev + 1
    ops := st.ops.insert op.id ⟨st.rev + 1, st.rev + 1, op⟩
    idem := if op.requestID = "" then st.idem else st.idem.insert op.idempotencyIndex op.id
    scopes :=
      match op.scope with
      | some sc => st.scopes.insert sc.resource op.id
      | none => st.scopes
    scopeRev :=
      match op.scope with
      | some sc => if sc.cluster.isSome then st.scopeRev else st.rev + 1
      | none => st.scopeRev }

def readBack (st : OpStore) (op : Operation) : Seen :=
  { idem := if op.requestID = "" then none else st.idem[op.idempotencyIndex]?
    scope := op.scope.bind fun sc => st.scopes[sc.resource]?
    identity := if op.identity = {} then none else st.identity
    generation := op.scope.bind fun sc => st.generations[sc.resource]?
    cluster := op.scope.bind fun sc =>
      if sc.cluster.isSome then none
      else sc.clusters.findSome? fun c => st.scopes[clusterResource c]?.map (c, ·) }

def placementOwners (st : OpStore) : List String :=
  (st.scopes.toList.filter fun entry => isPlacement entry.1).map Prod.snd

def freed (st : OpStore) (resource owner : String) : StrMap String :=
  if st.scopes[resource]? = some owner then st.scopes.erase resource else st.scopes

def update (st : OpStore) (entry : OpEntry) (op : Operation) : OpStore :=
  { st with
    rev := st.rev + 1
    ops := st.ops.insert op.id ⟨entry.createRev, st.rev + 1, op⟩
    scopes :=
      match op.scope with
      | some sc => if op.terminal then st.freed sc.resource op.id else st.scopes
      | none => st.scopes }

def release (st : OpStore) (resource owner : String) : OpStore :=
  { st with rev := st.rev + 1, scopes := st.freed resource owner }

def drop (st : OpStore) : Drop → OpStore
  | .record id => { st with ops := st.ops.erase id }
  | .key index => { st with idem := st.idem.erase index }

def dropBatch (st : OpStore) (batch : List Drop) : OpStore :=
  { batch.foldl drop st with rev := st.rev + 1 }

end OpStore

/-- Why a create's transaction failed, past its idempotency key. -/
inductive Refusal where
  | retry
  | busy (owner held : String)
  | error (e : CreateError)

def refusal (op : Operation) (seen : Seen) : Refusal :=
  match op.scope with
  | none => .error (.exists_ op.id)
  | some sc =>
    match seen.scope with
    | some owner => .busy owner ""
    | none =>
      match seen.identity.filter fun cur => cur ≠ op.identity with
      | some cur => .error (.lineage cur op.identity)
      | none =>
        if seen.generation.getD 0 ≠ sc.generation then
          .error (.generation sc.resource sc.generation (seen.generation.getD 0))
        else
          match seen.cluster with
          | some (c, owner) => .busy owner (clusterResource c)
          | none => .retry

def replay (op existing : Operation) : CreateError :=
  if existing.intentDigest ≠ op.intentDigest then .idempotencyConflict existing.id
  else .replay existing

def trimDrops (limit now : Nat) : Nat → List (String × Operation) → List Drop
  | _, [] => []
  | kept, (id, op) :: rest =>
    if kept ≤ limit then []
    else if op.prunable now then
      .record id :: ((if op.requestID = "" then [] else [.key op.idempotencyIndex]) ++
        trimDrops limit now (kept - 1) rest)
    else trimDrops limit now kept rest

def batches (size : Nat) (drops : List Drop) : List (List Drop) :=
  if drops = [] ∨ size = 0 then [] else drops.take size :: batches size (drops.drop size)
termination_by drops.length
decreasing_by
  rename_i some_
  rw [not_or] at some_
  rw [length_drop]
  have pos := length_pos_iff.mpr some_.1
  omega

def maxTxnOps : Nat := 128

section

variable {V : Type} {m : StrMap V} {k x : String} {v : V}

theorem insert_at : (m.insert k v)[x]? = if x = k then some v else m[x]? := by
  simp only [Std.ExtTreeMap.getElem?_insert, Std.compare_eq_iff_eq, @eq_comm _ k]

theorem erase_at : (m.erase k)[x]? = if x = k then none else m[x]? := by
  simp only [Std.ExtTreeMap.getElem?_erase, Std.compare_eq_iff_eq, @eq_comm _ k]

end

section

variable {st : OpStore} {op : Operation} {entry : OpEntry} {resource owner id x : String}
  {batch : List Drop}

theorem create_ops : (st.create op).ops[x]? =
    if x = op.id then some ⟨st.rev + 1, st.rev + 1, op⟩ else st.ops[x]? := insert_at

theorem update_ops : (st.update entry op).ops[x]? =
    if x = op.id then some ⟨entry.createRev, st.rev + 1, op⟩ else st.ops[x]? := insert_at

theorem freed_at : (st.freed resource owner)[x]? =
    if x = resource ∧ st.scopes[resource]? = some owner then none else st.scopes[x]? := by
  unfold OpStore.freed
  split
  · next held =>
      rw [erase_at]
      by_cases eq : x = resource
      · rw [if_pos eq, if_pos ⟨eq, held⟩]
      · rw [if_neg eq, if_neg fun both => eq both.1]
  · next other => rw [if_neg fun both => other both.2]

theorem drop_ops (d : Drop) : (st.drop d).ops[x]? = if d = .record x then none else st.ops[x]? := by
  cases d with
  | record id =>
    change (st.ops.erase id)[x]? = _
    rw [erase_at]
    by_cases eq : x = id
    · rw [if_pos eq, if_pos (congrArg Drop.record eq.symm)]
    · rw [if_neg eq, if_neg fun equal => eq (Drop.record.inj equal).symm]
  | key => rw [if_neg (by simp)]; rfl

theorem drops_ops : (batch.foldl OpStore.drop st).ops[x]? =
    if .record x ∈ batch then none else st.ops[x]? := by
  induction batch generalizing st with
  | nil => rw [if_neg (by simp)]; rfl
  | cons d rest ih =>
    rw [foldl_cons, ih, drop_ops]
    by_cases later : Drop.record x ∈ rest
    · rw [if_pos later, if_pos (mem_cons_of_mem d later)]
    by_cases here : d = .record x
    · rw [if_neg later, if_pos here, if_pos (here ▸ mem_cons_self)]
    rw [if_neg later, if_neg here, if_neg]
    intro mem
    rcases mem_cons.mp mem with eq | inRest
    · exact here eq.symm
    · exact later inRest

theorem drop_rest (d : Drop) : (st.drop d).scopes = st.scopes ∧
    (st.drop d).scopeRev = st.scopeRev := by
  cases d with
  | record | key => exact ⟨rfl, rfl⟩

theorem drops_rest : (batch.foldl OpStore.drop st).scopes = st.scopes ∧
    (batch.foldl OpStore.drop st).scopeRev = st.scopeRev := by
  induction batch generalizing st with
  | nil => exact ⟨rfl, rfl⟩
  | cons d rest ih =>
    rw [foldl_cons]
    exact ⟨ih.1.trans (drop_rest d).1, ih.2.trans (drop_rest d).2⟩

end

end Shunt.Cp
