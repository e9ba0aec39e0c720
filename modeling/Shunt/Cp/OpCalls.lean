/-
The calls of the control nodes on the operation records.  A create counts the
reservations, reads what it must not conflict with, makes its transaction, and on a
failure says why or tries again; on the way it may end the record of a lost owner.  An
update replaces the version it read.  Every node has an index of the records that may
lag behind etcd in any way, and answers from it when etcd cannot be read.
-/

import Shunt.Cp.OpStore
import Shunt.Library.Calls

namespace Shunt.Cp

open Directory (clusterResource)
open Control (Operation Scope)

/-- A version written over another: the caller changes what the record says of its run and
keeps what it was accepted as, and an ended record stays ended. -/
structure Rewrites (old new : Operation) : Prop where
  id : new.id = old.id
  sequence : new.sequence = old.sequence + 1
  scope : new.scope = old.scope
  requestID : new.requestID = old.requestID
  identity : new.identity = old.identity
  actor : new.actor = old.actor
  intentDigest : new.intentDigest = old.intentDigest
  ended : old.terminal = true → new.terminal = true

theorem orphan_rewrites {op : Operation} {now : Nat} {why : String}
    (unfinished : op.terminal = false) : Rewrites op (op.orphan now why) := by
  have finished : op.terminal → (op.orphan now why).terminal := by
    intro ended
    rw [unfinished] at ended
    cases ended
  refine ⟨?_, ?_, ?_, ?_, ?_, ?_, ?_, finished⟩ <;>
  · unfold Operation.orphan
    dsimp only
    split <;> rfl

/-- Where a create goes on once an owner in its way has ended. -/
inductive AfterReap where
  | scan (bound : Nat) (todo : List String)
  | retry

inductive CreateResult where
  | created
  | failed (e : CreateError)

inductive CreatePhase where
  | begun (attempt : Nat)
  | counted (attempt : Nat)
  | scanning (attempt bound : Nat) (todo : List String)
  | reaping (attempt : Nat) (new : Operation) (rev : Option Nat) (post : AfterReap)
      (busy : CreateError)
  | ready (attempt : Nat) (bound : Option Nat)
  | refused (attempt : Nat) (seen : Seen)
  | holder (attempt : Nat) (owner held : String)
  | releasing (attempt : Nat) (resource owner : String)
  | landed
  | trimming (batches : List (List Drop))
  | ended (res : CreateResult)

structure CreateCall where
  node : String
  op : Operation
  since : List Operation
  phase : CreatePhase

structure UpdateCall where
  new : Operation
  rev : Option Nat
  done : Bool := false

/-- The store, every version it ever held, the records created, the clock, each node's
index, the nodes whose liveness key holds, and the calls, each create under its own id. -/
structure OpWorld where
  store : OpStore := {}
  history : List Operation := []
  created : List Operation := []
  now : Nat := 0
  index : String → StrMap Operation := fun _ => ∅
  live : String → Bool := fun _ => false
  creates : String → Option CreateCall := fun _ => none
  updates : Nat → Option UpdateCall := fun _ => none

/-- What a node gets for a record: etcd's, or its own index's when etcd cannot be read. -/
inductive Gets (w : OpWorld) (node id : String) : Option Operation → Prop where
  | etcd : Gets w node id (w.store.ops[id]?.map OpEntry.op)
  | index {v : Operation} (cached : (w.index node)[id]? = some v) : Gets w node id (some v)

namespace OpWorld

def goes (w : OpWorld) (c : CreateCall) (phase : CreatePhase) : OpWorld :=
  { w with creates := Function.update w.creates c.op.id (some { c with phase := phase }) }

def updates_ (w : OpWorld) (i : Nat) (u : UpdateCall) : OpWorld :=
  { w with updates := Function.update w.updates i (some u) }

def writes (w : OpWorld) (entry : OpEntry) (new : Operation) : OpWorld :=
  { w with store := w.store.update entry new, history := new :: w.history }

def createsRecord (w : OpWorld) (op : Operation) : OpWorld :=
  { w with
    store := w.store.create op
    history := op :: w.history
    created := op :: w.created }

def reindexes (w : OpWorld) (node : String) (index : StrMap Operation) : OpWorld :=
  { w with index := Function.update w.index node index }

end OpWorld

def again (attempt : Nat) : CreatePhase :=
  if attempt < 8 then .begun (attempt + 1) else .ended (.failed .unavailable)

def AfterReap.phase (attempt : Nat) : AfterReap → CreatePhase
  | .scan bound todo => .scanning attempt bound todo
  | .retry => again attempt

def inTheWay (cluster : String) (got : Option Operation) : Bool :=
  got.any fun owner => !owner.terminal && owner.scope.any fun sc => decide (cluster ∈ sc.clusters)

def lostWhy (owner : Operation) : String :=
  "control node " ++ owner.node ++ " stopped running this operation (its liveness in the " ++
    "control plane lapsed); resume it on a live node, or cancel it"

/-- The owner's node is judged gone, and its record is not already waiting for a resume. -/
def OpWorld.lost (w : OpWorld) (node : String) (owner : Operation) : Prop :=
  node ≠ "" ∧ owner.node ≠ node ∧ w.live owner.node = false ∧ owner.ownerLost = false

def OpWorld.plan (w : OpWorld) (retention : Nat) (index : StrMap Operation) : List (List Drop) :=
  batches maxTxnOps (trimDrops retention w.now index.size index.toList)

open OpWorld in
inductive OpStep (capacity retention : Nat) : OpWorld → OpWorld → Prop where
  | tick {w} : OpStep capacity retention w { w with now := w.now + 1 }
  | liveness {w} (live : String → Bool) : OpStep capacity retention w { w with live := live }
  /-- A write of the directory. -/
  | directory {w} (identity : Option Directory.Identity) (generations : StrMap Int) :
      OpStep capacity retention w { w with
        store := { w.store with
          rev := w.store.rev + 1, identity := identity, generations := generations } }
  /-- A node's index takes a version the store held, or loses a record. -/
  | deliver {w} (node : String) {v} (held : v ∈ w.history) :
      OpStep capacity retention w (w.reindexes node ((w.index node).insert v.id v))
  | forgets {w} (node id : String) :
      OpStep capacity retention w (w.reindexes node ((w.index node).erase id))
  -- The create.
  | enter {w} (node : String) (op : Operation) (fresh : w.creates op.id = none) :
      OpStep capacity retention w (w.goes ⟨node, op, w.created, .begun 0⟩ (.begun 0))
  /-- An error of etcd, the end of the call's context, or the end of its node. -/
  | stop {w id c} (runs : w.creates id = some c) (going : ∀ res, c.phase ≠ .ended res) :
      OpStep capacity retention w (w.goes c (.ended (.failed .unavailable)))
  | overCapacity {w id attempt c sc}
      (runs : w.creates id = some c) (phase : c.phase = .begun attempt)
      (scope : c.op.scope = some sc) (full : capacity ≤ w.store.scopes.size) :
      OpStep capacity retention w (w.goes c (.ended (.failed (.capacity capacity))))
  | count {w id attempt c} (runs : w.creates id = some c) (phase : c.phase = .begun attempt)
      (room : c.op.scope = none ∨ w.store.scopes.size < capacity) :
      OpStep capacity retention w (w.goes c (.counted attempt))
  | scan {w id attempt c sc} (runs : w.creates id = some c) (phase : c.phase = .counted attempt)
      (scope : c.op.scope = some sc) (cluster : sc.cluster.isSome = true) :
      OpStep capacity retention w (w.goes c (.scanning attempt w.store.rev w.store.placementOwners))
  | noScan {w id attempt c} (runs : w.creates id = some c) (phase : c.phase = .counted attempt)
      (other : ∀ sc, c.op.scope = some sc → sc.cluster = none) :
      OpStep capacity retention w (w.goes c (.ready attempt none))
  | scanned {w id attempt bound c}
      (runs : w.creates id = some c) (phase : c.phase = .scanning attempt bound []) :
      OpStep capacity retention w (w.goes c (.ready attempt (some bound)))
  | scanPast {w id owner cluster attempt bound todo c sc got} (runs : w.creates id = some c)
      (phase : c.phase = .scanning attempt bound (owner :: todo)) (scope : c.op.scope = some sc)
      (names : sc.cluster = some cluster) (gets : Gets w c.node owner got)
      (clear : inTheWay cluster got = false) :
      OpStep capacity retention w (w.goes c (.scanning attempt bound todo))
  | scanBusy {w id owner cluster attempt bound todo c sc held got} (runs : w.creates id = some c)
      (phase : c.phase = .scanning attempt bound (owner :: todo)) (scope : c.op.scope = some sc)
      (names : sc.cluster = some cluster) (gets : Gets w c.node owner (some got))
      (inWay : inTheWay cluster (some got) = true) (holds : got.scope = some held) :
      OpStep capacity retention w
        (w.goes c (.ended (.failed (.scopeBusy sc.resource got.id held.resource))))
  | scanReap {w id owner cluster attempt bound todo c sc held got} (runs : w.creates id = some c)
      (phase : c.phase = .scanning attempt bound (owner :: todo)) (scope : c.op.scope = some sc)
      (names : sc.cluster = some cluster) (gets : Gets w c.node owner (some got))
      (inWay : inTheWay cluster (some got) = true) (holds : got.scope = some held)
      (lost : w.lost c.node got) : OpStep capacity retention w
        (w.goes c (.reaping attempt (got.orphan w.now (lostWhy got)) none (.scan bound todo)
          (.scopeBusy sc.resource got.id held.resource)))
  -- The update inside the create that ends a lost owner's record.
  | reapRead {w id attempt c new post busy e} (runs : w.creates id = some c)
      (phase : c.phase = .reaping attempt new none post busy)
      (found : w.store.ops[new.id]? = some e) (next : e.op.sequence + 1 = new.sequence) :
      OpStep capacity retention w (w.goes c (.reaping attempt new (some e.modRev) post busy))
  | reapFails {w id attempt c new rev post busy} (runs : w.creates id = some c)
      (phase : c.phase = .reaping attempt new rev post busy) :
      OpStep capacity retention w (w.goes c (.ended (.failed busy)))
  | reapWrites {w id attempt rev c new post busy e} (runs : w.creates id = some c)
      (phase : c.phase = .reaping attempt new (some rev) post busy)
      (found : w.store.ops[new.id]? = some e) (eq : e.modRev = rev) (told : Bool) :
      OpStep capacity retention w
        ((w.writes e new).goes c
          (if told && new.terminal then post.phase attempt else .ended (.failed busy)))
  -- The transaction and its failure.
  | commit {w id attempt bound c}
      (runs : w.creates id = some c) (phase : c.phase = .ready attempt bound)
      (passes : w.store.createCompares c.op bound = true) (told : Bool) :
      OpStep capacity retention w
        ((w.createsRecord c.op).goes c (if told then .landed else .ended (.failed .unavailable)))
  | refuse {w id attempt bound c}
      (runs : w.creates id = some c) (phase : c.phase = .ready attempt bound)
      (fails : w.store.createCompares c.op bound = false) :
      OpStep capacity retention w (w.goes c (.refused attempt (w.store.readBack c.op)))
  | replays {w id existing attempt c seen got} (runs : w.creates id = some c)
      (phase : c.phase = .refused attempt seen) (keyed : seen.idem = some existing)
      (gets : Gets w c.node existing (some got)) :
      OpStep capacity retention w (w.goes c (.ended (.failed (replay c.op got))))
  | passKey {w id attempt c seen}
      (runs : w.creates id = some c) (phase : c.phase = .refused attempt seen)
      (unkeyed : ∀ existing, seen.idem = some existing → Gets w c.node existing none) :
      OpStep capacity retention w
        (w.goes c
          (match refusal c.op seen with
            | .retry => again attempt
            | .busy owner held => .holder attempt owner held
            | .error e => .ended (.failed e)))
  | leftBehind {w id owner held attempt c sc got} (runs : w.creates id = some c)
      (phase : c.phase = .holder attempt owner held) (scope : c.op.scope = some sc)
      (gets : Gets w c.node owner got) (gone : ∀ op, got = some op → op.terminal = true) :
      OpStep capacity retention w
        (w.goes c (.releasing attempt (if held = "" then sc.resource else held) owner))
  | holderBusy {w id owner held attempt c sc got} (runs : w.creates id = some c)
      (phase : c.phase = .holder attempt owner held) (scope : c.op.scope = some sc)
      (gets : Gets w c.node owner (some got)) (unfinished : got.terminal = false) :
      OpStep capacity retention w (w.goes c (.ended (.failed (.scopeBusy sc.resource owner held))))
  | holderReap {w id owner held attempt c sc got} (runs : w.creates id = some c)
      (phase : c.phase = .holder attempt owner held) (scope : c.op.scope = some sc)
      (gets : Gets w c.node owner (some got)) (unfinished : got.terminal = false)
      (lost : w.lost c.node got) : OpStep capacity retention w
        (w.goes c (.reaping attempt (got.orphan w.now (lostWhy got)) none .retry
          (.scopeBusy sc.resource owner held)))
  | release {w id resource owner attempt c}
      (runs : w.creates id = some c) (phase : c.phase = .releasing attempt resource owner) :
      OpStep capacity retention w
        ({ w with store := w.store.release resource owner }.goes c (again attempt))
  | unreleased {w id resource owner attempt c}
      (runs : w.creates id = some c) (phase : c.phase = .releasing attempt resource owner) :
      OpStep capacity retention w (w.goes c (again attempt))
  -- The history trim after a create.
  | plans {w id c} (runs : w.creates id = some c) (phase : c.phase = .landed) :
      OpStep capacity retention w
        ((w.reindexes c.node ((w.index c.node).insert c.op.id c.op)).goes c
          (.trimming (w.plan retention ((w.index c.node).insert c.op.id c.op))))
  | trim {w id c batch rest} (runs : w.creates id = some c)
      (phase : c.phase = .trimming (batch :: rest)) : OpStep capacity retention w
        ({ w with store := w.store.dropBatch batch }.goes c (.trimming rest))
  | trimFails {w id c batch rest} (runs : w.creates id = some c)
      (phase : c.phase = .trimming (batch :: rest)) :
      OpStep capacity retention w (w.goes c (.trimming rest))
  | trimmed {w id c} (runs : w.creates id = some c)
      (phase : c.phase = .trimming []) : OpStep capacity retention w (w.goes c (.ended .created))
  -- The update.
  | update {w i old new} (fresh : w.updates i = none)
      (read : old ∈ w.history) (rewrites : Rewrites old new) :
      OpStep capacity retention w (w.updates_ i ⟨new, none, false⟩)
  | updateReads {w i u e}
      (runs : w.updates i = some u) (going : u.done = false) (unread : u.rev = none)
      (found : w.store.ops[u.new.id]? = some e) (next : e.op.sequence + 1 = u.new.sequence) :
      OpStep capacity retention w (w.updates_ i { u with rev := some e.modRev })
  | updateWrites {w i rev u e}
      (runs : w.updates i = some u) (going : u.done = false) (read : u.rev = some rev)
      (found : w.store.ops[u.new.id]? = some e) (eq : e.modRev = rev) :
      OpStep capacity retention w ((w.writes e u.new).updates_ i { u with done := true })
  | updateEnds {w i u} (runs : w.updates i = some u) :
      OpStep capacity retention w (w.updates_ i { u with done := true })

end Shunt.Cp
