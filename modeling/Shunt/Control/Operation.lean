/-
Operation records.  Every operator action runs under a record that says which phase it
is in, what it waits on and how it ended; an action that changes a placement or a
cluster reserves it while it is unfinished.  The fields no modelled function reads are
left out; times are numbers.
-/

import Shunt.Directory.Stamp

namespace Shunt.Control

open Directory (Identity)

inductive OpKind where
  | ramp
  | migrate
  | mover
  | cutover
  | purge
  | finish
  | clusterRemove
  | clusterReadOnly
  | placementReadOnly
  | clusterAdd
  | clusterRotate
  | adopt
  | create
  | expand
  | delete
  | clearTarget
  | carve
  | merge
  | watch
  | controlJoin
  | controlRemove
deriving DecidableEq

def OpKind.text : OpKind → String
  | .ramp => "ramp"
  | .migrate => "migrate"
  | .mover => "mover"
  | .cutover => "cutover"
  | .purge => "purge-source"
  | .finish => "finish"
  | .clusterRemove => "cluster-remove"
  | .clusterReadOnly => "cluster-read-only"
  | .placementReadOnly => "placement-read-only"
  | .clusterAdd => "cluster-add"
  | .clusterRotate => "cluster-credentials"
  | .adopt => "adopt"
  | .create => "create"
  | .expand => "expand"
  | .delete => "delete"
  | .clearTarget => "clear-target"
  | .carve => "carve"
  | .merge => "merge"
  | .watch => "watch"
  | .controlJoin => "control-join"
  | .controlRemove => "control-remove"

inductive OpStatus where
  | pending
  | running
  | blocked
  | succeeded
  | failed
  | cancelled
deriving DecidableEq

inductive EffectState where
  | none
  | committed
  | uncertain
deriving DecidableEq

inductive OpPhase where
  | unset
  | queued
  | precondition
  | hold
  | drain
  | commit
  | step
  | settle
  | window
  | diff
  | purge
  | mover
  | done
deriving DecidableEq

def OpPhase.text : OpPhase → String
  | .unset => ""
  | .queued => "queued"
  | .precondition => "precondition"
  | .hold => "hold"
  | .drain => "drain"
  | .commit => "commit"
  | .step => "step"
  | .settle => "settle"
  | .window => "window"
  | .diff => "diff"
  | .purge => "purge"
  | .mover => "mover"
  | .done => "done"

inductive OpAction where
  | resume
  | cancel
  | resolveWorker
deriving DecidableEq

inductive BlockerCode where
  | oldRequests
  | backendOutcomeUnknown
  | proxyMissing
  | installPending
  | incarnationUnresolved
  | cacheNotDurable
  | installBackpressure
  | multipartOpen
  | workerUnresolved
  | sourceDiff
  | ownerLost
  | quorumUnavailable
deriving DecidableEq

structure Blocker where
  code : BlockerCode
  proxyID : String := ""
  incarnation : String := ""
  count : Int := 0
  message : String := ""
deriving DecidableEq

structure Scope where
  resource : String
  generation : Int := 0
  clusters : List String := []
deriving DecidableEq

structure BarrierState where
  id : String
  scope : String
  kind : Config.BarrierKind
  holdVersion : Int := 0
  generation : Int := 0
  committed : Bool := false
  commitVersion : Int := 0
  dispatchStarted : Bool := false
deriving DecidableEq

structure OpError where
  code : String
  message : String
deriving DecidableEq

structure Operation where
  id : String
  kind : OpKind
  placement : String := ""
  cluster : String := ""
  actor : String := ""
  node : String := ""
  identity : Identity := {}
  scope : Option Scope := none
  requestID : String := ""
  intentDigest : String := ""
  sequence : Nat := 1
  ownerTerm : Nat := 0
  updated : Nat := 0
  status : OpStatus := .pending
  effectState : EffectState := .none
  allowedActions : List OpAction := []
  blockers : List Blocker := []
  barrier : Option BarrierState := none
  phase : OpPhase := .queued
  version : Int := 0
  error : Option OpError := none
deriving DecidableEq

def cutCluster (resource : String) : Option String :=
  if "cluster:".toList <+: resource.toList then
    some (String.ofList (resource.toList.drop "cluster:".toList.length))
  else none

def isPlacement (resource : String) : Bool := decide ("placement:".toList <+: resource.toList)

def Scope.cluster (sc : Scope) : Option String := cutCluster sc.resource

theorem cutCluster_some {resource cluster : String} (cut : cutCluster resource = some cluster) :
    resource = Directory.clusterResource cluster := by
  unfold cutCluster at cut
  split at cut
  · next starts =>
      obtain ⟨rest, joined⟩ := starts
      rw [← joined, List.drop_left, Option.some.injEq] at cut
      rw [← cut]
      unfold Directory.clusterResource
      apply String.toList_inj.mp
      rw [← joined, String.toList_append]
      exact congrArg ("cluster:".toList ++ ·) String.toList_ofList.symm
  · cases cut

theorem cutCluster_placement {resource : String} (placement : isPlacement resource) :
    cutCluster resource = none := by
  unfold isPlacement at placement
  unfold cutCluster
  rw [decide_eq_true_eq] at placement
  rw [if_neg]
  intro starts
  obtain ⟨rest, joined⟩ := placement
  obtain ⟨other, otherJoined⟩ := starts
  rw [← joined] at otherJoined
  have heads : some 'c' = some 'p' := congrArg List.head? otherJoined
  exact absurd heads (by decide)

namespace Operation

def terminal (op : Operation) : Bool :=
  match op.status with
  | .succeeded | .failed | .cancelled => true
  | _ => false

def idempotencyRetention : Nat := 7 * 24 * 3600

def prunable (now : Nat) (op : Operation) : Bool :=
  op.terminal && decide (op.effectState ≠ .uncertain) &&
    (decide (op.requestID = "") || decide (op.updated + idempotencyRetention ≤ now))

def idempotencyIndex (op : Operation) : String :=
  "shunt-idempotency-v1\x00" ++ op.identity.epoch ++ "\x00" ++ op.actor ++ "\x00" ++ op.requestID

def resumable : OpKind → Bool
  | .ramp | .migrate | .placementReadOnly | .clusterReadOnly | .cutover | .purge => true
  | _ => false

def carriesOn (op : Operation) : Bool :=
  (resumable op.kind && op.barrier.isSome) || decide (op.kind = .controlJoin) ||
    decide (op.kind = .controlRemove)

def cancelPhases : List OpPhase := [.unset, .queued, .precondition, .diff]

inductive CancelRefusal where
  | notCancellable (message : String)
  | refuse (message : String)
deriving DecidableEq

def notCancellable (op : Operation) (ownerGone : Bool) : Option CancelRefusal :=
  if op.kind = .controlJoin then none
  else if op.kind = .controlRemove then
    some (.notCancellable ("operation " ++ op.id ++ " removes a control-plane member; a removal " ++
      "is sent at once and cannot be taken back: to keep the node, join it again"))
  else if op.kind = .mover then
    some (.notCancellable ("operation " ++ op.id ++ " is a mover: it ends with its worker, and " ++
      "an expired worker session is resolved with \x60shunt operation resolve-worker " ++ op.id ++
      " --session <id> --attest <why>\x60"))
  else if resumable op.kind = false then
    some (.notCancellable ("operation " ++ op.id ++ " (" ++ op.kind.text ++
      ") has no drain barrier that can be safely canceled"))
  else
    match op.barrier with
    | none =>
      if op.phase ∈ cancelPhases then none
      else some (.notCancellable ("operation " ++ op.id ++ " is writing its change (phase " ++
        op.phase.text ++ ")"))
    | some b =>
      if b.committed then
        some (.notCancellable ("operation " ++ op.id ++ " committed its change at directory " ++
          "version " ++ toString b.commitVersion ++
          "; it settles, and a further change is a new operation"))
      else if b.dispatchStarted then
        some (.notCancellable ("operation " ++ op.id ++ " has started destructive backend " ++
          "work; it must be resumed to completion"))
      else if b.holdVersion = 0 ∧ ownerGone = false then
        some (.refuse ("operation " ++ op.id ++ " is still writing its hold; retry " ++
          "cancellation once the record shows hold_version"))
      else if op.phase = .commit ∧ ownerGone = false then
        some (.notCancellable ("operation " ++ op.id ++ " is writing its commit; it settles, " ++
          "and a further change is a new operation"))
      else none

def beforeFirstWrite (op : Operation) : Bool :=
  op.barrier.isNone &&
    decide (op.phase = .queued ∨ op.phase = .precondition ∨ op.phase = .window ∨ op.phase = .diff)

/-- A record whose owner stopped running it, ready for an update. -/
def orphan (op : Operation) (now : Nat) (why : String) : Operation :=
  let next := { op with sequence := op.sequence + 1, updated := now }
  if op.carriesOn then
    { next with
      status := .blocked
      blockers := [{ code := .ownerLost, message := why }]
      allowedActions := if op.notCancellable true = none then [.resume, .cancel] else [.resume] }
  else
    { next with
      effectState :=
        if op.effectState = .none then
          if op.status = .pending ∨ op.beforeFirstWrite = true then .none else .uncertain
        else op.effectState
      status := .failed
      phase := .done
      blockers := []
      allowedActions := []
      error := some ⟨"unavailable", why⟩ }

def ownerLost (op : Operation) : Bool :=
  decide (op.status = .blocked) && decide (op.blockers.map Blocker.code = [.ownerLost])

end Operation

end Shunt.Control
