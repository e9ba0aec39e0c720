/-
The worker session of an external mover.  Heartbeats and an operator's resolution
reach the mover's record through any control node, each written over the record it
was checked against by that record's sequence, beside the owner's own writes.
-/

import Shunt.Control.Operation
import Shunt.Cp.Fleet

namespace Shunt.Control

open List Relation

open Directory (Identity)

inductive WorkerState where
  | active
  | completed
  | unresolved
deriving DecidableEq

structure WorkerSession where
  id : String
  identity : Identity
  generation : Int
  sequence : Int
  state : WorkerState
  inflight : Int
  uncertain : Int
  lastSeen : Nat
  completedAt : Option Nat
  error : String
  resolvedBy : String
  attestation : String
deriving DecidableEq

structure WorkerHeartbeat where
  session : String
  identity : Identity := {}
  generation : Int
  sequence : Int
  inflight : Int := 0
  uncertain : Int := 0
  complete : Bool := false
  error : String := ""
  resolve : Bool := false
  attestation : String := ""

/-- A mover's record, with the arguments that enrol its worker. -/
structure MoverRecord extends Operation where
  created : Nat
  external : Bool
  session : String
  worker : Option WorkerSession

def maxWorkerCount : Int := 2 ^ 30

def maxWorkerText : Nat := 4096

/-- Why a control node turns a heartbeat away before it reads the record. -/
def WorkerHeartbeat.check (req : WorkerHeartbeat) : Option String :=
  if Cp.validIncarnation req.session = false ∨ req.sequence ≤ 0 ∨ req.generation ≤ 0 ∨
      req.inflight < 0 ∨ req.uncertain < 0 ∨ maxWorkerCount < req.inflight ∨
      maxWorkerCount < req.uncertain then
    some ("invalid worker heartbeat: session, generation and sequence must be positive and " ++
      "counts between 0 and 1073741824")
  else if maxWorkerText < req.error.utf8ByteSize ∨ maxWorkerText < req.attestation.utf8ByteSize then
    some "invalid worker heartbeat: error and attestation are limited to 4096 bytes"
  else if req.complete ∧ (req.inflight ≠ 0 ∨ req.uncertain ≠ 0) then
    some "a completed worker session must report zero in-flight and uncertain effects"
  else if req.resolve ∧ req.attestation = "" then
    some "resolving an expired worker session requires an attestation"
  else none

inductive WorkerRefusal where
  | notMover
  | notExternal
  | notEnrolled
  | otherLineage
  | ended
  | completed
  | expired
  | behind
  | reused
  | live
deriving DecidableEq

def WorkerHeartbeat.state (req : WorkerHeartbeat) : WorkerState :=
  if req.complete then .completed else .active

def sameWorker (cur : WorkerSession) (req : WorkerHeartbeat) (actor : String) : Bool :=
  decide (cur.id = req.session ∧ cur.identity = req.identity ∧ cur.generation = req.generation ∧
    cur.state = req.state ∧ cur.inflight = req.inflight ∧ cur.uncertain = req.uncertain ∧
    cur.error = req.error ∧
    (req.resolve = false ∧ cur.resolvedBy = "" ∧ cur.attestation = "" ∨
      req.resolve = true ∧ cur.resolvedBy = actor ∧ cur.attestation = req.attestation))

def WorkerHeartbeat.opens (req : WorkerHeartbeat) (now : Nat) (actor : String) : WorkerSession :=
  { id := req.session, identity := req.identity, generation := req.generation
    sequence := req.sequence, state := req.state, inflight := req.inflight
    uncertain := req.uncertain, lastSeen := now
    completedAt := if req.complete then some now else none, error := req.error
    resolvedBy := if req.resolve then actor else ""
    attestation := if req.resolve then req.attestation else "" }

/-- The session a heartbeat makes of the record's, and whether it differs from the
stored one. -/
def nextWorker (ttl now : Nat) (op : MoverRecord) (req : WorkerHeartbeat) (actor : String) :
    Except WorkerRefusal (WorkerSession × Bool) :=
  match op.scope with
  | none => .error .notMover
  | some scope =>
    if op.kind ≠ .mover then .error .notMover
    else if op.external = false ∨ op.session ≠ req.session then .error .notEnrolled
    else if req.identity ≠ op.identity ∨ req.generation ≠ scope.generation then
      .error .otherLineage
    else
      match op.worker with
      | none => if op.terminal then .error .ended else .ok (req.opens now actor, true)
      | some cur =>
        let repeats := decide (req.sequence = cur.sequence) && sameWorker cur req actor
        if repeats ∧ cur.state = .completed then .ok (cur, false)
        else if op.terminal then .error .ended
        else if cur.state = .completed then .error .completed
        else if (cur.state = .unresolved ∨ cur.state = .active ∧ cur.lastSeen + ttl < now) ∧
            req.resolve = false then .error .expired
        else if req.sequence < cur.sequence then .error .behind
        else if req.sequence = cur.sequence then
          if repeats then .ok (cur, false) else .error .reused
        else .ok (req.opens now actor, true)

def workerResolvable (ttl now : Nat) (op : MoverRecord) : Except WorkerRefusal Unit :=
  if op.kind ≠ .mover ∨ op.external = false then .error .notExternal
  else if op.terminal then .error .ended
  else
    match op.worker with
    | none => if now ≤ op.created + ttl then .error .live else .ok ()
    | some w =>
      match w.state with
      | .completed => .error .completed
      | .active => if now ≤ w.lastSeen + ttl then .error .live else .ok ()
      | .unresolved => .ok ()

/-- The heartbeat an operator's resolution stands for: the one that recorded it
when it is repeated, and otherwise one that closes the session. -/
def resolution (ttl now : Nat) (op : MoverRecord) (session attestation who : String) :
    Except WorkerRefusal WorkerHeartbeat :=
  let closes : WorkerHeartbeat :=
    { session, identity := op.identity, generation := (op.scope.map Scope.generation).getD 0
      sequence := (op.worker.map fun w => w.sequence + 1).getD 1, complete := true
      resolve := true, attestation
      error := "worker session " ++ session ++
        " expired with its copy unfinished; resolved by " ++ who }
  match op.worker.filter fun w => decide (w.state = .completed ∧ w.id = session ∧
      w.resolvedBy = who ∧ w.attestation = attestation) with
  | some w =>
    .ok { closes with
      identity := w.identity, generation := w.generation, sequence := w.sequence, error := w.error }
  | none => (workerResolvable ttl now op).map fun _ => closes

variable {ttl now arrived : Nat} {op base a b c : MoverRecord} {req : WorkerHeartbeat}
  {actor : String} {worker : WorkerSession}

theorem unless_error {α : Type} {wrong : Prop} [Decidable wrong] {e : WorkerRefusal}
    {rest : Except WorkerRefusal α} {out : α}
    (ok : (if wrong then .error e else rest) = .ok out) : ¬ wrong ∧ rest = .ok out := by
  by_cases holds : wrong
  · rw [if_pos holds] at ok
    cases ok
  · rw [if_neg holds] at ok
    exact ⟨holds, ok⟩

theorem nextWorker_changed (next : nextWorker ttl now op req actor = .ok (worker, true)) :
    op.terminal = false ∧ worker.sequence = req.sequence ∧
      ∀ cur, op.worker = some cur → cur.state ≠ .completed ∧ cur.sequence < req.sequence ∧
        (cur.lastSeen + ttl < now → req.resolve = true) := by
  unfold nextWorker at next
  cases scope : op.scope with
  | none => rw [scope] at next; cases next
  | some =>
    rw [scope] at next
    obtain ⟨-, next⟩ := unless_error next
    obtain ⟨-, next⟩ := unless_error next
    obtain ⟨-, next⟩ := unless_error next
    cases held : op.worker with
    | none =>
      rw [held] at next
      obtain ⟨runs, next⟩ := unless_error next
      cases next
      exact ⟨by simpa using runs, rfl, fun cur got => by cases got⟩
    | some cur =>
      rw [held] at next
      dsimp only at next
      split at next
      · cases next
      obtain ⟨runs, next⟩ := unless_error next
      obtain ⟨open_, next⟩ := unless_error next
      obtain ⟨timely, next⟩ := unless_error next
      obtain ⟨ahead, next⟩ := unless_error next
      by_cases eq : req.sequence = cur.sequence
      · rw [if_pos eq] at next
        split at next <;> cases next
      rw [if_neg eq] at next
      cases next
      refine ⟨by simpa using runs, rfl, fun cur' got => ?_⟩
      cases got
      refine ⟨open_, lt_of_le_of_ne (not_lt.mp ahead) (Ne.symm eq), fun late => ?_⟩
      by_contra unresolved
      refine timely ⟨?_, by simpa using unresolved⟩
      cases state : cur.state with
      | active => exact .inr ⟨rfl, late⟩
      | completed => exact absurd state open_
      | unresolved => exact .inl rfl

/-- A write that leaves the session alone and never opens an ended record. -/
structure Edited (a b : MoverRecord) : Prop where
  worker : b.worker = a.worker
  sequence : b.sequence = a.sequence
  ends : a.terminal = true → b.terminal = true

inductive Cause where
  | heartbeat (req : WorkerHeartbeat) (arrived : Nat)
  | other

/-- One record: its stored version and those before it, the writes on their way to
it, and the copies its owners keep at the sequence they write over. -/
structure RecordWorld where
  now : Nat
  stored : MoverRecord
  history : List MoverRecord
  sent : List (MoverRecord × Cause)
  copies : List MoverRecord

def RecordWorld.start (now : Nat) (r : MoverRecord) : RecordWorld :=
  { now, stored := r, history := [r], sent := [], copies := [] }

def MoverRecord.beaten (r : MoverRecord) (worker : WorkerSession) (now : Nat) : MoverRecord :=
  { r with worker := some worker, sequence := r.sequence + 1, updated := now }

def MoverRecord.advanced (r : MoverRecord) : MoverRecord := { r with sequence := r.sequence + 1 }

inductive RecordStep (ttl : Nat) : RecordWorld → RecordWorld → Prop where
  | tick {w} : RecordStep ttl w { w with now := w.now + 1 }
  /-- A node checks a heartbeat, which may have reached it earlier, and writes it. -/
  | heartbeat {w req actor arrived worker} (valid : req.check = none) (arrives : arrived ≤ w.now)
      (next : nextWorker ttl w.now w.stored req actor = .ok (worker, true)) :
      RecordStep ttl w { w with
        sent := (w.stored.beaten worker w.now, .heartbeat req arrived) :: w.sent }
  | resolve {w session attestation who req arrived worker} (attested : attestation ≠ "")
      (arrives : arrived ≤ w.now)
      (built : resolution ttl w.now w.stored session attestation who = .ok req)
      (next : nextWorker ttl w.now w.stored req who = .ok (worker, true)) :
      RecordStep ttl w { w with
        sent := (w.stored.beaten worker w.now, .heartbeat req arrived) :: w.sent }
  /-- Another request ends the record, takes it over or corrects it. -/
  | request {w new} (edited : Edited w.stored new) :
      RecordStep ttl w { w with sent := (new.advanced, .other) :: w.sent }
  | takes {w r} (read : r ∈ w.history) :
      RecordStep ttl w { w with copies := r :: w.copies }
  | edits {w c c'} (held : c ∈ w.copies) (edited : Edited c c') :
      RecordStep ttl w { w with copies := c' :: w.copies }
  | puts {w c} (held : c ∈ w.copies) :
      RecordStep ttl w { w with sent := (c.advanced, .other) :: w.sent }
  | answered {w c} (held : c ∈ w.copies) (landed : c.advanced ∈ w.history) :
      RecordStep ttl w { w with copies := c.advanced :: w.copies }
  /-- A stale write takes the session from the record and goes over its sequence. -/
  | merges {w c} (held : c ∈ w.copies)
      (node : w.stored.node = c.node) (term : w.stored.ownerTerm = c.ownerTerm)
      (runs : w.stored.terminal = false) :
      RecordStep ttl w { w with
        copies := { c with worker := w.stored.worker, sequence := w.stored.sequence } :: w.copies }
  | lands {w new cause} (sent : (new, cause) ∈ w.sent)
      (next : w.stored.sequence + 1 = new.sequence) :
      RecordStep ttl w { w with stored := new, history := new :: w.history }

/-- What a write was checked against. -/
def Follows (ttl : Nat) (base new : MoverRecord) : Cause → Prop
  | .other => new.worker = base.worker ∧ (base.terminal = true → new.terminal = true)
  | .heartbeat req arrived => ∃ now actor worker, arrived ≤ now ∧
      nextWorker ttl now base req actor = .ok (worker, true) ∧ new.worker = some worker ∧
      (req.resolve = true → req.attestation ≠ "")

structure RecordWorld.Inv (ttl : Nat) (w : RecordWorld) : Prop where
  stored : w.stored ∈ w.history
  newest : ∀ r ∈ w.history, r.sequence ≤ w.stored.sequence
  single : ∀ r ∈ w.history, ∀ r' ∈ w.history, r.sequence = r'.sequence → r = r'
  copies : ∀ c ∈ w.copies, ∃ base ∈ w.history, Edited base c
  sent : ∀ s ∈ w.sent, ∃ base ∈ w.history, base.sequence + 1 = s.1.sequence ∧
    Follows ttl base s.1 s.2

theorem check_attested (valid : req.check = none) (resolves : req.resolve) :
    req.attestation ≠ "" := by
  intro nil
  unfold WorkerHeartbeat.check at valid
  iterate 3
    split at valid
    · cases valid
  rw [if_pos ⟨resolves, nil⟩] at valid
  cases valid

theorem resolution_attested {session attestation who : String} (attested : attestation ≠ "")
    (built : resolution ttl now op session attestation who = .ok req) : req.attestation ≠ "" := by
  unfold resolution at built
  dsimp only at built
  split at built
  · cases built
    exact attested
  cases resolvable : workerResolvable ttl now op with
  | error => simp [resolvable, Except.map] at built
  | ok =>
    rw [resolvable] at built
    cases built
    exact attested

theorem Edited.follows (edited : Edited a b) : Follows ttl a b.advanced .other :=
  ⟨edited.worker, edited.ends⟩

section

variable {w w' : RecordWorld}

theorem RecordWorld.Inv.sends {new : MoverRecord} {cause : Cause} (inv : w.Inv ttl)
    (has : base ∈ w.history) (next : base.sequence + 1 = new.sequence)
    (follows : Follows ttl base new cause) : { w with sent := (new, cause) :: w.sent }.Inv ttl := by
  refine ⟨inv.stored, inv.newest, inv.single, inv.copies, fun s mem => ?_⟩
  rcases mem_cons.mp mem with eq | old
  · rw [eq]
    exact ⟨base, has, next, follows⟩
  · exact inv.sent s old

theorem RecordWorld.Inv.copies_ (inv : w.Inv ttl) (has : base ∈ w.history)
    (edited : Edited base c) : { w with copies := c :: w.copies }.Inv ttl := by
  refine ⟨inv.stored, inv.newest, inv.single, fun c' mem => ?_, inv.sent⟩
  rcases mem_cons.mp mem with eq | old
  · rw [eq]
    exact ⟨base, has, edited⟩
  · exact inv.copies c' old

theorem RecordStep.inv (step : RecordStep ttl w w') (inv : w.Inv ttl) : w'.Inv ttl := by
  cases step with
  | tick => exact ⟨inv.stored, inv.newest, inv.single, inv.copies, inv.sent⟩
  | heartbeat valid arrives next =>
    exact inv.sends inv.stored rfl ⟨_, _, _, arrives, next, rfl, check_attested valid⟩
  | resolve attested arrives built next =>
    exact inv.sends inv.stored rfl
      ⟨_, _, _, arrives, next, rfl, fun _ => resolution_attested attested built⟩
  | request edited =>
    exact inv.sends inv.stored (congrArg (· + 1) edited.sequence.symm) edited.follows
  | takes read => exact inv.copies_ read ⟨rfl, rfl, id⟩
  | edits held edited =>
    obtain ⟨base, has, first⟩ := inv.copies _ held
    exact inv.copies_ has ⟨edited.worker.trans first.worker,
      edited.sequence.trans first.sequence, fun ended => edited.ends (first.ends ended)⟩
  | puts held =>
    obtain ⟨base, has, edited⟩ := inv.copies _ held
    exact inv.sends has (congrArg (· + 1) edited.sequence.symm) edited.follows
  | answered held landed => exact inv.copies_ landed ⟨rfl, rfl, id⟩
  | merges held node term runs =>
    refine inv.copies_ inv.stored ⟨rfl, rfl, fun ended => ?_⟩
    rw [runs] at ended
    cases ended
  | @lands new cause sent next =>
    have above : ∀ r ∈ w.history, r.sequence < new.sequence := fun r mem => by
      rw [← next]
      exact Nat.lt_succ_of_le (inv.newest r mem)
    refine ⟨mem_cons_self, fun r mem => ?_, fun r mem r' mem' eq => ?_,
      fun c held => ?_, fun s mem => ?_⟩
    · rcases mem_cons.mp mem with rfl | old
      · exact Nat.le_refl _
      · exact (above r old).le
    · rcases mem_cons.mp mem with rfl | old <;> rcases mem_cons.mp mem' with rfl | old'
      · rfl
      · exact absurd eq (above r' old').ne'
      · exact absurd eq (above r old).ne
      · exact inv.single r old r' old' eq
    · obtain ⟨base, has, edited⟩ := inv.copies c held
      exact ⟨base, mem_cons_of_mem _ has, edited⟩
    · obtain ⟨base, has, checked⟩ := inv.sent s mem
      exact ⟨base, mem_cons_of_mem _ has, checked⟩

theorem start_inv (now : Nat) (r : MoverRecord) : (RecordWorld.start now r).Inv ttl := by
  refine ⟨mem_cons_self, fun r' mem => ?_, fun a inA b inB _ => ?_,
    fun _ held => absurd held not_mem_nil, fun _ held => absurd held not_mem_nil⟩
  · rw [mem_singleton.mp mem]
    exact Nat.le_refl _
  · rw [mem_singleton.mp inA, mem_singleton.mp inB]

/-- What no later version of a record forgets of the session an earlier one held. -/
structure Kept (a b : MoverRecord) : Prop where
  grows : ∀ s, a.worker = some s → ∃ s', b.worker = some s' ∧ (s' = s ∨ s.sequence < s'.sequence)
  completed : ∀ s, a.worker = some s → s.state = .completed → b.worker = some s
  ended : a.terminal = true → b.terminal = true ∧ b.worker = a.worker

theorem Kept.of_same (worker : b.worker = a.worker) (ends : a.terminal → b.terminal) : Kept a b :=
  ⟨fun s got => ⟨s, worker.trans got, .inl rfl⟩, fun _ got _ => worker.trans got,
    fun ended => ⟨ends ended, worker⟩⟩

theorem Kept.trans (first : Kept a b) (second : Kept b c) : Kept a c := by
  refine ⟨fun s got => ?_, fun s got closed => ?_, fun ended => ?_⟩
  · obtain ⟨s', got', grown⟩ := first.grows s got
    obtain ⟨s'', got'', grown'⟩ := second.grows s' got'
    refine ⟨s'', got'', ?_⟩
    rcases grown with eq | more
    · exact eq ▸ grown'
    rcases grown' with eq | more'
    · exact .inr (eq ▸ more)
    · exact .inr (lt_trans more more')
  · exact second.completed s (first.completed s got closed) closed
  obtain ⟨stillEnded, eq⟩ := first.ended ended
  obtain ⟨ends, eq'⟩ := second.ended stillEnded
  exact ⟨ends, eq'.trans eq⟩

theorem Follows.kept {new : MoverRecord} {cause : Cause} (follows : Follows ttl base new cause) :
    Kept base new := by
  cases cause with
  | other => exact .of_same follows.1 follows.2
  | heartbeat =>
    obtain ⟨now, actor, worker, -, next, wrote, -⟩ := follows
    obtain ⟨runs, sequence, above⟩ := nextWorker_changed next
    refine ⟨fun s got => ⟨worker, wrote, .inr ?_⟩, fun s got closed => ?_, fun ended => ?_⟩
    · rw [sequence]
      exact (above s got).2.1
    · exact absurd closed (above s got).1
    · rw [runs] at ended
      cases ended

/-- A write lands on the very version it was checked against. -/
theorem RecordWorld.Inv.checked {new : MoverRecord} {cause : Cause} (inv : w.Inv ttl)
    (sent : (new, cause) ∈ w.sent) (next : w.stored.sequence + 1 = new.sequence) :
    Follows ttl w.stored new cause := by
  obtain ⟨base, has, under, follows⟩ := inv.sent _ sent
  have eq : base = w.stored :=
    inv.single base has _ inv.stored (Nat.succ.inj (under.trans next.symm))
  exact eq ▸ follows

theorem RecordStep.kept (step : RecordStep ttl w w') (inv : w.Inv ttl) :
    Kept w.stored w'.stored := by
  cases step with
  | lands sent next => exact (inv.checked sent next).kept
  | tick | heartbeat | resolve | request | takes | edits | puts | answered | merges =>
    exact .of_same rfl id

theorem run_inv {first : RecordWorld} (start : first.Inv ttl)
    (run : ReflTransGen (RecordStep ttl) first w) : w.Inv ttl ∧ Kept first.stored w.stored := by
  induction run with
  | refl => exact ⟨start, .of_same rfl id⟩
  | tail _ step ih => exact ⟨step.inv ih.1, ih.2.trans (step.kept ih.1)⟩

/-- The session on a mover's record only ever grows in sequence, a completed one
and that of an ended record stay, and a heartbeat that reaches a session past its
time to live changes the record only as an attested resolution. -/
theorem unfinished_work_kept {r : MoverRecord}
    (run : ReflTransGen (RecordStep ttl) (.start now r) w)
    (later : ReflTransGen (RecordStep ttl) w w') : Kept w.stored w'.stored ∧
      ∀ new req arrived cur, (new, Cause.heartbeat req arrived) ∈ w.sent →
        w.stored.sequence + 1 = new.sequence → w.stored.worker = some cur →
        cur.lastSeen + ttl < arrived → req.resolve = true ∧ req.attestation ≠ "" := by
  have inv := (run_inv (start_inv now r) run).1
  refine ⟨(run_inv inv later).2, fun new req arrived cur sent next got late => ?_⟩
  obtain ⟨at_, actor, worker, prev, checked, -, attested⟩ := inv.checked sent next
  have resolves := ((nextWorker_changed checked).2.2 cur got).2.2 (late.trans_le prev)
  exact ⟨resolves, attested resolves⟩

end

def firstWorker : WorkerHeartbeat :=
  { session := "0123456789abcdef0123456789abcdef", generation := 1, sequence := 1 }

def enrolled : MoverRecord :=
  { id := "op1", kind := .mover, scope := some ⟨"acme/photos", 1, []⟩, created := 0
    external := true, session := "0123456789abcdef0123456789abcdef", worker := none }

/-- A session is past its time to live when an operator attests that its worker is gone. -/
theorem expired_closed : ∃ w w' s, ReflTransGen (RecordStep 1) (.start 0 enrolled) w ∧
    RecordStep 1 w w' ∧ w.stored.worker = some (firstWorker.opens 0 "cli") ∧
    w'.stored.worker = some s ∧ s.state = .completed ∧ Kept w.stored w'.stored ∧
    ∀ new req, (new, Cause.heartbeat req 2) ∈ w.sent →
      w.stored.sequence + 1 = new.sequence → req.resolve = true ∧ req.attestation ≠ "" := by
  have run1 : ReflTransGen (RecordStep 1) (.start 0 enrolled) _ :=
    .single (.heartbeat (by decide) (Nat.le_refl 0)
      (show nextWorker 1 0 enrolled firstWorker "cli" = .ok (_, true) from rfl))
  have run2 := (run1.tail (.lands mem_cons_self rfl)).tail .tick
  have run3 := run2.tail .tick
  have run4 := run3.tail (@RecordStep.resolve 1 _ enrolled.session "gone" "ops" _ 2 _ (by decide)
    (Nat.le_refl 2) rfl rfl)
  refine ⟨_, _, _, run4, .lands mem_cons_self rfl, rfl, rfl, rfl, ?_, fun new req sent next => ?_⟩
  · exact (unfinished_work_kept run4 (.single (.lands mem_cons_self rfl))).1
  · exact (unfinished_work_kept run4 .refl).2 new req 2 _ sent next rfl (by decide)

end Shunt.Control
