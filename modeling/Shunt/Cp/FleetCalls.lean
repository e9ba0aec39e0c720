/-
The calls on one member's record as the control nodes make them.  Each reads the
record with its revision, changes what it read and writes it back compared on that
revision; the common heartbeat writes only the lease key, compared on the revision of
the node's own cache.  Calls of any number of nodes interleave, their replies may be
lost, and a node may stop at any point.
-/

import Shunt.Cp.Evidence
import Shunt.Library.Calls
import Shunt.Library.Register

namespace Shunt.Cp

open Library List

/-- What a node last read of the record, and the previous incarnations it holds. -/
structure Cached where
  rev : Nat := 0
  record : MemberRecord := {}
  prevIDs : String := ""
deriving DecidableEq

inductive FleetCall where
  | heartbeat (hb : Heartbeat) (valid : hb.check = none)
  | retire (incarnation : String) (uncertain : Int) (counted : 0 ≤ uncertain)
  | requestRetire
  | resolve (incarnation attestation actor : String)
  | forget
deriving DecidableEq

inductive FleetWrite where
  | put (rec : MemberRecord)
  | remove (ended : List String)
deriving DecidableEq

namespace FleetCall

def isHeartbeat : FleetCall → Bool
  | .heartbeat _ _ => true
  | _ => false

def apply (proxy : String) (now : Nat) (live : Bool) (forgotten : List String) :
    FleetCall → Option MemberRecord → Except FleetError FleetWrite
  | .heartbeat hb _, read => .put <$> (read.getD {}).heartbeat proxy now forgotten hb
  | .retire incarnation uncertain _, some rec =>
    .put <$> rec.retire proxy now incarnation uncertain
  | .requestRetire, some rec => .put <$> rec.requestRetire proxy
  | .resolve incarnation attestation actor, some rec =>
    .put <$> rec.resolve proxy now live incarnation attestation actor
  | .forget, some rec => .remove <$> rec.forget proxy live
  | _, none => .error (.notFound ("no proxy " ++ proxy ++ " in the fleet"))

def note (read : Option MemberRecord) (log : List FleetEvent) : FleetCall → List FleetEvent
  | .heartbeat hb _ => noteHeartbeat hb (read.getD {}) log
  | .retire incarnation uncertain _ => noteRetire incarnation uncertain log
  | .requestRetire => log
  | .resolve incarnation _ _ => .resolved incarnation :: log
  | .forget => log

end FleetCall

def Heartbeat.unchanged (hb : Heartbeat) (cached : Cached) : Bool :=
  cached.record.current.any (fun cur => decide (cur.id = hb.incarnation ∧ cur.state = .active)) &&
    (hb.previous.isEmpty || decide (cached.prevIDs = previousIDs hb.previous))

inductive FleetOutcome where
  | done
  | granted (grant : Grant)
  | refused (e : FleetError)
  | unavailable
deriving DecidableEq

/-- Where a call stands: about to make the common heartbeat's transaction, to read what
forget recorded, to read the record, to change what it read, to write it, to cache what it
wrote, to note the previous incarnations. -/
inductive FleetPhase where
  | fast (cached : Cached)
  | forgotten
  | reading (tries : Nat) (forgotten : List String)
  | loaded (tries : Nat) (forgotten : List String) (rev : Nat) (read : Option MemberRecord)
  | writing (tries : Nat) (forgotten : List String) (rev : Nat) (read : Option MemberRecord)
      (write : FleetWrite)
  | landed (rev : Nat) (write : FleetWrite)
  | noting (grant : Grant)
  | ended (outcome : FleetOutcome)

structure FleetRunning where
  node : Nat
  call : FleetCall
  phase : FleetPhase

def FleetCall.slow : FleetCall → FleetPhase
  | .heartbeat hb _ => if hb.previous = [] then .reading 8 [] else .forgotten
  | _ => .reading 8 []

def FleetCall.enter (cached : Cached) (call : FleetCall) : FleetPhase :=
  match call with
  | .heartbeat hb _ => if hb.unchanged cached then .fast cached else call.slow
  | _ => call.slow

/-- The record, the incarnations forget proved ended, the lease key, each node's cache, the
calls, the history of what was said and the calls that wrote the record. -/
structure FleetWorld where
  reg : Register MemberRecord := {}
  forgotten : List String := []
  live : Bool := false
  known : Nat → Cached := fun _ => {}
  calls : Nat → Option FleetRunning := fun _ => none
  log : List FleetEvent := []
  writers : List Nat := []

namespace FleetWorld

def goes (w : FleetWorld) (i : Nat) (c : FleetRunning) (phase : FleetPhase) : FleetWorld :=
  { w with calls := Function.update w.calls i (some { c with phase := phase }) }

def keep (w : FleetWorld) (node : Nat) (cached : Cached) : FleetWorld :=
  { w with known := Function.update w.known node cached }

def cache (w : FleetWorld) (node rev : Nat) : FleetWrite → FleetWorld
  | .put rec => w.keep node { w.known node with rev := rev, record := rec }
  | .remove _ => w.keep node {}

def notePrevious (w : FleetWorld) (node : Nat) (previous : List Incarnation) : FleetWorld :=
  w.keep node { w.known node with prevIDs := previousIDs previous }

end FleetWorld

def FleetCall.cached : FleetCall → FleetWrite → FleetPhase
  | .heartbeat hb _, .put rec =>
    if hb.previous = [] then .ended (.granted (rec.grant hb)) else .noting (rec.grant hb)
  | _, _ => .ended .done

def replied (answered : Bool) (phase : FleetPhase) : FleetPhase :=
  if answered then phase else .ended .unavailable

open FleetWorld in
inductive FleetStep (proxy : String) : FleetWorld → FleetWorld → Prop where
  /-- A write of another key. -/
  | elsewhere {w} : FleetStep proxy w { w with reg := w.reg.tick }
  /-- The lease expires, or a retirement deletes its key. -/
  | expire {w} : FleetStep proxy w { w with live := false }
  | restart {w} (node : Nat) : FleetStep proxy w (w.keep node {})
  | enter {w i} (fresh : w.calls i = none) (node : Nat) (call : FleetCall) :
      FleetStep proxy w (w.goes i ⟨node, call, .forgotten⟩ (call.enter (w.known node)))
  /-- The call's context ends, etcd does not answer, or the node stops. -/
  | stop {w i c} (runs : w.calls i = some c) (going : ∀ outcome, c.phase ≠ .ended outcome) :
      FleetStep proxy w (w.goes i c (.ended .unavailable))
  | fast {w i c hb valid cached} (runs : w.calls i = some c)
      (call : c.call = .heartbeat hb valid) (phase : c.phase = .fast cached)
      (eq : w.reg.modRev = cached.rev) (answered : Bool) : FleetStep proxy w
        ({ w with
            reg := w.reg.tick, live := true, log := noteHeartbeat hb cached.record w.log }.goes
          i c (replied answered (.ended (.granted (cached.record.grant hb)))))
  | fastLost {w i c cached} (runs : w.calls i = some c) (phase : c.phase = .fast cached)
      (diff : w.reg.modRev ≠ cached.rev) : FleetStep proxy w (w.goes i c c.call.slow)
  | forgotten {w i c} (runs : w.calls i = some c)
      (phase : c.phase = .forgotten) : FleetStep proxy w (w.goes i c (.reading 8 w.forgotten))
  | read {w i tries c forgotten}
      (runs : w.calls i = some c) (phase : c.phase = .reading (tries + 1) forgotten) :
      FleetStep proxy w (w.goes i c (.loaded tries forgotten w.reg.modRev w.reg.value))
  | refuse {w i tries rev c forgotten read e} (runs : w.calls i = some c)
      (phase : c.phase = .loaded tries forgotten rev read) (now : Nat)
      (refused : c.call.apply proxy now w.live forgotten read = .error e) :
      FleetStep proxy w (w.goes i c (.ended (.refused e)))
  | ready {w i tries rev c forgotten read write} (runs : w.calls i = some c)
      (phase : c.phase = .loaded tries forgotten rev read) (now : Nat)
      (ok : c.call.apply proxy now w.live forgotten read = .ok write) :
      FleetStep proxy w (w.goes i c (.writing tries forgotten rev read write))
  | put {w i tries rev c forgotten read rec} (runs : w.calls i = some c)
      (phase : c.phase = .writing tries forgotten rev read (.put rec))
      (eq : w.reg.modRev = rev) (answered : Bool) : FleetStep proxy w
        ({ w with
            reg := w.reg.put rec, live := w.live || c.call.isHeartbeat
            log := c.call.note read w.log
            writers := i :: w.writers }.goes
          i c (replied answered (.landed (w.reg.rev + 1) (.put rec))))
  | remove {w i tries rev c forgotten ended read} (runs : w.calls i = some c)
      (phase : c.phase = .writing tries forgotten rev read (.remove ended))
      (eq : w.reg.modRev = rev) (silent : w.live = false) (answered : Bool) : FleetStep proxy w
        ({ w with
            reg := w.reg.remove, forgotten := ended, log := c.call.note read w.log
            writers := i :: w.writers }.goes
          i c (replied answered (.landed (w.reg.rev + 1) (.remove ended))))
  | lose {w i tries rev c forgotten read write} (runs : w.calls i = some c)
      (phase : c.phase = .writing tries forgotten rev read write)
      (diff : w.reg.modRev ≠ rev ∨ w.live = true ∧ ∃ ended, write = .remove ended) :
      FleetStep proxy w (w.goes i c (.reading tries forgotten))
  | cache {w i rev c write} (runs : w.calls i = some c) (phase : c.phase = .landed rev write) :
      FleetStep proxy w ((w.cache c.node rev write).goes i c (c.call.cached write))
  | note {w i c hb valid grant} (runs : w.calls i = some c)
      (call : c.call = .heartbeat hb valid) (phase : c.phase = .noting grant) : FleetStep proxy w
        ((w.notePrevious c.node hb.previous).goes i c (.ended (.granted grant)))

def Reported (log : List FleetEvent) (id : String) : Prop :=
  FleetEvent.retired id ∈ log ∨ FleetEvent.unclean id ∈ log

/-- The previous incarnations a cache holds were all reported. -/
def Noted (log : List FleetEvent) (prevIDs : String) : Prop :=
  ∃ ids : List String, prevIDs = String.intercalate "," ids ∧
    ∀ id ∈ ids, validIncarnation id = true ∧ Reported log id

section

variable {log : List FleetEvent} {rec : MemberRecord} {p : Incarnation} {hb : Heartbeat}
    {id : String}

theorem validIncarnation_chars (valid : validIncarnation id) :
    id.toList ≠ [] ∧ ',' ∉ id.toList := by
  unfold validIncarnation at valid
  rw [Bool.and_eq_true, decide_eq_true_eq, List.all_eq_true] at valid
  refine ⟨?_, ?_⟩
  · intro empty
    rw [empty] at valid
    exact absurd valid.1 (by decide)
  · intro mem
    exact absurd (valid.2 ',' mem) (by decide)

theorem splitOn_joined {ids : List String} (valid : ∀ id ∈ ids, validIncarnation id)
    (some_ : ids ≠ []) :
    (String.intercalate "," ids).toList.splitOn ',' = ids.map String.toList := by
  rw [String.toList_intercalate]
  refine splitOn_intercalate ',' ?_ (by simpa using some_)
  intro l mem
  obtain ⟨id, isIn, rfl⟩ := List.mem_map.mp mem
  exact (validIncarnation_chars (valid id isIn)).2

theorem joined_ne_empty {ids : List String} (valid : ∀ id ∈ ids, validIncarnation id)
    (some_ : ids ≠ []) : String.intercalate "," ids ≠ "" := by
  intro empty
  have split := splitOn_joined valid some_
  rw [empty] at split
  have blank : [] ∈ ids.map String.toList := by
    rw [← split]
    decide
  obtain ⟨id, isIn, none_⟩ := List.mem_map.mp blank
  exact (validIncarnation_chars (valid id isIn)).1 none_

theorem intercalate_injective {left right : List String}
    (leftValid : ∀ id ∈ left, validIncarnation id)
    (rightValid : ∀ id ∈ right, validIncarnation id) (some_ : left ≠ [])
    (eq : String.intercalate "," left = String.intercalate "," right) : left = right := by
  have someRight : right ≠ [] := by
    intro none_
    subst none_
    exact joined_ne_empty leftValid some_ eq
  have split := splitOn_joined leftValid some_
  rw [eq, splitOn_joined rightValid someRight] at split
  exact (map_injective_iff.mpr (fun _ _ equal => String.toList_inj.mp equal) split).symm

theorem previousValid_ids {incarnation : String} {seen : List String}
    {previous : List Incarnation} (valid : previousValid incarnation seen previous) :
    ∀ p ∈ previous, validIncarnation p.id ∧ p.id ≠ incarnation ∧
      (p.clean ∨ p.endedUnclean = true) := by
  induction previous generalizing seen with
  | nil =>
    rintro p ⟨⟩
  | cons first rest ih =>
    unfold previousValid at valid
    simp only [Bool.and_eq_true, decide_eq_true_eq] at valid
    obtain ⟨⟨⟨⟨⟨hex, other⟩, state⟩, counted⟩, -⟩, later⟩ := valid
    intro p mem
    rcases mem_cons.mp mem with rfl | inRest
    · refine ⟨hex, other, ?_⟩
      simp only [Incarnation.clean, Incarnation.endedUnclean, decide_eq_true_eq]
      rcases state with retired | unclean
      · by_cases none_ : p.uncertain = 0
        · exact .inl ⟨retired, none_⟩
        · exact .inr (.inr (by omega))
      · exact .inr (.inl unclean)
    · exact ih later p inRest

theorem check_previous (valid : hb.check = none) :
    ∀ p ∈ hb.previous, validIncarnation p.id ∧ p.id ≠ hb.incarnation ∧
      (p.clean ∨ p.endedUnclean = true) := by
  unfold Heartbeat.check at valid
  iterate 3
    split at valid
    · cases valid
  · next passes => exact previousValid_ids (Bool.eq_true_of_not_eq_false passes)

theorem Reported.mono {log' : List FleetEvent} (subset : log ⊆ log') (reported : Reported log id) :
    Reported log' id :=
  reported.imp (fun mem => subset mem) (fun mem => subset mem)

theorem Noted.mono {log' : List FleetEvent} {prevIDs : String} (subset : log ⊆ log')
    (noted : Noted log prevIDs) : Noted log' prevIDs := by
  obtain ⟨ids, eq, each⟩ := noted
  exact ⟨ids, eq, fun id mem => ⟨(each id mem).1, (each id mem).2.mono subset⟩⟩

theorem Evidence.ofReported (ev : Evidence log rec) (reported : Reported log id) :
    rec.Unproven id ∨ named log id := by
  by_cases answered : named log id
  · exact .inr answered
  rcases reported with retired | unclean
  · exact absurd ⟨_, retired, rfl⟩ answered
  · exact .inl (ev.kept id (owed_of_reported unclean answered))

theorem Evidence.cleanAgain (previous : List Incarnation) (ev : Evidence log rec) :
    Evidence (previous.foldl Cp.noteClean log) rec := by
  induction previous generalizing log with
  | nil => exact ev
  | cons p rest ih =>
    refine ih ?_
    unfold noteClean noteIf
    split
    · exact ev.endAgain rfl
    · exact ev

theorem Evidence.uncleanAgain {previous : List Incarnation} (ev : Evidence log rec)
    (reported : ∀ p ∈ previous, Reported log p.id) :
    Evidence (previous.foldl Cp.noteUnclean log) rec := by
  induction previous generalizing log with
  | nil => exact ev
  | cons p rest ih =>
    refine ih ?_ fun q mem =>
      (reported q (mem_cons_of_mem p mem)).mono subset_noteIf
    unfold noteUnclean noteIf
    split
    · exact ev.unclean (ev.ofReported (reported p mem_cons_self))
    · exact ev

theorem noteHeartbeat_reports (valid : hb.check = none) :
    ∀ p ∈ hb.previous, Reported (noteHeartbeat hb rec log) p.id := by
  intro p mem
  unfold noteHeartbeat
  dsimp only
  rcases (check_previous valid p mem).2.2 with clean | unclean
  · have told : FleetEvent.retired p.id ∈ hb.previous.foldl noteClean log := mem_notes mem clean
    refine .inl (subset_notes ?_)
    split
    · exact told
    · exact mem_cons_of_mem _ told
  · exact .inr (mem_notes mem unclean)

end

end Shunt.Cp
