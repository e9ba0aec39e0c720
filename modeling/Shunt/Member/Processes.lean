/-
The processes of one proxy over one cache directory, and the control plane they report
to.  A process starts on the marker the last one left, sends heartbeats, is answered or
not, retires or crashes; what it sent may reach any control node at any later time, any
number of times, or never.  Operators ask for retirements, resolve and forget.  Marker
writes are atomic and may fail.
-/

import Shunt.Cp.FleetHistory
import Shunt.Member.Marker

namespace Shunt.Member

open Cp List

/-- The control plane, the marker on disk, the running process, the calls sent so far, the
incarnations drawn (newest first), those that retired with every outcome learned and those
that ended otherwise. -/
structure MemberWorld where
  fleet : FleetWorld := {}
  disk : Option Marker := none
  process : Option Process := none
  sent : List FleetCall := []
  drawn : List String := []
  clean : List String := []
  ended : List String := []

def byOperator : FleetCall → Bool
  | .requestRetire | .resolve _ _ _ | .forget => true
  | _ => false

namespace MemberWorld

def record (w : MemberWorld) : MemberRecord := w.fleet.reg.value.getD {}

def enters (w : MemberWorld) (i node : Nat) (call : FleetCall) : MemberWorld :=
  { w with fleet := w.fleet.goes i ⟨node, call, .forgotten⟩ (call.enter (w.fleet.known node)) }

def writes (w : MemberWorld) (proxy : String) (now : Nat) (p : Process) (wrote : Bool) :
    MemberWorld :=
  { w with process := some p, disk := if wrote then some (p.marker proxy now) else w.disk }

def Lists (w : MemberWorld) (id : String) : Prop := ∃ m, w.disk = some m ∧ id ∈ m.names

end MemberWorld

open MemberWorld in
inductive MemberStep (path proxy : String) : MemberWorld → MemberWorld → Prop where
  /-- The control nodes go on with the calls they have. -/
  | fleet {w f} (step : FleetStep proxy w.fleet f)
      (quiet : ∀ i, w.fleet.calls i = none → f.calls i = none) :
      MemberStep path proxy w { w with fleet := f }
  | operate {w i} (fresh : w.fleet.calls i = none) (node : Nat)
      (call : FleetCall) (operator : byOperator call = true) :
      MemberStep path proxy w (w.enters i node call)
  | deliver {w i} (fresh : w.fleet.calls i = none) (node : Nat)
      (call : FleetCall) (sent : call ∈ w.sent) : MemberStep path proxy w (w.enters i node call)
  | start {w predecessors} (stopped : w.process = none)
      (id : String) (valid : validIncarnation id = true) (unused : id ∉ w.drawn)
      (reads : readPredecessors path proxy w.disk = .ok predecessors) (started now : Nat) :
      MemberStep path proxy w
        ({ w with drawn := id :: w.drawn }.writes proxy now
          { incarnation := id, started := started, predecessors := predecessors } true)
  | beat {w p} (runs : w.process = some p)
      (going : p.retired = false) (valid : p.heartbeat.check = none) :
      MemberStep path proxy w { w with sent := .heartbeat p.heartbeat valid :: w.sent }
  /-- The answer reaches the process that sent the heartbeat. -/
  | answer {w p i c hb valid grant} (runs : w.process = some p)
      (made : w.fleet.calls i = some c) (call : c.call = .heartbeat hb valid)
      (granted : c.phase = .ended (.granted grant)) (own : hb.incarnation = p.incarnation)
      (now : Nat) (wrote : Bool) : MemberStep path proxy w
        (w.writes proxy now (p.answered hb.previous grant.previousRecorded)
          (p.changed hb.previous grant.previousRecorded && wrote))
  /-- `Retire` writes the marker before it tells the control plane. -/
  | mark {w p} (runs : w.process = some p)
      (first : p.markState = .active) (uncertain : Int) (counted : 0 ≤ uncertain) (now : Nat)
      (wrote : Bool) : MemberStep path proxy w
        ({ w with clean := if uncertain = 0 then p.incarnation :: w.clean else w.clean }.writes
          proxy now (p.mark uncertain) wrote)
  | tell {w p} (runs : w.process = some p)
      (marked : p.markState ≠ .active) (counted : 0 ≤ p.markUncertain) : MemberStep path proxy w
        { w with
          process := some { p with retired := true }
          sent := .retire p.incarnation p.markUncertain counted :: w.sent }
  /-- The process exits after its retirement, or is killed at any point. -/
  | stop {w p} (runs : w.process = some p) : MemberStep path proxy w
        { w with
          process := none
          ended := if p.markState = .retired then w.ended else p.incarnation :: w.ended }

abbrev MemberRun (path proxy : String) := Relation.ReflTransGen (MemberStep path proxy)

def Truthful (clean : List String) (call : FleetCall) : Prop :=
  ∀ id, call.Tells (.retired id) → id ∈ clean

/-- The marker on disk names the running process and what it still has to report. -/
structure Marked (w : MemberWorld) (proxy : String) (m : Marker) : Prop where
  usable : m.usable proxy = true
  counted : 0 ≤ m.uncertain
  own : m.state = some .retired → m.uncertain = 0 → m.incarnation ∈ w.clean
  predecessors : ∀ q ∈ m.predecessors, q.clean = true → q.id ∈ w.clean

structure Running (w : MemberWorld) (p : Process) : Prop where
  valid : validIncarnation p.incarnation = true
  drawn : p.incarnation ∈ w.drawn
  going : p.incarnation ∉ w.ended
  counted : 0 ≤ p.markUncertain
  clean : p.markState = .retired ↔ p.incarnation ∈ w.clean
  learned : p.markState ≠ .active → p.markUncertain = 0 → p.markState = .retired
  predecessors : ∀ q ∈ p.predecessors, q.clean = true → q.id ∈ w.clean
  marker : ∃ m, w.disk = some m ∧ m.incarnation = p.incarnation ∧
    ∀ id ∈ m.predecessors.map Incarnation.id,
      id ∈ p.predecessors.map Incarnation.id ∨ Reported w.fleet.log id

structure MemberWorld.Inv (proxy : String) (w : MemberWorld) : Prop where
  fleet : w.fleet.Inv proxy
  granted : w.fleet.Granted
  sent : ∀ call ∈ w.sent, Truthful w.clean call
  calls : ∀ i c, w.fleet.calls i = some c → Truthful w.clean c.call
  log : ∀ id, FleetEvent.retired id ∈ w.fleet.log → id ∈ w.clean
  disk : ∀ m, w.disk = some m → Marked w proxy m
  process : ∀ p, w.process = some p → Running w p
  kept : ∀ id ∈ w.ended, w.Lists id ∨ Reported w.fleet.log id
  apart : ∀ id ∈ w.ended, id ∉ w.clean
  endedDrawn : ∀ id ∈ w.ended, id ∈ w.drawn
  cleanDrawn : ∀ id ∈ w.clean, id ∈ w.drawn

section

variable {path proxy : String} {w w' : MemberWorld} {p : Process} {m : Marker}

theorem Truthful.mono {clean clean' : List String} {call : FleetCall} (subset : clean ⊆ clean')
    (truthful : Truthful clean call) : Truthful clean' call :=
  fun id tells => subset (truthful id tells)

theorem MemberWorld.Inv.fleetStep {f : FleetWorld} (inv : w.Inv proxy)
    (step : FleetStep proxy w.fleet f) (quiet : ∀ i, w.fleet.calls i = none → f.calls i = none) :
    MemberWorld.Inv proxy { w with fleet := f } := by
  obtain ⟨grows, told⟩ := step.log_tells
  refine ⟨step.inv inv.fleet, step.granted inv.fleet inv.granted, inv.sent, ?_, ?_,
    fun m on => ⟨(inv.disk m on).usable, (inv.disk m on).counted, (inv.disk m on).own,
      (inv.disk m on).predecessors⟩, ?_, ?_, inv.apart, inv.endedDrawn, inv.cleanDrawn⟩
  · intro i c at_
    obtain ⟨b, prev, eq⟩ := step.same_call quiet at_
    exact eq ▸ inv.calls i b prev
  · intro id retired
    rcases told _ retired with old | ⟨i, c, at_, tells⟩
    · exact inv.log id old
    · exact inv.calls i c at_ id tells
  · intro p runs
    have was := inv.process p runs
    obtain ⟨m, on, eq, each⟩ := was.marker
    exact ⟨was.valid, was.drawn, was.going, was.counted, was.clean, was.learned, was.predecessors,
      m, on, eq, fun id mem => (each id mem).imp_right fun reported => reported.mono grows⟩
  · intro id mem
    exact (inv.kept id mem).imp_right fun reported => reported.mono grows

theorem MemberWorld.Inv.enters {i node : Nat} {call : FleetCall} (inv : w.Inv proxy)
    (fresh : w.fleet.calls i = none) (truthful : Truthful w.clean call) :
    (w.enters i node call).Inv proxy := by
  have step : FleetStep proxy w.fleet (w.enters i node call).fleet := .enter fresh node call
  refine ⟨step.inv inv.fleet, step.granted inv.fleet inv.granted, inv.sent, ?_, inv.log,
    fun m on => ⟨(inv.disk m on).usable, (inv.disk m on).counted, (inv.disk m on).own,
      (inv.disk m on).predecessors⟩, ?_, inv.kept, inv.apart, inv.endedDrawn, inv.cleanDrawn⟩
  · intro j d at_
    rcases Library.update_some at_ with ⟨-, rfl⟩ | ⟨-, at_⟩
    · exact truthful
    · exact inv.calls j d at_
  intro p runs
  have was := inv.process p runs
  exact ⟨was.valid, was.drawn, was.going, was.counted, was.clean, was.learned, was.predecessors,
    was.marker⟩

theorem MemberWorld.Inv.writes {q : Process} {now : Nat} {wrote : Bool} {clean drawn : List String}
    (inv : w.Inv proxy) (cleaner : w.clean ⊆ clean) (wider : w.drawn ⊆ drawn)
    (valid : validIncarnation q.incarnation) (counted : 0 ≤ q.markUncertain)
    (isDrawn : q.incarnation ∈ drawn) (going : q.incarnation ∉ w.ended)
    (state : q.markState = .retired ↔ q.incarnation ∈ clean)
    (learned : q.markState ≠ .active → q.markUncertain = 0 → q.markState = .retired)
    (onlyNew : ∀ id ∈ clean, id ∈ w.clean ∨ id = q.incarnation)
    (predecessors : ∀ e ∈ q.predecessors, e.clean → e.id ∈ clean)
    (disk : wrote = false → ∃ m, w.disk = some m ∧ m.incarnation = q.incarnation ∧
      ∀ id ∈ m.predecessors.map Incarnation.id,
        id ∈ q.predecessors.map Incarnation.id ∨ Reported w.fleet.log id)
    (hands : ∀ id ∈ w.ended, w.Lists id →
      id ∈ q.predecessors.map Incarnation.id ∨ Reported w.fleet.log id) :
    ({ w with clean := clean, drawn := drawn }.writes proxy now q wrote).Inv proxy := by
  refine ⟨inv.fleet, inv.granted, fun call mem => (inv.sent call mem).mono cleaner,
    fun i c at_ => (inv.calls i c at_).mono cleaner, fun id told => cleaner (inv.log id told),
    ?_, ?_, ?_, ?_, fun id mem => wider (inv.endedDrawn id mem), ?_⟩
  · intro m on
    change (if wrote then some (q.marker proxy now) else w.disk) = some m at on
    cases wrote with
    | true =>
      cases on
      refine ⟨Process.marker_usable valid, counted, ?_, predecessors⟩
      intro retired _
      exact state.mp (Option.some.inj retired)
    | false =>
      have was := inv.disk m on
      exact ⟨was.usable, was.counted, fun retired none_ => cleaner (was.own retired none_),
        fun e mem is_ => cleaner (was.predecessors e mem is_)⟩
  · intro r runs
    cases runs
    refine ⟨valid, isDrawn, going, counted, state, learned, predecessors, ?_⟩
    cases wrote with
    | true => exact ⟨_, rfl, rfl, fun id mem => .inl mem⟩
    | false => exact disk rfl
  · intro id mem
    rcases inv.kept id mem with listed | reported
    · cases wrote with
      | true =>
        refine (hands id mem listed).imp ?_ fun reported => reported
        intro isIn
        exact ⟨_, rfl, mem_cons_of_mem _ isIn⟩
      | false => exact .inl listed
    · exact .inr reported
  · intro id mem isIn
    rcases onlyNew id isIn with old | own
    · exact inv.apart id mem old
    · exact going (own ▸ mem)
  intro id isIn
  rcases onlyNew id isIn with old | own
  · exact wider (inv.cleanDrawn id old)
  · exact own ▸ isDrawn

theorem Running.hands {id : String} (was : Running w p) (ended : id ∈ w.ended)
    (listed : w.Lists id) : id ∈ p.predecessors.map Incarnation.id ∨ Reported w.fleet.log id := by
  obtain ⟨m, on, isIn⟩ := listed
  obtain ⟨n, isOn, eq, each⟩ := was.marker
  rw [on, Option.some.injEq] at isOn
  subst isOn
  rcases mem_cons.mp isIn with own | prev
  · rw [own, eq] at ended
    exact absurd ended was.going
  · exact each id prev

theorem MemberWorld.Inv.start {predecessors : List Incarnation} {id : String} {started now : Nat}
    (inv : w.Inv proxy) (valid : validIncarnation id) (unused : id ∉ w.drawn)
    (reads : readPredecessors path proxy w.disk = .ok predecessors) :
    ({ w with drawn := id :: w.drawn }.writes proxy now
      { incarnation := id, started := started, predecessors := predecessors } true).Inv proxy := by
  refine inv.writes (List.Subset.refl _) (subset_cons_self _ _) valid (Int.le_refl 0)
    mem_cons_self (fun mem => unused (inv.endedDrawn id mem)) ?_
    (fun marked => absurd rfl marked) (fun _ mem => .inl mem) ?_ nofun ?_
  · exact ⟨nofun, fun mem => absurd (inv.cleanDrawn id mem) unused⟩
  · intro e mem is_
    cases on : w.disk with
    | none =>
      rw [on] at reads
      cases reads
      cases mem
    | some m =>
      have was := inv.disk m on
      rw [on] at reads
      rw [readPredecessors_earlier was.usable reads] at mem
      rcases Marker.mem_earlier mem with prev | own
      · exact was.predecessors e prev is_
      subst own
      obtain ⟨retired, none_⟩ := Marker.process_clean is_
      exact was.own retired none_
  · rintro x ended ⟨m, on, isIn⟩
    have was := inv.disk m on
    rw [on] at reads
    left
    rw [readPredecessors_earlier was.usable reads]
    rcases Marker.earlier_names was.counted isIn with handed | ⟨own, retired, none_⟩
    · exact handed
    · exact absurd (own ▸ was.own retired none_) (inv.apart x ended)

theorem MemberWorld.Inv.answer {i : Nat} {c : FleetRunning} {hb : Heartbeat}
    {valid : hb.check = none} {grant : Grant} {now : Nat} {wrote : Bool} (inv : w.Inv proxy)
    (runs : w.process = some p) (made : w.fleet.calls i = some c)
    (call : c.call = .heartbeat hb valid) (granted : c.phase = .ended (.granted grant)) :
    (w.writes proxy now (p.answered hb.previous grant.previousRecorded)
      (p.changed hb.previous grant.previousRecorded && wrote)).Inv proxy := by
  have was := inv.process p runs
  have reported := inv.granted i c hb valid grant made call granted
  have leaves : ∀ id ∈ p.predecessors.map Incarnation.id,
      id ∈ (p.unrecorded hb.previous grant.previousRecorded).map Incarnation.id ∨
        Reported w.fleet.log id := by
    intro id mem
    refine (Process.unrecorded_or_sent mem).imp_right ?_
    rintro ⟨-, isIn⟩
    obtain ⟨q, among, rfl⟩ := List.mem_map.mp isIn
    exact reported q among
  refine @MemberWorld.Inv.writes proxy w _ now _ w.clean w.drawn inv (List.Subset.refl _)
    (List.Subset.refl _) was.valid was.counted was.drawn was.going was.clean
    was.learned (fun _ mem => .inl mem)
    (fun e mem => was.predecessors e (Process.mem_unrecorded mem)) ?_ ?_
  · intro _
    obtain ⟨m, on, eq, each⟩ := was.marker
    refine ⟨m, on, eq, fun id mem => ?_⟩
    exact (each id mem).elim (leaves id) Or.inr
  · intro id ended listed
    exact (was.hands ended listed).elim (leaves id) Or.inr

theorem MemberWorld.Inv.mark {uncertain : Int} {now : Nat} {wrote : Bool} (inv : w.Inv proxy)
    (runs : w.process = some p) (first : p.markState = .active) (counted : 0 ≤ uncertain) :
    ({ w with clean := if uncertain = 0 then p.incarnation :: w.clean else w.clean }.writes
      proxy now (p.mark uncertain) wrote).Inv proxy := by
  have was := inv.process p runs
  have unmarked : p.incarnation ∉ w.clean := by
    intro isIn
    rw [was.clean.mpr isIn] at first
    cases first
  have grows : w.clean ⊆ if uncertain = 0 then p.incarnation :: w.clean else w.clean := by
    split
    · exact subset_cons_self _ _
    · exact List.Subset.refl _
  refine @MemberWorld.Inv.writes proxy w _ now _ _ w.drawn inv grows (List.Subset.refl _)
    was.valid counted was.drawn was.going ?_ ?_ ?_
    (fun e mem is_ => grows (was.predecessors e mem is_)) (fun _ => was.marker)
    (fun id ended listed => was.hands ended listed)
  · change (if 0 < uncertain then IncarnationState.unclean else .retired) = .retired ↔ _
    by_cases none_ : uncertain = 0
    · rw [if_pos none_, if_neg (by omega)]
      exact ⟨fun _ => mem_cons_self, fun _ => rfl⟩
    · rw [if_neg none_, if_pos (by omega)]
      exact ⟨nofun, fun isIn => absurd isIn unmarked⟩
  · intro _ none_
    change uncertain = 0 at none_
    exact if_neg (by omega)
  intro id mem
  split at mem
  · exact (mem_cons.mp mem).symm
  · exact .inl mem

theorem MemberWorld.Inv.sends {call : FleetCall} {q : Process} (inv : w.Inv proxy)
    (truthful : Truthful w.clean call) (runs : Running w q) :
    MemberWorld.Inv proxy { w with process := some q, sent := call :: w.sent } := by
  refine ⟨inv.fleet, inv.granted, ?_, inv.calls, inv.log,
    fun m on => ⟨(inv.disk m on).usable, (inv.disk m on).counted, (inv.disk m on).own,
      (inv.disk m on).predecessors⟩, ?_, inv.kept, inv.apart, inv.endedDrawn, inv.cleanDrawn⟩
  · intro other mem
    rcases mem_cons.mp mem with rfl | old
    · exact truthful
    · exact inv.sent other old
  intro r is_
  cases is_
  exact ⟨runs.valid, runs.drawn, runs.going, runs.counted, runs.clean,
    runs.learned, runs.predecessors, runs.marker⟩

theorem MemberWorld.Inv.stop (inv : w.Inv proxy) (runs : w.process = some p) :
    MemberWorld.Inv proxy { w with
      process := none
      ended := if p.markState = .retired then w.ended else p.incarnation :: w.ended } := by
  have was := inv.process p runs
  have either : ∀ {id},
      id ∈ (if p.markState = .retired then w.ended else p.incarnation :: w.ended) →
      id ∈ w.ended ∨ id = p.incarnation ∧ p.markState ≠ .retired := by
    intro id mem
    split at mem
    · exact .inl mem
    · next other => exact (mem_cons.mp mem).symm.imp_right fun eq => ⟨eq, other⟩
  refine ⟨inv.fleet, inv.granted, inv.sent, inv.calls, inv.log,
    fun m on => ⟨(inv.disk m on).usable, (inv.disk m on).counted, (inv.disk m on).own,
      (inv.disk m on).predecessors⟩, nofun, ?_, ?_, ?_, inv.cleanDrawn⟩
  · intro id mem
    rcases either mem with old | ⟨rfl, -⟩
    · exact inv.kept id old
    · obtain ⟨m, on, eq, -⟩ := was.marker
      exact .inl ⟨m, on, eq ▸ mem_cons_self⟩
  · intro id mem
    rcases either mem with old | ⟨rfl, other⟩
    · exact inv.apart id old
    · exact fun isIn => other (was.clean.mpr isIn)
  intro id mem
  rcases either mem with old | ⟨rfl, -⟩
  · exact inv.endedDrawn id old
  · exact was.drawn

theorem MemberStep.inv (step : MemberStep path proxy w w') (inv : w.Inv proxy) : w'.Inv proxy := by
  cases step with
  | fleet step quiet => exact inv.fleetStep step quiet
  | operate fresh node call operator =>
    refine inv.enters fresh ?_
    intro id tells
    cases call with
    | heartbeat | retire => cases operator
    | requestRetire | resolve | forget => cases tells
  | deliver fresh node call sent => exact inv.enters fresh (inv.sent call sent)
  | start stopped id valid unused reads => exact inv.start valid unused reads
  | @beat p runs going valid =>
    have was := inv.process p runs
    have truthful : Truthful w.clean (.heartbeat p.heartbeat valid) := by
      rintro id ⟨q, mem, clean, rfl⟩
      exact was.predecessors q (Process.mem_heartbeat mem) clean
    have sends := inv.sends truthful was
    rw [← runs] at sends
    exact sends
  | answer runs made call granted => exact inv.answer runs made call granted
  | mark runs first uncertain counted => exact inv.mark runs first counted
  | @tell p runs marked counted =>
    have was := inv.process p runs
    refine inv.sends ?_ ⟨was.valid, was.drawn, was.going, was.counted, was.clean, was.learned,
      was.predecessors, was.marker⟩
    rintro id ⟨none_, rfl⟩
    exact was.clean.mp (was.learned marked none_)
  | stop runs => exact inv.stop runs

theorem member_start_inv : MemberWorld.Inv proxy {} := by
  refine ⟨fleet_start_inv, ?_, ?_, ?_, ?_, ?_, ?_, ?_, ?_, ?_, ?_⟩
  · rintro i c hb valid grant ⟨⟩
  · rintro call ⟨⟩
  · rintro i c ⟨⟩
  iterate 7
    · rintro x ⟨⟩

theorem member_run_inv (run : MemberRun path proxy {} w) : w.Inv proxy := by
  induction run with
  | refl => exact member_start_inv
  | tail _ step ih => exact step.inv ih

theorem Unproven.known {rec : MemberRecord} {id : String} (place : rec.Unproven id) :
    rec.knows id = true := by
  simp only [MemberRecord.knows, Bool.or_eq_true, decide_eq_true_eq, List.any_eq_true]
  rcases place with ⟨cur, held, eq, -⟩ | ⟨inc, mem, eq⟩
  · exact .inl (.inl (by rw [held, Option.map_some, eq]))
  · exact .inl (.inr ⟨inc, mem, eq⟩)

/-- A process that started and did not retire cleanly is on the marker or in the record, until
an operator resolves it. -/
theorem unclean_end_never_forgotten (run : MemberRun path proxy {} w) {id : String}
    (ended : id ∈ w.ended) (unresolved : FleetEvent.resolved id ∉ w.fleet.log) :
    w.Lists id ∨ w.record.knows id = true := by
  have inv := member_run_inv run
  refine (inv.kept id ended).imp_right ?_
  intro reported
  rcases inv.fleet.evidence.ofReported reported with place | ⟨e, mem, ends⟩
  · exact Unproven.known place
  cases e with
  | registered x | unclean x => exact ends.elim
  | retired => exact absurd (inv.log id (ends ▸ mem)) (inv.apart id ended)
  | resolved => exact absurd (ends ▸ mem) unresolved

end

/-- A process that starts and is killed. -/
theorem killed_process_listed : ∃ w : MemberWorld, MemberRun "/cache/incarnation.json" "p1" {} w ∧
    (w.Lists "0123456789abcdef0123456789abcdef" ∨
      w.record.knows "0123456789abcdef0123456789abcdef" = true) := by
  have run1 : MemberRun "/cache/incarnation.json" "p1" {} _ :=
    .single (.start rfl "0123456789abcdef0123456789abcdef" (by decide) not_mem_nil rfl 3 5)
  have run2 := run1.tail (.stop rfl)
  exact ⟨_, run2, unclean_end_never_forgotten run2 mem_cons_self not_mem_nil⟩

end Shunt.Member
