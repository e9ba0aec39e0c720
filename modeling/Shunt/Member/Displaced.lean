/-
Which process a member's record takes for the current one.  A heartbeat that reaches the
record after a later process registered seats its own process again and lists the live one
as ended; in runs where no such heartbeat is recorded, each incarnation has one place and
the current one was never replaced.
-/

import Shunt.Cp.FleetPlaces
import Shunt.Member.Processes

namespace Shunt.Member

open Cp List Option
open Function (update_of_ne update_self)

def MemberWorld.Replaced (w : MemberWorld) (id : String) : Prop :=
  ∃ later, FleetEvent.registered later ∈ w.fleet.log ∧ [later, id].Sublist w.drawn

def WritesHeartbeat (w w' : MemberWorld) (hb : Heartbeat) : Prop :=
  ∃ i c valid, w'.fleet.writers = i :: w.fleet.writers ∧ w.fleet.calls i = some c ∧
    c.call = .heartbeat hb valid

/-- Each incarnation keeps one place, and a replaced process's heartbeat neither seats it nor
lists the process it finds seated as ended. -/
def Undisplaced (w w' : MemberWorld) : Prop :=
  w'.record.places.Nodup ∧
    ∀ hb, WritesHeartbeat w w' hb → w.Replaced hb.incarnation →
      w'.record.current.map Incarnation.id ≠ some hb.incarnation ∧
        ∀ cur, w.record.current = some cur → cur.id ∉ w'.record.unresolved.map Incarnation.id

/-- A heartbeat is recorded only of a process that no later one replaced and that the record
does not hold as ended. -/
def Timely (w w' : MemberWorld) : Prop :=
  ∀ hb, WritesHeartbeat w w' hb →
    ¬ w.Replaced hb.incarnation ∧ hb.incarnation ∉ w.record.unresolved.map Incarnation.id

abbrev TimelyRun (path proxy : String) :=
  Relation.ReflTransGen fun w w' => MemberStep path proxy w w' ∧ Timely w w'

section

variable {path proxy : String} {w w' : MemberWorld} {hb : Heartbeat}

/-- What the control nodes' step does to the record: nothing, a heartbeat's write, another
call's, or a removal. -/
inductive RecordStep (w f : FleetWorld) : Prop where
  | same (value : f.reg.value = w.reg.value) (writers : f.writers = w.writers) : RecordStep w f
  | heartbeat {i c hb valid proxy now forgotten rec}
      (writers : f.writers = i :: w.writers) (made : w.calls i = some c)
      (call : c.call = .heartbeat hb valid)
      (ok : (w.reg.value.getD {}).heartbeat proxy now forgotten hb = .ok rec)
      (value : f.reg.value = some rec) : RecordStep w f
  | other {i c rec} (writers : f.writers = i :: w.writers) (made : w.calls i = some c)
      (call : c.call.isHeartbeat = false) (keeps : KeepsPlaces (w.reg.value.getD {}) rec)
      (value : f.reg.value = some rec) : RecordStep w f
  | removed {i c} (writers : f.writers = i :: w.writers)
      (made : w.calls i = some c) (call : c.call.isHeartbeat = false)
      (value : f.reg.value = none) : RecordStep w f

theorem recordStep {f : FleetWorld} (inv : w.fleet.Inv proxy) (step : FleetStep proxy w.fleet f) :
    RecordStep w.fleet f := by
  cases step with
  | @put i tries rev c forgotten read rec runs phase same =>
    obtain ⟨-, -, saw, now, live, ok⟩ := inv.fitting runs phase
    have reads : w.fleet.reg.value = read := saw.same same
    cases call : c.call with
    | heartbeat =>
      rw [call] at ok
      obtain ⟨a, ran, is_⟩ := map_ok ok
      cases is_
      rw [← reads] at ran
      exact .heartbeat rfl runs call ran rfl
    | retire | requestRetire | resolve | forget =>
      refine .other rfl runs (by rw [call]; rfl) ?_ rfl
      rw [reads]
      exact FleetCall.keeps_places (by rw [call]; rfl) ok
  | @remove i tries rev c forgotten ended read runs phase same =>
    obtain ⟨-, -, saw, now, live, ok⟩ := inv.fitting runs phase
    have current : Evidence w.fleet.log (read.getD {}) := saw.same same ▸ inv.evidence
    obtain ⟨is_, -⟩ := FleetCall.remove_evidence current ok
    exact .removed rfl runs (by rw [is_]; rfl) rfl
  | @cache i rev c write =>
    cases write with
    | put | remove => exact .same rfl rfl
  | _ => exact .same rfl rfl

theorem record_value {value : Option MemberRecord} (is_ : w.fleet.reg.value = value) :
    w.record = value.getD {} := by
  unfold MemberWorld.record
  rw [is_]

theorem no_write (same : w'.fleet.writers = w.fleet.writers) : ¬ WritesHeartbeat w w' hb := by
  rintro ⟨i, c, valid, writers, -⟩
  rw [same] at writers
  have lengths := congrArg List.length writers
  rw [length_cons] at lengths
  omega

theorem other_write {i : Nat} {c : FleetRunning}
    (writers : w'.fleet.writers = i :: w.fleet.writers) (made : w.fleet.calls i = some c)
    (call : c.call.isHeartbeat = false) : ¬ WritesHeartbeat w w' hb := by
  rintro ⟨j, d, valid, writers', made', call'⟩
  rw [writers, List.cons.injEq] at writers'
  rw [← writers'.1, made, Option.some.injEq] at made'
  rw [made', call'] at call
  cases call

theorem same_write {i : Nat} {c : FleetRunning} {hb' : Heartbeat} {valid : hb.check = none}
    (writers : w'.fleet.writers = i :: w.fleet.writers) (made : w.fleet.calls i = some c)
    (call : c.call = .heartbeat hb valid) (wrote : WritesHeartbeat w w' hb') : hb' = hb := by
  obtain ⟨j, d, valid', writers', made', call'⟩ := wrote
  rw [writers, List.cons.injEq] at writers'
  rw [← writers'.1, made, Option.some.injEq] at made'
  rw [← made', call] at call'
  cases call'
  rfl

theorem MemberStep.recordStep (inv : w.Inv proxy) (step : MemberStep path proxy w w') :
    RecordStep w.fleet w'.fleet := by
  cases step with
  | fleet step => exact Member.recordStep inv.fleet step
  | operate | deliver | start | beat | answer | mark | tell | stop => exact .same rfl rfl

theorem undisplaced_iff (inv : w.Inv proxy) (nodup : w.record.places.Nodup)
    (step : MemberStep path proxy w w') : Undisplaced w w' ↔ Timely w w' := by
  cases step.recordStep inv with
  | same value writers =>
    have record : w'.record = w.record := record_value value
    refine ⟨fun _ hb wrote => absurd wrote (no_write writers), fun _ => ⟨record ▸ nodup, ?_⟩⟩
    intro hb wrote
    exact absurd wrote (no_write writers)
  | @heartbeat i c hb valid proxy now forgotten rec writers made call ok value =>
    have record : w'.record = rec := record_value value
    obtain ⟨seated, stays, places⟩ :=
      heartbeat_places (fun p mem => (check_previous valid p mem).2.1) ok
    have wrote : WritesHeartbeat w w' hb := ⟨i, c, valid, writers, made, call⟩
    constructor
    · rintro ⟨apart, late⟩ hb' wrote'
      cases same_write writers made call wrote'
      refine ⟨?_, ?_⟩
      · intro replaced
        exact (late hb wrote replaced).1 (record ▸ seated)
      intro held
      obtain ⟨cur, current, same⟩ := map_eq_some_iff.mp seated
      rw [record, places_nodup current, same] at apart
      exact apart.1 (stays held)
    · intro timely
      obtain ⟨newest, gone⟩ := timely hb wrote
      refine ⟨record ▸ places nodup gone, ?_⟩
      intro hb' wrote' replaced
      cases same_write writers made call wrote'
      exact absurd replaced newest
  | @other i c rec writers made call keeps value =>
    have record : w'.record = rec := record_value value
    refine ⟨fun _ hb wrote => absurd wrote (other_write writers made call),
      fun _ => ⟨record ▸ keeps.nodup nodup, ?_⟩⟩
    intro hb wrote
    exact absurd wrote (other_write writers made call)
  | removed writers made call value =>
    have record : w'.record = {} := record_value value
    refine ⟨fun _ hb wrote => absurd wrote (other_write writers made call),
      fun _ => ⟨record ▸ nodup_nil, ?_⟩⟩
    intro hb wrote
    exact absurd wrote (other_write writers made call)

def OfDrawn (drawn : List String) (call : FleetCall) : Prop :=
  ∀ id, call.Tells (.registered id) → id ∈ drawn

structure MemberWorld.Drawn (w : MemberWorld) : Prop where
  nodup : w.drawn.Nodup
  sent : ∀ call ∈ w.sent, OfDrawn w.drawn call
  calls : ∀ i c, w.fleet.calls i = some c → OfDrawn w.drawn c.call
  registered : ∀ id, FleetEvent.registered id ∈ w.fleet.log → id ∈ w.drawn

theorem MemberWorld.Drawn.enters {i node : Nat} {call : FleetCall} (drawn : w.Drawn)
    (from_ : OfDrawn w.drawn call) : (w.enters i node call).Drawn := by
  refine ⟨drawn.nodup, drawn.sent, ?_, drawn.registered⟩
  intro j d at_
  rcases Library.update_some at_ with ⟨-, rfl⟩ | ⟨-, at_⟩
  · exact from_
  · exact drawn.calls j d at_

theorem MemberWorld.Drawn.sends {call : FleetCall} {process : Option Process} (drawn : w.Drawn)
    (from_ : OfDrawn w.drawn call) :
    MemberWorld.Drawn { w with process := process, sent := call :: w.sent } := by
  refine ⟨drawn.nodup, ?_, drawn.calls, drawn.registered⟩
  intro other mem
  rcases mem_cons.mp mem with rfl | old
  · exact from_
  · exact drawn.sent other old

theorem MemberStep.drawn (step : MemberStep path proxy w w') (inv : w.Inv proxy)
    (drawn : w.Drawn) : w'.Drawn := by
  cases step with
  | fleet step quiet =>
    refine ⟨drawn.nodup, drawn.sent, ?_, ?_⟩
    · intro i c at_
      obtain ⟨b, before, same⟩ := step.same_call quiet at_
      exact same ▸ drawn.calls i b before
    intro id mem
    rcases step.log_tells.2 _ mem with old | ⟨i, c, at_, tells⟩
    · exact drawn.registered id old
    · exact drawn.calls i c at_ id tells
  | operate fresh node call operator =>
    refine drawn.enters ?_
    intro id tells
    cases call with
    | heartbeat | retire => cases operator
    | requestRetire | resolve | forget => cases tells
  | deliver fresh node call sent => exact drawn.enters (drawn.sent call sent)
  | start stopped id valid unused =>
    exact ⟨nodup_cons.mpr ⟨unused, drawn.nodup⟩,
      fun call mem x tells => mem_cons_of_mem _ (drawn.sent call mem x tells),
      fun i c at_ x tells => mem_cons_of_mem _ (drawn.calls i c at_ x tells),
      fun x told => mem_cons_of_mem _ (drawn.registered x told)⟩
  | @beat p runs =>
    refine drawn.sends ?_
    rintro id rfl
    exact (inv.process p runs).drawn
  | answer | mark =>
    exact ⟨drawn.nodup, drawn.sent, drawn.calls, drawn.registered⟩
  | tell => exact drawn.sends fun id tells => tells.elim
  | stop => exact ⟨drawn.nodup, drawn.sent, drawn.calls, drawn.registered⟩

theorem MemberStep.drawn_grows (step : MemberStep path proxy w w') :
    w'.drawn = w.drawn ∨ ∃ id, id ∉ w.drawn ∧ w'.drawn = id :: w.drawn ∧
      w'.fleet.log = w.fleet.log := by
  cases step with
  | start stopped id valid unused => exact .inr ⟨id, unused, rfl, rfl⟩
  | _ => exact .inl rfl

theorem registered_anew {rec : MemberRecord} {log : List FleetEvent} {id : String}
    (noted : FleetEvent.registered id ∈ noteHeartbeat hb rec log) :
    FleetEvent.registered id ∈ log ∨ rec.current.map Incarnation.id ≠ some hb.incarnation := by
  unfold noteHeartbeat at noted
  rcases mem_of_notes noted with seated | ⟨p, -, -, no⟩
  · split at seated
    · rcases mem_of_notes seated with old | ⟨p, -, -, no⟩
      · exact .inl old
      · cases no
    · next other => exact .inr other
  · cases no

theorem MemberStep.registers (step : MemberStep path proxy w w') (inv : w.Inv proxy) {id : String}
    (registered : FleetEvent.registered id ∈ w'.fleet.log) :
    FleetEvent.registered id ∈ w.fleet.log ∨
      ∃ hb, WritesHeartbeat w w' hb ∧ hb.incarnation = id := by
  have byWrite : ∀ {i : Nat} {c : FleetRunning} {read : Option MemberRecord},
      w'.fleet.writers = i :: w.fleet.writers → w.fleet.calls i = some c →
      FleetEvent.registered id ∈ c.call.note read w.fleet.log →
      FleetEvent.registered id ∈ w.fleet.log ∨
        ∃ hb, WritesHeartbeat w w' hb ∧ hb.incarnation = id := by
    intro i c read writers made noted
    refine (FleetCall.note_tells noted).imp_right ?_
    intro tells
    cases call : c.call with
    | heartbeat hb valid =>
      rw [call] at tells
      exact ⟨hb, ⟨i, c, valid, writers, made, call⟩, tells.symm⟩
    | retire | requestRetire | resolve | forget => rw [call] at tells; cases tells
  cases step with
  | fleet step =>
    cases step with
    | @fast i c hb valid cached runs call phase =>
      obtain ⟨-, -, unchanged⟩ := inv.fleet.fitting runs phase
      have seated := unchanged hb valid call
      unfold Heartbeat.unchanged at seated
      rw [Bool.and_eq_true, Option.any_eq_true] at seated
      obtain ⟨⟨cur, held, is_⟩, -⟩ := seated
      refine (registered_anew registered).imp_right fun other => absurd ?_ other
      rw [held, map_some, (of_decide_eq_true is_).1]
    | put runs | remove runs =>
      exact byWrite rfl runs registered
    | @cache i rev c write =>
      cases write with
      | put | remove => exact .inl registered
    | _ => exact .inl registered
  | _ => exact .inl registered

def MemberWorld.Seated (w : MemberWorld) : Prop :=
  ∀ cur, w.record.current = some cur → ¬ w.Replaced cur.id

theorem Replaced.before {id : String} (step : MemberStep path proxy w w') (inv : w.Inv proxy)
    (drawn : w.Drawn) (replaced : w'.Replaced id) :
    w.Replaced id ∨ ∃ hb, WritesHeartbeat w w' hb ∧ hb.incarnation ≠ id := by
  obtain ⟨later, registered, order⟩ := replaced
  rcases step.drawn_grows with same | ⟨new, unused, grows, quiet⟩
  · rw [same] at order
    rcases step.registers inv registered with old | ⟨hb, wrote, rfl⟩
    · exact .inl ⟨later, old, order⟩
    refine .inr ⟨hb, wrote, ?_⟩
    rintro rfl
    have twice := order.nodup drawn.nodup
    simp at twice
  rw [quiet] at registered
  rw [grows] at order
  rcases sublist_cons_iff.mp order with isIn | ⟨tail, split, -⟩
  · exact .inl ⟨later, registered, isIn⟩
  · rw [List.cons.injEq] at split
    exact absurd (split.1 ▸ drawn.registered later registered) unused

def MemberWorld.SeatDrawn (w : MemberWorld) : Prop :=
  ∀ cur, w.record.current = some cur → cur.id ∈ w.drawn

theorem MemberStep.seated (step : MemberStep path proxy w w') (inv : w.Inv proxy) (drawn : w.Drawn)
    (timely : Timely w w') (seatDrawn : w.SeatDrawn) (seated : w.Seated) :
    w'.SeatDrawn ∧ w'.Seated := by
  have wider : w.drawn ⊆ w'.drawn := by
    rcases step.drawn_grows with same | ⟨new, -, grows, -⟩
    · rw [same]
      exact List.Subset.refl _
    · rw [grows]
      exact subset_cons_self _ _
  -- a seat that was there before stays unreplaced while no other heartbeat is recorded
  have kept : (∀ hb, ¬ WritesHeartbeat w w' hb) → ∀ id,
      w.record.current.map Incarnation.id = some id → id ∈ w'.drawn ∧ ¬ w'.Replaced id := by
    intro quiet id was
    obtain ⟨cur, held, rfl⟩ := map_eq_some_iff.mp was
    refine ⟨wider (seatDrawn cur held), ?_⟩
    intro replaced
    rcases Replaced.before step inv drawn replaced with before | ⟨hb, wrote, -⟩
    · exact seated cur held before
    · exact quiet hb wrote
  cases step.recordStep inv with
  | same value writers =>
    have record : w'.record = w.record := record_value value
    have each : ∀ cur, w'.record.current = some cur → cur.id ∈ w'.drawn ∧ ¬ w'.Replaced cur.id := by
      intro cur held
      rw [record] at held
      exact kept (fun hb => no_write writers) cur.id (by rw [held]; rfl)
    exact ⟨fun cur held => (each cur held).1, fun cur held => (each cur held).2⟩
  | @heartbeat i c hb valid proxy' now forgotten rec writers made call ok value =>
    have record : w'.record = rec := record_value value
    have wrote : WritesHeartbeat w w' hb := ⟨i, c, valid, writers, made, call⟩
    have ofDrawn : hb.incarnation ∈ w.drawn := by
      have from_ := drawn.calls i c made hb.incarnation
      rw [call] at from_
      exact from_ rfl
    have own := (heartbeat_places (fun p mem => (check_previous valid p mem).2.1) ok).1
    have each : ∀ cur, w'.record.current = some cur → cur.id = hb.incarnation := by
      intro cur held
      rw [record] at held
      rw [held] at own
      exact some.inj own
    refine ⟨fun cur held => each cur held ▸ wider ofDrawn, ?_⟩
    intro cur held replaced
    rw [each cur held] at replaced
    rcases Replaced.before step inv drawn replaced with before | ⟨hb', wrote', other⟩
    · exact (timely hb wrote).1 before
    · exact other (congrArg Heartbeat.incarnation (same_write writers made call wrote'))
  | @other i c rec writers made call keeps value =>
    have record : w'.record = rec := record_value value
    have each : ∀ cur, w'.record.current = some cur → cur.id ∈ w'.drawn ∧ ¬ w'.Replaced cur.id := by
      intro cur held
      rw [record] at held
      exact kept (fun hb => other_write writers made call) cur.id (keeps.current cur held)
    exact ⟨fun cur held => (each cur held).1, fun cur held => (each cur held).2⟩
  | removed writers made call value =>
    have record : w'.record = {} := record_value value
    refine ⟨?_, ?_⟩
    · intro cur held
      rw [record] at held
      cases held
    intro cur held
    rw [record] at held
    cases held

structure MemberWorld.Orderly (proxy : String) (w : MemberWorld) : Prop where
  inv : w.Inv proxy
  drawn : w.Drawn
  nodup : w.record.places.Nodup
  seatDrawn : w.SeatDrawn
  seated : w.Seated

theorem timely_run_orderly (run : TimelyRun path proxy {} w) : w.Orderly proxy := by
  induction run with
  | refl =>
    refine ⟨member_start_inv, ⟨nodup_nil, ?_, ?_, ?_⟩, nodup_nil, ?_, ?_⟩
    · rintro call ⟨⟩
    · rintro i c ⟨⟩
    · rintro id ⟨⟩
    · rintro cur ⟨⟩
    · rintro cur ⟨⟩
  | tail _ both ih =>
    obtain ⟨step, timely⟩ := both
    obtain ⟨seatDrawn, seated⟩ := step.seated ih.inv ih.drawn timely ih.seatDrawn ih.seated
    exact ⟨step.inv ih.inv, step.drawn ih.inv ih.drawn,
      ((undisplaced_iff ih.inv ih.nodup step).mpr timely).1, seatDrawn, seated⟩

/-- In a run that records no heartbeat of a replaced or ended process, each incarnation has one
place and the current process was never replaced; from any state of such a run a step keeps it
so exactly when the heartbeat it records is timely. -/
theorem live_process_undisplaced (run : TimelyRun path proxy {} w) : w.record.places.Nodup ∧
    (∀ cur, w.record.current = some cur → ¬ w.Replaced cur.id) ∧
    ∀ w', MemberStep path proxy w w' → (Undisplaced w w' ↔ Timely w w') := by
  have orderly := timely_run_orderly run
  exact ⟨orderly.nodup, orderly.seated,
    fun w' step => undisplaced_iff orderly.inv orderly.nodup step⟩

end

theorem goes_quiet {w f : FleetWorld} {i : Nat} {c d : FleetRunning} {phase : FleetPhase}
    (runs : w.calls i = some d) (same : f.calls = w.calls) :
    ∀ j, w.calls j = none → (f.goes i c phase).calls j = none := by
  intro j none_
  change Function.update f.calls i _ j = none
  by_cases own : j = i
  · rw [own, runs] at none_
    cases none_
  · rw [update_of_ne own, same]
    exact none_

def firstID : String := "0123456789abcdef0123456789abcdef"

def secondID : String := "fedcba9876543210fedcba9876543210"

def firstBeat : Heartbeat := { incarnation := firstID, started := 3 }

def firstSeated : MemberRecord :=
  { joined := 7, current := some { id := firstID, started := 3, state := .active } }

def secondBeat : Heartbeat :=
  { incarnation := secondID
    started := 8
    previous := [{ id := firstID, started := 3, state := .unclean }] }

def secondSeated : MemberRecord :=
  { joined := 7
    current := some { id := secondID, started := 8, state := .active }
    unresolved := [{ id := firstID, started := 3, ended := 12, state := .unclean }] }

def firstAgain : MemberRecord :=
  { joined := 7
    current := some { id := firstID, started := 3, state := .active }
    unresolved :=
      [{ id := firstID, started := 3, ended := 12, state := .unclean },
        { id := secondID, started := 8, ended := 15, state := .unclean }] }

theorem firstBeat_valid : firstBeat.check = none := by decide

theorem secondBeat_valid : secondBeat.check = none := by decide

theorem firstBeat_recorded : MemberRecord.heartbeat "p1" 7 [] firstBeat {} = .ok firstSeated := by
  decide

theorem secondBeat_recorded : firstSeated.heartbeat "p1" 12 [] secondBeat = .ok secondSeated := by
  decide

theorem Timely.quiet {w w' : MemberWorld} (writers : w'.fleet.writers = w.fleet.writers) :
    Timely w w' :=
  fun _ wrote => absurd wrote (no_write writers)

/-- The first process registers and is killed, and its successor registers. -/
theorem second_process_undisplaced : ∃ w : MemberWorld,
    TimelyRun "/cache/incarnation.json" "p1" {} w ∧ w.record = secondSeated ∧
    w.record.places.Nodup ∧ ¬ w.Replaced secondID := by
  have run1 : TimelyRun "/cache/incarnation.json" "p1" {} _ :=
    .single ⟨.start rfl firstID (by decide) not_mem_nil rfl 3 5, .quiet rfl⟩
  have run2 := run1.tail ⟨.beat rfl rfl (by exact firstBeat_valid), .quiet rfl⟩
  have run3 := run2.tail ⟨.deliver (i := 0) rfl 0 (.heartbeat firstBeat firstBeat_valid)
    mem_cons_self, .quiet rfl⟩
  have run4 := run3.tail ⟨.fleet (.read (i := 0) rfl rfl) (goes_quiet rfl rfl), .quiet rfl⟩
  have run5 := run4.tail ⟨.fleet (.ready (i := 0) rfl rfl 7
    (congrArg (FleetWrite.put <$> ·) firstBeat_recorded)) (goes_quiet rfl rfl), .quiet rfl⟩
  have run6 := run5.tail ⟨.fleet (.put (i := 0) rfl rfl rfl true) (goes_quiet rfl rfl), by
    rintro hb -
    refine ⟨?_, not_mem_nil⟩
    rintro ⟨later, registered, -⟩
    cases registered⟩
  have run7 := run6.tail ⟨.stop rfl, .quiet rfl⟩
  have unused : secondID ∉ [firstID] := by decide
  have run8 := run7.tail ⟨.start rfl secondID (by decide) unused rfl 8 10, .quiet rfl⟩
  have run9 := run8.tail ⟨.beat rfl rfl (by exact secondBeat_valid), .quiet rfl⟩
  have run10 := run9.tail ⟨.deliver (i := 1) rfl 0 (.heartbeat secondBeat secondBeat_valid)
    mem_cons_self, .quiet rfl⟩
  have run11 := run10.tail ⟨.fleet (.forgotten (i := 1) rfl rfl) (goes_quiet rfl rfl), .quiet rfl⟩
  have run12 := run11.tail ⟨.fleet (.read (i := 1) rfl rfl) (goes_quiet rfl rfl), .quiet rfl⟩
  have run13 := run12.tail ⟨.fleet (.ready (i := 1) rfl rfl 12
    (congrArg (FleetWrite.put <$> ·) secondBeat_recorded)) (goes_quiet rfl rfl), .quiet rfl⟩
  have run14 := run13.tail ⟨.fleet (.put (i := 1) rfl rfl rfl true) (goes_quiet rfl rfl), by
    intro hb wrote
    have same : hb = secondBeat := same_write rfl rfl rfl wrote
    subst same
    refine ⟨?_, not_mem_nil⟩
    rintro ⟨later, registered, drawn⟩
    cases mem_singleton.mp (show FleetEvent.registered later ∈
      [.registered firstID] from registered)
    exact absurd drawn (by decide : ¬ [firstID, secondID].Sublist [secondID, firstID])⟩
  obtain ⟨places, seated, -⟩ := live_process_undisplaced run14
  exact ⟨_, run14, rfl, places, seated _ rfl⟩

theorem firstBeat_again : secondSeated.heartbeat "p1" 15 [] firstBeat = .ok firstAgain := by
  decide

theorem goes_later {w f : FleetWorld} {i : Nat} {c : FleetRunning} {phase : FleetPhase}
    (same : ∀ j, i < j → f.calls j = w.calls j) :
    ∀ j, i < j → (f.goes i c phase).calls j = w.calls j := by
  intro j above
  change Function.update f.calls i _ j = _
  rw [update_of_ne (by omega)]
  exact same j above

section

variable {path proxy : String} {start w : MemberWorld} {i node now : Nat} {hb : Heartbeat}
  {valid : hb.check = none} {rec : MemberRecord}

theorem heartbeat_arrives (run : MemberRun path proxy start w) (fresh : w.fleet.calls i = none)
    (cold : w.fleet.known node = {}) (sent : FleetCall.heartbeat hb valid ∈ w.sent)
    (kept : w.fleet.forgotten = []) :
    ∃ f, MemberRun path proxy start { w with fleet := f } ∧ f.reg = w.fleet.reg ∧
      f.known = w.fleet.known ∧ f.forgotten = [] ∧
      f.calls i = some ⟨node, .heartbeat hb valid, .reading 8 []⟩ ∧
      ∀ j, i < j → f.calls j = w.fleet.calls j := by
  have enters := run.tail (.deliver fresh node _ sent)
  have slow : (FleetCall.heartbeat hb valid).enter (w.fleet.known node) =
      (FleetCall.heartbeat hb valid).slow := by
    rw [cold]
    rfl
  unfold MemberWorld.enters at enters
  rw [slow] at enters
  have above : ∀ phase j, i < j →
      (w.fleet.goes i ⟨node, .heartbeat hb valid, .forgotten⟩ phase).calls j = w.fleet.calls j :=
    fun phase => goes_later fun _ _ => rfl
  by_cases none_ : hb.previous = []
  · have reads : (FleetCall.heartbeat hb valid).slow = .reading 8 [] := if_pos none_
    rw [reads] at enters
    exact ⟨_, enters, rfl, rfl, kept, update_self .., above _⟩
  have asks : (FleetCall.heartbeat hb valid).slow = .forgotten := if_neg none_
  rw [asks] at enters
  have at_ : (w.fleet.goes i ⟨node, .heartbeat hb valid, .forgotten⟩ .forgotten).calls i =
      some ⟨node, .heartbeat hb valid, .forgotten⟩ := update_self ..
  have asked := enters.tail (.fleet (.forgotten at_ rfl) (goes_quiet at_ rfl))
  have nil : (w.fleet.goes i ⟨node, .heartbeat hb valid, .forgotten⟩ .forgotten).forgotten = [] :=
    kept
  rw [nil] at asked
  exact ⟨_, asked, rfl, rfl, kept, update_self .., goes_later (above _)⟩

theorem heartbeat_lands (run : MemberRun path proxy start w) (fresh : w.fleet.calls i = none)
    (cold : w.fleet.known node = {}) (sent : FleetCall.heartbeat hb valid ∈ w.sent)
    (kept : w.fleet.forgotten = []) (ok : w.record.heartbeat proxy now [] hb = .ok rec) :
    ∃ f, MemberRun path proxy start { w with fleet := f } ∧ f.reg.value = some rec ∧
      f.known = w.fleet.known ∧ f.forgotten = [] ∧ ∀ j, i < j → f.calls j = w.fleet.calls j := by
  obtain ⟨f, arrived, reg, has, nil, at_, above⟩ := heartbeat_arrives run fresh cold sent kept
  have loads := arrived.tail (.fleet (.read at_ rfl) (goes_quiet at_ rfl))
  have applied : FleetCall.apply proxy now f.live [] (.heartbeat hb valid) f.reg.value =
      .ok (.put rec) := by
    rw [reg]
    change FleetWrite.put <$> w.record.heartbeat proxy now [] hb = _
    rw [ok]
    rfl
  have loaded : (f.goes i ⟨node, .heartbeat hb valid, .reading 8 []⟩
      (.loaded 7 [] f.reg.modRev f.reg.value)).calls i =
        some ⟨node, .heartbeat hb valid, .loaded 7 [] f.reg.modRev f.reg.value⟩ :=
    update_self ..
  have readies := loads.tail (.fleet (.ready loaded rfl now applied) (goes_quiet loaded rfl))
  have writes := readies.tail (.fleet (.put (update_self ..) rfl rfl true)
    (goes_quiet (update_self ..) rfl))
  exact ⟨_, writes, rfl, has, nil, goes_later (goes_later (goes_later above))⟩

end

/-- The first process's heartbeat comes again after the second registered: the first is current
and unresolved at once, and the second, still running, is listed as ended. -/
theorem late_heartbeat_displaces : ∃ w : MemberWorld,
    MemberRun "/cache/incarnation.json" "p1" {} w ∧
    w.process.map Process.incarnation = some secondID ∧ w.record = firstAgain := by
  have run1 : MemberRun "/cache/incarnation.json" "p1" {} _ :=
    .single (.start rfl firstID (by decide) not_mem_nil rfl 3 5)
  have run2 := run1.tail (.beat rfl rfl (by exact firstBeat_valid))
  obtain ⟨f, run3, value, has, kept, calls⟩ :=
    heartbeat_lands (i := 0) run2 rfl (Eq.refl (({} : FleetWorld).known 0))
      (mem_cons_self : FleetCall.heartbeat firstBeat firstBeat_valid ∈ _) rfl
      firstBeat_recorded
  have run4 := run3.tail (.stop rfl)
  have unused : secondID ∉ [firstID] := by decide
  have run5 := run4.tail (.start rfl secondID (by decide) unused rfl 8 10)
  have run6 := run5.tail (.beat rfl rfl (by exact secondBeat_valid))
  obtain ⟨g, run7, value', has', kept', calls'⟩ :=
    heartbeat_lands (i := 1) run6 (calls 1 (by decide)) (congrFun has 0)
      (mem_cons_self : FleetCall.heartbeat secondBeat secondBeat_valid ∈ _) kept
      (by
        rw [record_value value]
        exact secondBeat_recorded)
  obtain ⟨h, run8, value'', -⟩ :=
    heartbeat_lands (i := 2) run7 ((calls' 2 (by decide)).trans (calls 2 (by decide)))
      (congrFun (has'.trans has) 0)
      (mem_cons_of_mem _ mem_cons_self : FleetCall.heartbeat firstBeat firstBeat_valid ∈ _)
      kept' (by
        rw [record_value value']
        exact firstBeat_again)
  refine ⟨_, run8, rfl, ?_⟩
  rw [record_value value'']
  rfl

end Shunt.Member
