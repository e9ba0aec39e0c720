/-
The fleet record over whole runs of the calls on it: no accepted report falls out of
the record before its incarnation is named as ended, a record is removed only with
nothing unproven, and a refused call has written nothing.
-/

import Shunt.Cp.FleetCalls

namespace Shunt.Cp

open Library List Relation
open Function (update_of_ne update_self)

def FleetRunning.Fits (proxy : String) (w : FleetWorld) (i : Nat) (c : FleetRunning) : Prop :=
  match c.phase with
  | .fast cached => i ∉ w.writers ∧ Noted w.log cached.prevIDs ∧
      ∀ hb valid, c.call = .heartbeat hb valid → hb.unchanged cached = true
  | .forgotten => i ∉ w.writers
  | .reading _ forgotten => i ∉ w.writers ∧ ∀ id ∈ forgotten, named w.log id
  | .loaded _ forgotten rev read =>
    i ∉ w.writers ∧ (∀ id ∈ forgotten, named w.log id) ∧ w.reg.Saw rev read
  | .writing _ forgotten rev read write =>
    i ∉ w.writers ∧ (∀ id ∈ forgotten, named w.log id) ∧ w.reg.Saw rev read ∧
      ∃ now live, c.call.apply proxy now live forgotten read = .ok write
  | .landed _ _ | .noting _ => ∀ hb valid, c.call = .heartbeat hb valid →
      ∀ p ∈ hb.previous, Reported w.log p.id
  | .ended (.refused _) => i ∉ w.writers
  | .ended _ => True

structure FleetWorld.Inv (proxy : String) (w : FleetWorld) : Prop where
  evidence : Evidence w.log (w.reg.value.getD {})
  forgotten : ∀ id ∈ w.forgotten, named w.log id
  caches : ∀ node, Noted w.log (w.known node).prevIDs
  calls : ∀ i c, w.calls i = some c → c.Fits proxy w i
  writers : ∀ i ∈ w.writers, w.calls i ≠ none

section

variable {proxy : String} {w w' : FleetWorld} {i : Nat} {c : FleetRunning}
variable {phase : FleetPhase} {log : List FleetEvent} {call : FleetCall}
  {read : Option MemberRecord}

/-- A later world says all the earlier one said, and its key has only moved on. -/
structure FleetWorld.Before (w w' : FleetWorld) : Prop where
  log : w.log ⊆ w'.log
  reads : ∀ rev read, w.reg.Saw rev read → w'.reg.Saw rev read

theorem FleetRunning.Fits.mono (prev : w.Before w') (eq : i ∈ w'.writers → i ∈ w.writers)
    (fits : c.Fits proxy w i) : c.Fits proxy w' i := by
  have apart : i ∉ w.writers → i ∉ w'.writers := fun out isIn => out (eq isIn)
  have names : ∀ {ids : List String}, (∀ id ∈ ids, named w.log id) →
      ∀ id ∈ ids, named w'.log id :=
    fun each id mem => (each id mem).mono prev.log
  obtain ⟨node, call, phase⟩ := c
  cases phase with
  | fast => exact ⟨apart fits.1, fits.2.1.mono prev.log, fits.2.2⟩
  | forgotten => exact apart fits
  | reading => exact ⟨apart fits.1, names fits.2⟩
  | loaded =>
    exact ⟨apart fits.1, names fits.2.1, prev.reads _ _ fits.2.2⟩
  | writing =>
    exact ⟨apart fits.1, names fits.2.1, prev.reads _ _ fits.2.2.1, fits.2.2.2⟩
  | landed | noting =>
    exact fun hb valid is_ p mem => (fits hb valid is_ p mem).mono prev.log
  | ended outcome =>
    cases outcome with
    | refused => exact apart fits
    | done | granted | unavailable => trivial

theorem FleetWorld.goes_calls (calls : ∀ j d, w.calls j = some d → j ≠ i → d.Fits proxy w' j)
    (runs : w'.calls = w.calls)
    (fits : FleetRunning.Fits proxy w' i { c with phase := phase }) :
    ∀ j d, (w'.goes i c phase).calls j = some d → d.Fits proxy (w'.goes i c phase) j := by
  intro j d at_
  rcases update_some at_ with ⟨rfl, rfl⟩ | ⟨other, at_⟩
  · exact fits
  · rw [runs] at at_
    exact calls j d at_ other

theorem FleetWorld.goes_writers {writers : List Nat}
    (lt : ∀ j ∈ writers, j = i ∨ w.calls j ≠ none) :
    ∀ j ∈ writers, (w.goes i c phase).calls j ≠ none := by
  intro j mem
  change Function.update w.calls i _ j ≠ none
  by_cases eq : j = i
  · subst eq
    rw [update_self]
    exact Option.some_ne_none _
  · rw [update_of_ne eq]
    exact (lt j mem).resolve_left eq

theorem FleetWorld.Inv.goes (inv : w.Inv proxy)
    (fits : FleetRunning.Fits proxy w i { c with phase := phase }) :
    (w.goes i c phase).Inv proxy :=
  ⟨inv.evidence, inv.forgotten, inv.caches,
    goes_calls (fun j d at_ _ => inv.calls j d at_) rfl fits,
    goes_writers fun j mem => .inr (inv.writers j mem)⟩

theorem FleetWorld.Inv.keep {node : Nat} {cached : Cached} (inv : w.Inv proxy)
    (noted : Noted w.log cached.prevIDs) : (w.keep node cached).Inv proxy := by
  refine ⟨inv.evidence, inv.forgotten, ?_,
    fun j d at_ => (inv.calls j d at_).mono ⟨List.Subset.refl _, fun _ _ saw => saw⟩ id,
    inv.writers⟩
  intro other
  change Noted w.log (Function.update w.known node cached other).prevIDs
  rw [Function.update_apply]
  split
  · exact noted
  · exact inv.caches other

theorem Noted.empty : Noted log "" :=
  ⟨[], rfl, fun _ no => by cases no⟩

theorem FleetCall.slow_fits {node : Nat} (fresh : i ∉ w.writers) :
    FleetRunning.Fits proxy w i ⟨node, call, call.slow⟩ := by
  have reads : FleetRunning.Fits proxy w i ⟨node, call, .reading 8 []⟩ :=
    ⟨fresh, fun _ no => by cases no⟩
  cases call with
  | heartbeat hb valid =>
    by_cases none_ : hb.previous = []
    · have slow : (FleetCall.heartbeat hb valid).slow = .reading 8 [] := if_pos none_
      rw [slow]
      exact reads
    have slow : (FleetCall.heartbeat hb valid).slow = .forgotten := if_neg none_
    rw [slow]
    exact fresh
  | retire | requestRetire | resolve | forget => exact reads

theorem FleetCall.enter_fits {node : Nat} {cached : Cached}
    (fresh : i ∉ w.writers) (noted : Noted w.log cached.prevIDs) :
    FleetRunning.Fits proxy w i ⟨node, call, call.enter cached⟩ := by
  cases call with
  | heartbeat =>
    unfold FleetCall.enter
    dsimp only
    split
    · next unchanged =>
        refine ⟨fresh, noted, ?_⟩
        intro other otherValid eq
        cases eq
        exact unchanged
    · exact slow_fits fresh
  | retire | requestRetire | resolve | forget => exact slow_fits fresh

theorem Evidence.unchanged {rec : MemberRecord} {hb : Heartbeat}
    {cached : Cached} (ev : Evidence log rec) (valid : hb.check = none)
    (unchanged : hb.unchanged cached) (noted : Noted log cached.prevIDs) :
    Evidence (noteHeartbeat hb cached.record log) rec := by
  unfold Heartbeat.unchanged at unchanged
  rw [Bool.and_eq_true, Bool.or_eq_true, Option.any_eq_true] at unchanged
  obtain ⟨⟨cur, held, is_⟩, previous⟩ := unchanged
  have seated : cached.record.current.map Incarnation.id = some hb.incarnation := by
    rw [held, Option.map_some, (of_decide_eq_true is_).1]
  unfold noteHeartbeat
  dsimp only
  rw [if_pos seated]
  refine (ev.cleanAgain hb.previous).uncleanAgain ?_
  intro p mem
  have some_ : hb.previous.map Incarnation.id ≠ [] := by
    intro none_
    rw [map_eq_nil_iff.mp none_] at mem
    cases mem
  obtain ⟨ids, joined, each⟩ := noted
  have eq : hb.previous.map Incarnation.id = ids := by
    refine intercalate_injective ?_ (fun id isIn => (each id isIn).1) some_ ?_
    · intro id isIn
      obtain ⟨q, among, rfl⟩ := List.mem_map.mp isIn
      exact (check_previous valid q among).1
    rcases previous with none_ | cachedIDs
    · rw [List.isEmpty_iff.mp none_] at mem
      cases mem
    · exact (of_decide_eq_true cachedIDs).symm.trans joined
  have reported := (each p.id (eq ▸ List.mem_map_of_mem mem)).2
  exact reported.mono subset_notes

theorem map_ok {α β : Type} {f : α → β} {x : Except FleetError α} {b : β}
    (mapped : f <$> x = .ok b) : ∃ a, x = .ok a ∧ f a = b := by
  cases x with
  | error => cases mapped
  | ok a => exact ⟨a, rfl, Except.ok.inj mapped⟩

theorem FleetCall.put_evidence {now : Nat} {live : Bool} {forgotten : List String}
    {rec : MemberRecord} (ev : Evidence log (read.getD {})) (ended : ∀ id ∈ forgotten, named log id)
    (ok : call.apply proxy now live forgotten read = .ok (.put rec)) :
    Evidence (call.note read log) rec := by
  cases call with
  | heartbeat hb valid =>
    obtain ⟨a, ran, eq⟩ := map_ok ok
    cases eq
    exact ev.heartbeat ended (fun p mem => (check_previous valid p mem).2.1) ran
  | retire incarnation uncertain counted =>
    cases read with
    | none => cases ok
    | some =>
      obtain ⟨a, ran, eq⟩ := map_ok ok
      cases eq
      exact ev.retire counted ran
  | requestRetire =>
    cases read with
    | none => cases ok
    | some =>
      obtain ⟨a, ran, eq⟩ := map_ok ok
      cases eq
      exact ev.requestRetire ran
  | resolve =>
    cases read with
    | none => cases ok
    | some =>
      obtain ⟨a, ran, eq⟩ := map_ok ok
      cases eq
      exact ev.resolve ran
  | forget =>
    cases read with
    | none => cases ok
    | some =>
      obtain ⟨a, -, eq⟩ := map_ok ok
      cases eq

theorem FleetCall.remove_evidence {now : Nat} {live : Bool}
    {forgotten ended : List String} (ev : Evidence log (read.getD {}))
    (ok : call.apply proxy now live forgotten read = .ok (.remove ended)) :
    call = .forget ∧ (∀ id, ¬ (read.getD {}).Unproven id) ∧ (∀ id, ¬ owed log id) ∧
      ∀ id ∈ ended, named log id := by
  cases call with
  | heartbeat =>
    obtain ⟨a, -, eq⟩ := map_ok ok
    cases eq
  | retire | requestRetire | resolve =>
    cases read with
    | none => cases ok
    | some =>
      obtain ⟨a, -, eq⟩ := map_ok ok
      cases eq
  | forget =>
    cases read with
    | none => cases ok
    | some =>
      obtain ⟨a, ran, eq⟩ := map_ok ok
      cases eq
      obtain ⟨-, none_, nothing, names⟩ := ev.forget ran
      exact ⟨rfl, none_, nothing, names⟩

theorem FleetCall.subset_note : log ⊆ call.note read log := by
  cases call with
  | heartbeat => exact subset_noteHeartbeat
  | retire | resolve =>
    exact subset_cons_self _ _
  | requestRetire | forget => exact List.Subset.refl _

theorem FleetCall.cached_fits {write : FleetWrite}
    (reported : ∀ hb valid, c.call = .heartbeat hb valid → ∀ p ∈ hb.previous, Reported w.log p.id) :
    FleetRunning.Fits proxy w i { c with phase := c.call.cached write } := by
  obtain ⟨node, call, phase⟩ := c
  cases call with
  | heartbeat hb valid =>
    cases write with
    | remove => trivial
    | put rec =>
      by_cases none_ : hb.previous = []
      · have next : (FleetCall.heartbeat hb valid).cached (.put rec) =
            .ended (.granted (rec.grant hb)) := if_pos none_
        rw [next]
        trivial
      have next : (FleetCall.heartbeat hb valid).cached (.put rec) =
          .noting (rec.grant hb) := if_neg none_
      rw [next]
      exact reported
  | retire | requestRetire | resolve | forget => trivial

theorem replied_fits {told : Bool}
    (fits : FleetRunning.Fits proxy w i { c with phase := phase }) :
    FleetRunning.Fits proxy w i { c with phase := replied told phase } := by
  cases told with
  | true => exact fits
  | false => trivial

theorem FleetWorld.Inv.transact (inv : w.Inv proxy) (prev : w.Before w')
    (calls : w'.calls = w.calls) (has : w'.known = w.known)
    (writers : ∀ j ∈ w'.writers, j = i ∨ j ∈ w.writers)
    (evidence : Evidence w'.log (w'.reg.value.getD {}))
    (forgotten : ∀ id ∈ w'.forgotten, named w'.log id)
    (fits : FleetRunning.Fits proxy w' i { c with phase := phase }) :
    (w'.goes i c phase).Inv proxy := by
  refine ⟨evidence, forgotten, ?_, ?_, ?_⟩
  · intro node
    change Noted w'.log (w'.known node).prevIDs
    rw [has]
    exact (inv.caches node).mono prev.log
  · refine goes_calls (w := w) ?_ calls fits
    intro j d at_ other
    refine (inv.calls j d at_).mono prev ?_
    intro mem
    exact (writers j mem).resolve_left other
  refine goes_writers ?_
  intro j mem
  rw [calls]
  exact (writers j mem).imp id fun earlier => inv.writers j earlier

theorem FleetWorld.Inv.fitting (inv : w.Inv proxy)
    (runs : w.calls i = some c) (at_ : c.phase = phase) :
    FleetRunning.Fits proxy w i { c with phase := phase } := by
  subst at_
  exact inv.calls i c runs

theorem FleetStep.inv (step : FleetStep proxy w w') (inv : w.Inv proxy) : w'.Inv proxy := by
  cases step with
  | elsewhere =>
    have prev : w.Before { w with reg := w.reg.tick } :=
      ⟨List.Subset.refl _, fun _ _ saw => Register.Saw.tick saw⟩
    exact ⟨inv.evidence, inv.forgotten, inv.caches,
      fun j d at_ => (inv.calls j d at_).mono prev id, inv.writers⟩
  | expire =>
    have prev : w.Before { w with live := false } := ⟨List.Subset.refl _, fun _ _ saw => saw⟩
    exact ⟨inv.evidence, inv.forgotten, inv.caches,
      fun j d at_ => (inv.calls j d at_).mono prev id, inv.writers⟩
  | restart => exact inv.keep Noted.empty
  | enter fresh node =>
    refine inv.goes (FleetCall.enter_fits ?_ (inv.caches node))
    intro wrote
    exact inv.writers _ wrote fresh
  | stop => exact inv.goes trivial
  | @fast i c hb valid cached runs call phase =>
    obtain ⟨out, noted, unchanged⟩ := inv.fitting runs phase
    refine inv.transact ⟨subset_noteHeartbeat, fun _ _ saw => saw.tick⟩ rfl rfl
      (fun j mem => .inr mem)
      (inv.evidence.unchanged valid (unchanged hb valid call) noted)
      (fun id mem => (inv.forgotten id mem).mono subset_noteHeartbeat) ?_
    exact replied_fits trivial
  | fastLost runs phase =>
    exact inv.goes (FleetCall.slow_fits (inv.fitting runs phase).1)
  | forgotten runs phase =>
    exact inv.goes ⟨inv.fitting runs phase, inv.forgotten⟩
  | read runs phase =>
    have fits := inv.fitting runs phase
    exact inv.goes ⟨fits.1, fits.2, Register.saw_now⟩
  | refuse runs phase => exact inv.goes (inv.fitting runs phase).1
  | ready runs phase now ok =>
    have fits := inv.fitting runs phase
    exact inv.goes ⟨fits.1, fits.2.1, fits.2.2, now, w.live, ok⟩
  | @put i tries rev c forgotten read rec runs phase eq =>
    obtain ⟨out, names, saw, now, live, ok⟩ := inv.fitting runs phase
    have current : Evidence w.log (read.getD {}) := saw.same eq ▸ inv.evidence
    refine inv.transact ⟨FleetCall.subset_note, fun _ _ seen => seen.put⟩ rfl rfl
      (fun j mem => mem_cons.mp mem)
      (FleetCall.put_evidence current names ok)
      (fun id mem => (inv.forgotten id mem).mono FleetCall.subset_note)
      (replied_fits ?_)
    intro hb valid is_ p mem
    change Reported (c.call.note read w.log) p.id
    rw [is_]
    exact noteHeartbeat_reports valid p mem
  | @remove i tries rev c forgotten ended read runs phase eq =>
    obtain ⟨out, names, saw, now, live, ok⟩ := inv.fitting runs phase
    have current : Evidence w.log (read.getD {}) := saw.same eq ▸ inv.evidence
    obtain ⟨is_, -, nothing, proved⟩ := FleetCall.remove_evidence current ok
    have quiet : c.call.note read w.log = w.log := by rw [is_]; rfl
    refine inv.transact ⟨FleetCall.subset_note, fun _ _ seen => seen.remove⟩ rfl rfl
      (fun j mem => mem_cons.mp mem) ?_ ?_ (replied_fits ?_)
    · change Evidence (c.call.note read w.log) {}
      rw [quiet]
      exact Evidence.empty nothing
    · change ∀ id ∈ ended, named (c.call.note read w.log) id
      rw [quiet]
      exact proved
    intro hb valid other
    rw [is_] at other
    cases other
  | lose runs phase =>
    have fits := inv.fitting runs phase
    exact inv.goes ⟨fits.1, fits.2.1⟩
  | @cache i rev c write runs phase =>
    have reported := inv.fitting runs phase
    cases write with
    | put rec =>
      have kept : (w.cache c.node rev (.put rec)).Inv proxy := inv.keep (inv.caches c.node)
      exact kept.goes (FleetCall.cached_fits reported)
    | remove ended =>
      have kept : (w.cache c.node rev (.remove ended)).Inv proxy := inv.keep Noted.empty
      exact kept.goes (FleetCall.cached_fits reported)
  | @note i c hb valid grant runs call phase =>
    have reported := inv.fitting runs phase hb valid call
    refine (inv.keep ⟨hb.previous.map Incarnation.id, rfl, ?_⟩).goes trivial
    intro id mem
    obtain ⟨p, among, rfl⟩ := List.mem_map.mp mem
    exact ⟨(check_previous valid p among).1, reported p among⟩

theorem fleet_start_inv : FleetWorld.Inv proxy {} := by
  refine ⟨Evidence.empty fun _ no => no, ?_, fun _ => Noted.empty, ?_, ?_⟩
  · rintro id ⟨⟩
  · rintro i c ⟨⟩
  · rintro i ⟨⟩

theorem fleet_run_inv (run : ReflTransGen (FleetStep proxy) {} w) : w.Inv proxy := by
  induction run with
  | refl => exact fleet_start_inv
  | tail _ step ih => exact step.inv ih

theorem FleetStep.writes (step : FleetStep proxy w w') (inv : w.Inv proxy) :
    (w'.reg.value = w.reg.value ∧ w'.writers = w.writers) ∨
      (∃ i, w'.writers = i :: w.writers) ∧
      ∀ rec, w.reg.value = some rec → w'.reg.value = none → w.live = false ∧ rec.unproven = [] := by
  cases step with
  | @put i =>
    refine .inr ⟨⟨i, rfl⟩, ?_⟩
    rintro old _ ⟨⟩
  | @remove i tries rev c forgotten ended read runs phase eq silent =>
    obtain ⟨-, -, saw, now, live, ok⟩ := inv.fitting runs phase
    have read_is := saw.same eq
    refine .inr ⟨⟨i, rfl⟩, ?_⟩
    intro rec held _
    have current : Evidence w.log (read.getD {}) := read_is ▸ inv.evidence
    obtain ⟨-, none_, -⟩ := FleetCall.remove_evidence current ok
    refine ⟨silent, eq_nil_iff_forall_not_mem.mpr ?_⟩
    intro inc mem
    rw [← read_is, held] at none_
    exact none_ inc.id (mem_unproven.mp ⟨inc, mem, rfl⟩)
  | @cache i rev c write =>
    cases write with
    | put | remove => exact .inl ⟨rfl, rfl⟩
  | _ => exact .inl ⟨rfl, rfl⟩

/-- Over every run: what the history owes is in the record, running or unresolved; a record
is removed only with nothing unproven; every change of the record is the write of one call,
and a refused call has made none. -/
theorem fleet_evidence_kept (run : ReflTransGen (FleetStep proxy) {} w) :
    (∀ id, owed w.log id → ∃ rec, w.reg.value = some rec ∧ rec.Unproven id) ∧
    (∀ w', FleetStep proxy w w' → (w'.reg.value ≠ w.reg.value → ∃ i, w'.writers = i :: w.writers) ∧
      ∀ rec, w.reg.value = some rec → w'.reg.value = none → w.live = false ∧ rec.unproven = []) ∧
    ∀ i c e, w.calls i = some c → c.phase = .ended (.refused e) → i ∉ w.writers := by
  have inv := fleet_run_inv run
  refine ⟨?_, ?_, ?_⟩
  · intro id owes
    have place := inv.evidence.kept id owes
    cases held : w.reg.value with
    | none =>
      rw [held] at place
      rcases place with ⟨cur, no, -⟩ | ⟨inc, no, -⟩
      · cases no
      · cases no
    | some rec =>
      rw [held] at place
      exact ⟨rec, rfl, place⟩
  · intro w' step
    rcases step.writes inv with ⟨eq, -⟩ | ⟨wrote, removed⟩
    · refine ⟨fun diff => absurd eq diff, ?_⟩
      intro rec held gone
      rw [eq, held] at gone
      cases gone
    · exact ⟨fun _ => wrote, removed⟩
  · intro i c e runs refused
    exact inv.fitting runs refused

end

def firstHeartbeat : Heartbeat := { incarnation := "0123456789abcdef0123456789abcdef" }

def secondHeartbeat : Heartbeat := { incarnation := "fedcba9876543210fedcba9876543210" }

/-- A successor registers, and the first incarnation stays in the record, unresolved. -/
theorem succeeded_kept : ∃ w, ReflTransGen (FleetStep "p1") {} w ∧ ∃ rec, w.reg.value = some rec ∧
      rec.current.map Incarnation.id = some secondHeartbeat.incarnation ∧
      rec.Unproven firstHeartbeat.incarnation := by
  have run1 : ReflTransGen (FleetStep "p1") {} _ :=
    .single (.enter (i := 0) rfl 0 (.heartbeat firstHeartbeat (by decide)))
  have run2 := run1.tail (.read (i := 0) rfl rfl)
  have run3 := run2.tail (.ready (i := 0) rfl rfl 7 rfl)
  have run4 := run3.tail (.put (i := 0) rfl rfl rfl false)
  have run5 := run4.tail (.enter (i := 1) rfl 0 (.heartbeat secondHeartbeat (by decide)))
  have run6 := run5.tail (.read (i := 1) rfl rfl)
  have run7 := run6.tail (.ready (i := 1) rfl rfl 9 rfl)
  have run8 := run7.tail (.put (i := 1) rfl rfl rfl true)
  obtain ⟨rec, held, unproven⟩ := (fleet_evidence_kept run8).1 firstHeartbeat.incarnation
    (Or.inr (Or.inr ⟨Or.inl rfl, id⟩))
  cases held
  exact ⟨_, run8, _, rfl, rfl, unproven⟩

end Shunt.Cp
