/-
What the fleet record owes.  The accepted calls leave a history of what was said of
each incarnation: that it is the current process, that it ended unclean, that it
retired cleanly, that an operator resolved it.  An incarnation is owed a place in the
record from the first two on, until one of the last two names it; every function that
changes the record keeps that place.
-/

import Shunt.Cp.Fleet

namespace Shunt.Cp

open List
open Option hiding join

inductive FleetEvent where
  | registered (id : String)
  | unclean (id : String)
  | retired (id : String)
  | resolved (id : String)
deriving DecidableEq

/-- A clean retirement report, or an operator's resolution. -/
def FleetEvent.ends (id : String) : FleetEvent → Prop
  | .retired x => x = id
  | .resolved x => x = id
  | _ => False

def named (log : List FleetEvent) (id : String) : Prop := ∃ e ∈ log, e.ends id

/-- The history owes the incarnation a place in the record: it was registered, or reported
as having ended unclean before anything had named it, and nothing named it since. -/
def owed : List FleetEvent → String → Prop
  | [], _ => False
  | e :: log, id =>
    e = .registered id ∨ e = .unclean id ∧ ¬ named log id ∨ owed log id ∧ ¬ e.ends id

section

variable {log : List FleetEvent} {e : FleetEvent} {id x : String}

theorem named_cons : named (e :: log) id ↔ e.ends id ∨ named log id := by
  simp only [named, mem_cons, exists_eq_or_imp]

theorem named.mono {log' : List FleetEvent} (subset : log ⊆ log') (earlier : named log id) :
    named log' id := by
  obtain ⟨e, mem, ends⟩ := earlier
  exact ⟨e, subset mem, ends⟩

theorem named.later (earlier : named log id) : named (e :: log) id :=
  named_cons.mpr (.inr earlier)

theorem owed_registered : owed (.registered x :: log) id ↔ x = id ∨ owed log id := by
  simp only [owed, FleetEvent.registered.injEq, FleetEvent.ends, reduceCtorEq, false_and,
    not_false_eq_true, and_true, false_or]

theorem owed_unclean : owed (.unclean x :: log) id ↔ x = id ∧ ¬ named log id ∨ owed log id := by
  simp only [owed, FleetEvent.unclean.injEq, FleetEvent.ends, reduceCtorEq, not_false_eq_true,
    and_true, false_or]

theorem owed_retired : owed (.retired x :: log) id ↔ owed log id ∧ x ≠ id := by
  simp only [owed, FleetEvent.ends, reduceCtorEq, false_and, false_or, ne_eq]

theorem owed_resolved : owed (.resolved x :: log) id ↔ owed log id ∧ x ≠ id := by
  simp only [owed, FleetEvent.ends, reduceCtorEq, false_and, false_or, ne_eq]

theorem owed_of_reported (reported : FleetEvent.unclean id ∈ log) (open_ : ¬ named log id) :
    owed log id := by
  induction log with
  | nil => cases reported
  | cons e log ih =>
    rw [named_cons, not_or] at open_
    rcases mem_cons.mp reported with rfl | earlier
    · exact .inr (.inl ⟨rfl, open_.2⟩)
    · exact .inr (.inr ⟨ih earlier open_.2, open_.1⟩)

end

def MemberRecord.Unproven (rec : MemberRecord) (id : String) : Prop :=
  (∃ cur, rec.current = some cur ∧ cur.id = id ∧ cur.state = .active) ∨
    ∃ inc ∈ rec.unresolved, inc.id = id

/-- A record that carries what its history owes, and takes for ended only what it named. -/
structure Evidence (log : List FleetEvent) (rec : MemberRecord) : Prop where
  kept : ∀ id, owed log id → rec.Unproven id
  retired : ∀ cur, rec.current = some cur → cur.state ≠ .active → named log cur.id
  resolved : ∀ inc ∈ rec.resolved, named log inc.id

section

open MemberRecord

variable {log : List FleetEvent} {rec rec' : MemberRecord} {p cur inc : Incarnation}
    {hb : Heartbeat}
  {proxy incarnation attestation actor : String} {now : Nat} {forgotten : List String}
  {uncertain : Int} {live : Bool}
variable {id : String} {kind : Incarnation → Bool} {previous : List Incarnation}

theorem Evidence.empty (nothing : ∀ id, ¬ owed log id) : Evidence log {} := by
  refine ⟨fun id owes => absurd owes (nothing id), ?_, ?_⟩
  · rintro cur ⟨⟩
  · rintro inc ⟨⟩

theorem mem_unproven : (∃ inc ∈ rec.unproven, inc.id = id) ↔ rec.Unproven id := by
  simp only [unproven, Unproven, mem_append, or_and_right, exists_or, mem_toList,
    filter_eq_some_iff, decide_eq_true_eq]
  constructor
  · rintro (⟨cur, ⟨current, active⟩, eq⟩ | unresolved)
    · exact .inl ⟨cur, current, eq, active⟩
    · exact .inr unresolved
  rintro (⟨cur, current, eq, active⟩ | unresolved)
  · exact .inl ⟨cur, ⟨current, active⟩, eq⟩
  · exact .inr unresolved

variable (ev : Evidence log rec)

include ev

theorem Evidence.known (known : rec.knows id) : rec.Unproven id ∨ named log id := by
  simp only [knows, Bool.or_eq_true, decide_eq_true_eq, List.any_eq_true] at known
  rcases known with (current | ⟨inc, mem, eq⟩) | ⟨inc, mem, eq⟩
  · obtain ⟨cur, held, eq⟩ := map_eq_some_iff.mp current
    by_cases active : cur.state = .active
    · exact .inl (.inl ⟨cur, held, eq, active⟩)
    · exact .inr (eq ▸ ev.retired cur held active)
  · exact .inl (.inr ⟨inc, mem, eq⟩)
  · exact .inr (eq ▸ ev.resolved inc mem)

theorem Evidence.weaken (places : ∀ id, rec.Unproven id → rec'.Unproven id)
    (current : ∀ cur, rec'.current = some cur → cur.state ≠ .active →
      ∃ old, rec.current = some old ∧ old.id = cur.id ∧ old.state ≠ .active)
    (resolved : rec'.resolved = rec.resolved) : Evidence log rec' := by
  refine ⟨fun id owes => places id (ev.kept id owes), ?_, ?_⟩
  · intro cur held ended
    obtain ⟨old, was, eq, done⟩ := current cur held ended
    exact eq ▸ ev.retired old was done
  intro inc mem
  rw [resolved] at mem
  exact ev.resolved inc mem

theorem Evidence.unclean (carried : rec.Unproven id ∨ named log id) :
    Evidence (.unclean id :: log) rec := by
  refine ⟨?_, fun cur held ended => (ev.retired cur held ended).later,
    fun inc mem => (ev.resolved inc mem).later⟩
  intro other owes
  rcases owed_unclean.mp owes with ⟨eq, open_⟩ | earlier
  · subst eq
    exact carried.resolve_right open_
  · exact ev.kept other earlier

theorem Evidence.end_ {e : FleetEvent} (ends : e.ends id)
    (places : ∀ other, other ≠ id → rec.Unproven other → rec'.Unproven other)
    (current : ∀ cur, rec'.current = some cur → cur.state ≠ .active →
      cur.id = id ∨ ∃ old, rec.current = some old ∧ old.id = cur.id ∧ old.state ≠ .active)
    (resolved : ∀ inc ∈ rec'.resolved, inc.id = id ∨ inc ∈ rec.resolved) :
    Evidence (e :: log) rec' := by
  have names : named (e :: log) id := named_cons.mpr (.inl ends)
  refine ⟨?_, ?_, ?_⟩
  · intro other owes
    have both : owed log other ∧ other ≠ id := by
      cases e with
      | registered | unclean => exact ends.elim
      | retired =>
        obtain ⟨earlier, ne⟩ := owed_retired.mp owes
        exact ⟨earlier, fun eq => ne (Eq.trans ends eq.symm)⟩
      | resolved =>
        obtain ⟨earlier, ne⟩ := owed_resolved.mp owes
        exact ⟨earlier, fun eq => ne (Eq.trans ends eq.symm)⟩
    exact places other both.2 (ev.kept other both.1)
  · intro cur held ended
    rcases current cur held ended with eq | ⟨old, was, eq, done⟩
    · exact eq ▸ names
    · exact eq ▸ (ev.retired old was done).later
  intro inc mem
  rcases resolved inc mem with eq | earlier
  · exact eq ▸ names
  · exact (ev.resolved inc earlier).later

omit ev in
theorem addUnresolved_ok (added : rec.addUnresolved inc = some rec') :
    rec' = { rec with unresolved := rec.unresolved ++ [inc] } := by
  unfold addUnresolved at added
  split at added
  · cases added
  · exact (some.inj added).symm

theorem Evidence.grow : Evidence log { rec with unresolved := rec.unresolved ++ [inc] } := by
  refine ev.weaken ?_ (fun cur held done => ⟨cur, held, rfl, done⟩) rfl
  rintro other (current | ⟨entry, mem, eq⟩)
  · exact .inl current
  · exact .inr ⟨entry, mem_append_left _ mem, eq⟩

theorem Evidence.park (held : rec.current = some cur) (eq : inc.id = cur.id) :
    Evidence log { rec with current := none, unresolved := rec.unresolved ++ [inc] } := by
  refine ev.weaken ?_ (fun cur no => by cases no) rfl
  rintro other (⟨old, was, its, -⟩ | ⟨entry, mem, its⟩)
  · rw [held, Option.some.injEq] at was
    subst was
    exact .inr ⟨inc, mem_append_right _ (mem_singleton.mpr rfl), eq.trans its⟩
  · exact .inr ⟨entry, mem_append_left _ mem, its⟩

theorem Evidence.endHeld {e : FleetEvent} (held : rec.current = some cur)
    (ends : e.ends cur.id) (resolved : ∀ inc ∈ rec'.resolved, inc.id = cur.id ∨ inc ∈ rec.resolved)
    (unresolved : rec'.unresolved = rec.unresolved)
    (post : ∀ next, rec'.current = some next → next.id = cur.id) : Evidence (e :: log) rec' := by
  refine ev.end_ ends ?_ (fun next is_ _ => .inl (post next is_)) resolved
  rintro other ne (⟨old, was, its, -⟩ | ⟨entry, mem, its⟩)
  · rw [held, Option.some.injEq] at was
    subst was
    exact absurd its.symm ne
  · exact .inr ⟨entry, unresolved ▸ mem, its⟩

theorem Evidence.endAgain {e : FleetEvent} (ends : e.ends id) : Evidence (e :: log) rec :=
  ev.end_ ends (fun _ _ kept => kept) (fun cur held done => .inr ⟨cur, held, rfl, done⟩)
    (fun _ mem => .inr mem)

def noteIf (kind : Incarnation → Bool) (event : String → FleetEvent) (log : List FleetEvent)
    (p : Incarnation) : List FleetEvent :=
  if kind p then event p.id :: log else log

def noteClean : List FleetEvent → Incarnation → List FleetEvent := noteIf Incarnation.clean .retired

def noteUnclean : List FleetEvent → Incarnation → List FleetEvent :=
  noteIf Incarnation.endedUnclean .unclean

def noteHeartbeat (hb : Heartbeat) (rec : MemberRecord) (log : List FleetEvent) : List FleetEvent :=
  let told := hb.previous.foldl noteClean log
  let seated :=
    if rec.current.map Incarnation.id = some hb.incarnation then told
    else .registered hb.incarnation :: told
  hb.previous.foldl noteUnclean seated

variable {event : String → FleetEvent}

omit ev in
theorem subset_noteIf : log ⊆ noteIf kind event log p := by
  unfold noteIf
  split
  · exact subset_cons_self _ _
  · exact List.Subset.refl _

omit ev in
theorem subset_notes : log ⊆ previous.foldl (noteIf kind event) log := by
  induction previous generalizing log with
  | nil => exact List.Subset.refl _
  | cons p rest ih => exact List.Subset.trans subset_noteIf ih

omit ev in
theorem mem_notes (mem : p ∈ previous) (is_ : kind p) :
    event p.id ∈ previous.foldl (noteIf kind event) log := by
  induction previous generalizing log with
  | nil => cases mem
  | cons first rest ih =>
    rcases mem_cons.mp mem with rfl | later
    · have noted : event p.id ∈ noteIf kind event log p := by
        unfold noteIf
        rw [if_pos is_]
        exact mem_cons_self
      rw [foldl_cons]
      exact subset_notes noted
    · exact ih later

omit ev in
theorem subset_noteHeartbeat : log ⊆ noteHeartbeat hb rec log := by
  unfold noteHeartbeat
  dsimp only
  split
  · exact List.Subset.trans subset_notes subset_notes
  · exact List.Subset.trans subset_notes (List.Subset.trans (subset_cons_self _ _) subset_notes)

theorem Evidence.join : Evidence log (rec.join now) := by
  unfold MemberRecord.join
  split
  · exact ⟨ev.kept, ev.retired, ev.resolved⟩
  · exact ev

theorem Evidence.discharge : Evidence (noteClean log p) (rec.discharge p) := by
  unfold MemberRecord.discharge noteClean noteIf
  split
  · refine ev.end_ rfl ?_ (fun cur held ended => .inr ⟨cur, held, rfl, ended⟩)
      (fun inc mem => .inr mem)
    rintro other ne (current | ⟨inc, mem, eq⟩)
    · exact .inl current
    refine .inr ⟨inc, List.mem_filter.mpr ⟨mem, ?_⟩, eq⟩
    rw [decide_eq_true_eq, eq]
    exact ne
  · exact ev

theorem Evidence.reported (held : rec.current = some cur)
    (eq : cur.id = p.id) (active : cur.state = .active) :
    Evidence (noteClean log p) { rec with current := some (reported now cur p) } := by
  unfold MemberRecord.reported noteClean noteIf
  split
  · refine ev.endHeld held eq.symm (fun inc mem => .inr mem) rfl ?_
    intro post is_
    cases is_
    rfl
  refine ev.weaken ?_ ?_ rfl
  · rintro other (⟨old, was, its, -⟩ | unresolved)
    · rw [held, Option.some.injEq] at was
      subst was
      exact .inl ⟨_, rfl, its, active⟩
    · exact .inr unresolved
  intro post is_ ended
  cases is_
  exact absurd active ended

theorem Evidence.takeReport (other : p.id ≠ incarnation) :
    Evidence (noteClean log p) (takeReport now incarnation rec p) := by
  unfold MemberRecord.takeReport
  rw [if_neg other]
  cases held : rec.current with
  | none => exact ev.discharge
  | some =>
    dsimp only
    split
    · next runs => exact ev.reported held runs.1 runs.2
    · exact ev.discharge

omit ev in
theorem Evidence.takeReports (others : ∀ p ∈ previous, p.id ≠ incarnation) (ev : Evidence log rec) :
    Evidence (previous.foldl noteClean log)
      (previous.foldl (MemberRecord.takeReport now incarnation) rec) := by
  induction previous generalizing log rec with
  | nil => exact ev
  | cons p rest ih =>
    exact ih (fun q mem => others q (mem_cons_of_mem p mem))
      (ev.takeReport (others p mem_cons_self))

omit ev in
theorem takeReport_current : (takeReport now incarnation rec p).current.map Incarnation.id =
      rec.current.map Incarnation.id := by
  have discharged : (rec.discharge p).current = rec.current := by
    unfold discharge
    split <;> rfl
  unfold takeReport
  split
  · rfl
  cases held : rec.current with
  | none => rw [discharged, held]
  | some =>
    dsimp only
    split
    · unfold reported
      split <;> rfl
    · rw [discharged, held]

omit ev in
theorem takeReports_current (previous : List Incarnation) :
    (previous.foldl (takeReport now incarnation) rec).current.map Incarnation.id =
      rec.current.map Incarnation.id := by
  induction previous generalizing rec with
  | nil => rfl
  | cons p rest ih => rw [foldl_cons, ih, takeReport_current]

theorem Evidence.endCurrent (ended : rec.endCurrent proxy now incarnation = .ok rec') :
    Evidence log rec' ∧ rec'.current =
      if rec.current.map Incarnation.id = some incarnation then rec.current else none := by
  unfold MemberRecord.endCurrent at ended
  cases held : rec.current with
  | none =>
    rw [held] at ended
    cases ended
    exact ⟨ev, by rw [held]; rfl⟩
  | some cur =>
    rw [held] at ended
    dsimp only at ended
    split at ended
    · next eq =>
        cases ended
        exact ⟨ev, by rw [held, map_some, eq, if_pos rfl]⟩
    next ne =>
    have unseated : (if Option.map Incarnation.id (some cur) = some incarnation
        then some cur else none) = none :=
      if_neg fun eq => ne (some.inj eq)
    rw [unseated]
    split at ended
    · next active =>
        split at ended
        · cases ended
        next added adds =>
          cases ended
          rw [addUnresolved_ok adds]
          exact ⟨ev.park held rfl, rfl⟩
    next done =>
      cases ended
      refine ⟨ev.weaken ?_ (fun cur no => by cases no) rfl, rfl⟩
      rintro other (⟨old, was, -, active⟩ | unresolved)
      · rw [held, Option.some.injEq] at was
        subst was
        exact absurd active done
      · exact .inr unresolved

theorem Evidence.register (free : rec.current = none) :
    Evidence (.registered hb.incarnation :: log) (rec.register hb) := by
  unfold MemberRecord.register
  rw [free]
  refine ⟨?_, ?_, fun inc mem => (ev.resolved inc mem).later⟩
  · intro other owes
    rcases owed_registered.mp owes with eq | earlier
    · exact .inl ⟨_, rfl, eq, rfl⟩
    rcases ev.kept other earlier with ⟨cur, held, -⟩ | unresolved
    · rw [free] at held
      cases held
    · exact .inr unresolved
  rintro cur held ended
  cases held
  exact absurd rfl ended

theorem Evidence.addReport (ended : ∀ id ∈ forgotten, named log id)
    (added : rec.addReport proxy now forgotten p = .ok rec') :
    Evidence (noteUnclean log p) rec' := by
  unfold MemberRecord.addReport at added
  unfold noteUnclean noteIf
  split at added
  · next known =>
      cases added
      split
      · refine ev.unclean ?_
        rcases known with known | forgot
        · exact ev.known known
        · exact .inr (ended p.id forgot)
      · exact ev
  split at added
  · next unclean =>
      rw [if_pos unclean]
      split at added
      · cases added
      next grown adds =>
        cases added
        rw [addUnresolved_ok adds]
        exact ev.grow.unclean (.inl (.inr ⟨_, mem_append_right _ (mem_singleton.mpr rfl), rfl⟩))
  · next clean =>
      cases added
      rw [if_neg clean]
      exact ev

theorem Evidence.addReports (ended : ∀ id ∈ forgotten, named log id)
    (added : previous.foldlM (MemberRecord.addReport proxy now forgotten) rec = .ok rec') :
    Evidence (previous.foldl noteUnclean log) rec' := by
  induction previous generalizing log rec with
  | nil =>
    cases added
    exact ev
  | cons p rest ih =>
    rw [foldlM_cons] at added
    cases first : rec.addReport proxy now forgotten p with
    | error =>
      rw [first] at added
      cases added
    | ok =>
      rw [first] at added
      exact ih (ev.addReport ended first)
        (fun id forgot => (ended id forgot).mono subset_noteIf) added

omit ev in
theorem join_current : (rec.join now).current = rec.current := by
  unfold MemberRecord.join
  split <;> rfl

theorem Evidence.heartbeat (ended : ∀ id ∈ forgotten, named log id)
    (others : ∀ p ∈ hb.previous, p.id ≠ hb.incarnation)
    (ok : rec.heartbeat proxy now forgotten hb = .ok rec') :
    Evidence (noteHeartbeat hb rec log) rec' := by
  unfold MemberRecord.heartbeat at ok
  generalize is_ : hb.previous.foldl (MemberRecord.takeReport now hb.incarnation) (rec.join now) =
    told at ok
  have evTold : Evidence _ told := is_ ▸ ev.join.takeReports others
  have seat : told.current.map Incarnation.id = rec.current.map Incarnation.id := by
    rw [← is_, takeReports_current, join_current]
  cases freed : told.endCurrent proxy now hb.incarnation with
  | error =>
    dsimp only at ok
    rw [freed] at ok
    cases ok
  | ok free =>
    dsimp only at ok
    rw [freed] at ok
    obtain ⟨evidence, current⟩ := evTold.endCurrent freed
    rw [seat] at current
    unfold noteHeartbeat
    dsimp only
    split
    · next eq =>
        rw [if_pos eq] at current
        have unchanged : free.register hb = free := by
          unfold MemberRecord.register
          rw [current]
          cases held : told.current with
          | none =>
            rw [← seat, held] at eq
            cases eq
          | some => rfl
        change hb.previous.foldlM _ (free.register hb) = _ at ok
        rw [unchanged] at ok
        exact evidence.addReports (fun id forgot => (ended id forgot).mono subset_notes) ok
    · next ne =>
        rw [if_neg ne] at current
        exact (evidence.register current).addReports
          (fun id forgot => ((ended id forgot).mono subset_notes).later) ok

omit ev in
theorem retireEarlier_ids {unresolved left : List Incarnation}
    (got : retireEarlier now incarnation uncertain unresolved = some left) :
    (uncertain ≠ 0 → left.map Incarnation.id = unresolved.map Incarnation.id) ∧
      (∃ inc ∈ unresolved, inc.id = incarnation) ∧
      ∀ inc ∈ unresolved, inc.id ≠ incarnation → inc ∈ left := by
  induction unresolved generalizing left with
  | nil => cases got
  | cons inc rest ih =>
    unfold retireEarlier at got
    split at got
    · next eq =>
        cases got
        refine ⟨?_, ⟨inc, mem_cons_self, eq⟩, ?_⟩
        · intro some_
          rw [if_neg some_]
          rfl
        intro other mem ne
        have later : other ∈ rest := by
          rcases mem_cons.mp mem with rfl | later
          · exact absurd eq ne
          · exact later
        split
        · exact later
        · exact mem_cons_of_mem _ later
    · next ne =>
        obtain ⟨left', foundRest, rfl⟩ := map_eq_some_iff.mp got
        obtain ⟨ids, ⟨hit, mem, its⟩, others⟩ := ih foundRest
        refine ⟨?_, ⟨hit, mem_cons_of_mem _ mem, its⟩, ?_⟩
        · intro some_
          rw [map_cons, map_cons, ids some_]
        intro other otherMember apart
        rcases mem_cons.mp otherMember with rfl | later
        · exact mem_cons_self
        · exact mem_cons_of_mem _ (others other later apart)

def noteRetire (incarnation : String) (uncertain : Int) (log : List FleetEvent) : List FleetEvent :=
  (if uncertain = 0 then .retired incarnation else .unclean incarnation) :: log

omit ev in
theorem mem_ids {incs : List Incarnation} :
    (∃ inc ∈ incs, inc.id = id) ↔ id ∈ incs.map Incarnation.id := by
  simp only [List.mem_map]

theorem Evidence.retireOther (ok : rec.retireOther proxy now incarnation uncertain = .ok rec') :
    Evidence (noteRetire incarnation uncertain log) rec' := by
  unfold MemberRecord.retireOther at ok
  unfold noteRetire
  split at ok
  · next left got =>
      cases ok
      obtain ⟨ids, hit, others⟩ := retireEarlier_ids got
      split
      · refine ev.end_ rfl ?_ (fun cur held done => .inr ⟨cur, held, rfl, done⟩)
          (fun inc mem => .inr mem)
        rintro other ne (current | ⟨inc, mem, eq⟩)
        · exact .inl current
        · exact .inr ⟨inc, others inc mem fun its => ne (eq.symm.trans its), eq⟩
      next some_ =>
        have eq := ids some_
        have evidence : Evidence log { rec with unresolved := left } := by
          refine ev.weaken ?_ (fun cur held done => ⟨cur, held, rfl, done⟩) rfl
          rintro other (current | unresolved)
          · exact .inl current
          · exact .inr (mem_ids.mpr (eq ▸ mem_ids.mp unresolved))
        exact evidence.unclean (.inl (.inr (mem_ids.mpr (eq ▸ mem_ids.mp hit))))
  · split at ok
    · next known =>
        cases ok
        split
        · exact ev.endAgain rfl
        · exact ev.unclean (ev.known known)
    · cases ok

theorem Evidence.retireCurrent (held : rec.current = some cur) (eq : cur.id = incarnation)
    (counted : 0 ≤ uncertain) (ok : rec.retireCurrent proxy now uncertain cur = .ok rec') :
    Evidence (noteRetire incarnation uncertain log) rec' := by
  unfold MemberRecord.retireCurrent at ok
  unfold noteRetire
  split at ok
  · next some_ =>
      rw [if_neg (by omega)]
      split at ok
      · cases ok
      next added adds =>
        cases ok
        rw [addUnresolved_ok adds]
        let parked : Incarnation :=
          { cur with ended := now, uncertain := uncertain, state := .unclean }
        have evidence : Evidence log
            { rec with current := none, unresolved := rec.unresolved ++ [parked] } :=
          ev.park held rfl
        have noted := evidence.unclean
          (.inl (.inr ⟨parked, mem_append_right _ (mem_singleton.mpr rfl), eq⟩))
        exact ⟨noted.kept, noted.retired, noted.resolved⟩
  · next none_ =>
      rw [if_pos (by omega)]
      cases ok
      refine ev.endHeld held eq.symm (fun inc mem => .inr mem) rfl ?_
      intro post is_
      cases is_
      rfl

theorem Evidence.retire (counted : 0 ≤ uncertain)
    (ok : rec.retire proxy now incarnation uncertain = .ok rec') :
    Evidence (noteRetire incarnation uncertain log) rec' := by
  unfold MemberRecord.retire at ok
  cases held : rec.current with
  | none =>
    rw [held] at ok
    exact ev.retireOther ok
  | some cur =>
    rw [held] at ok
    dsimp only at ok
    split at ok
    · next eq =>
        split at ok
        · next done =>
            cases ok
            have names : named log incarnation := eq ▸ ev.retired cur held (by rw [done]; decide)
            unfold noteRetire
            split
            · exact ev.endAgain rfl
            · exact ev.unclean (.inr names)
        · exact ev.retireCurrent held eq counted ok
    · exact ev.retireOther ok

theorem Evidence.requestRetire (ok : rec.requestRetire proxy = .ok rec') : Evidence log rec' := by
  unfold MemberRecord.requestRetire at ok
  split at ok
  · split at ok
    · cases ok
      exact ⟨ev.kept, ev.retired, ev.resolved⟩
    · cases ok
  · cases ok

omit ev in
theorem takeUnresolved_ids {unresolved others : List Incarnation}
    (got : takeUnresolved incarnation unresolved = some (inc, others)) :
    inc.id = incarnation ∧ ∀ other ∈ unresolved, other.id ≠ incarnation → other ∈ others := by
  induction unresolved generalizing others with
  | nil => cases got
  | cons first rest ih =>
    unfold takeUnresolved at got
    split at got
    · next eq =>
        cases got
        refine ⟨eq, ?_⟩
        intro other mem ne
        rcases mem_cons.mp mem with rfl | later
        · exact absurd eq ne
        · exact later
    obtain ⟨⟨hit, left⟩, foundRest, equal⟩ := map_eq_some_iff.mp got
    cases equal
    obtain ⟨eq, others⟩ := ih foundRest
    refine ⟨eq, ?_⟩
    intro other mem ne
    rcases mem_cons.mp mem with rfl | later
    · exact mem_cons_self
    · exact mem_cons_of_mem _ (others other later ne)

omit ev in
theorem addResolved_resolved {kept : Incarnation}
    (mem : kept ∈ (addResolved now attestation actor inc rec).resolved) :
    kept.id = inc.id ∨ kept ∈ rec.resolved := by
  have among := mem_of_mem_drop mem
  rcases mem_append.mp among with earlier | last
  · exact .inr earlier
  · rw [mem_singleton.mp last]
    exact .inl rfl

theorem Evidence.resolve
    (ok : rec.resolve proxy now live incarnation attestation actor = .ok rec') :
    Evidence (.resolved incarnation :: log) rec' := by
  unfold MemberRecord.resolve at ok
  split at ok
  · next inc others got =>
      cases ok
      obtain ⟨eq, left⟩ := takeUnresolved_ids got
      refine ev.end_ rfl ?_ (fun cur held done => .inr ⟨cur, held, rfl, done⟩) ?_
      · rintro other ne (current | ⟨entry, mem, its⟩)
        · exact .inl current
        · exact .inr ⟨entry, left entry mem fun is_ => ne (its.symm.trans is_), its⟩
      intro kept mem
      rcases addResolved_resolved mem with its | earlier
      · exact .inl (its.trans eq)
      · exact .inr earlier
  · split at ok
    · next cur runs =>
        split at ok
        · cases ok
        cases ok
        obtain ⟨held, is_⟩ := filter_eq_some_iff.mp runs
        have eq := (of_decide_eq_true is_).1
        refine ev.endHeld held eq.symm ?_ rfl (fun next no => by cases no)
        intro kept mem
        have either := addResolved_resolved mem
        exact either
    · split at ok <;> cases ok

theorem Evidence.forget {ids : List String} (ok : rec.forget proxy live = .ok ids) :
    live = false ∧ (∀ id, ¬ rec.Unproven id) ∧ (∀ id, ¬ owed log id) ∧
      ∀ id ∈ ids, named log id := by
  unfold MemberRecord.forget at ok
  split at ok
  · cases ok
  next silent =>
  split at ok
  · next empty =>
      cases ok
      have none_ : ∀ id, ¬ rec.Unproven id := by
        intro id unproven
        obtain ⟨inc, mem, -⟩ := mem_unproven.mpr unproven
        rw [empty] at mem
        cases mem
      refine ⟨Bool.eq_false_iff.mpr silent, none_, fun id owes => none_ id (ev.kept id owes), ?_⟩
      intro id mem
      rcases mem_append.mp mem with current | resolved
      · cases held : rec.current with
        | none =>
          rw [held] at current
          cases current
        | some cur =>
          rw [held] at current
          dsimp only at current
          split at current
          · cases current
          next done =>
            rw [mem_singleton.mp current]
            exact ev.retired cur held done
      · obtain ⟨inc, among, rfl⟩ := List.mem_map.mp resolved
        exact ev.resolved inc among
  · cases ok

end

end Shunt.Cp
