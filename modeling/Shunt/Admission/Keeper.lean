/-
The gate keeper.  A proxy's gates follow two directories, the one it has installed and
the one new requests route by; either closes a gate.  The keeper's calls are serialized,
but each visits the gates one by one, and requests enter and leave between the visits.
-/

import Shunt.Admission.Gates
import Shunt.Library.Ledger

namespace Shunt.Admission

open Config (Barrier BarrierKind)
open Directory List Std.ExtTreeMap Relation
open Library (Ledger)

variable {k : BarrierKind} {key : String}

structure GateKeeper where
  installed : Option Snapshot := none
  served : Option Snapshot := none

def GateKeeper.snapshots (k : GateKeeper) : List Snapshot :=
  k.installed.toList ++ k.served.toList

def firstClosed (a b : Closed) : Closed := fun k => if a k = "" then b k else a k

def mergeClosures (closures c : Closures) : Closures :=
  closures ∪ c.map fun key closed => firstClosed (closures.getD key allOpen) closed

def GateKeeper.closures (k : GateKeeper) : Closures :=
  k.snapshots.foldl (fun closures s => mergeClosures closures (Barriers s.file)) ∅

def GateKeeper.sticky (k : GateKeeper) : Bool :=
  match k.installed, k.served with
  | some installed, some served => decide (served.version < installed.version)
  | _, _ => false

def GateKeeper.version (k : GateKeeper) : Int :=
  k.snapshots.foldl (fun v s => if v < s.version then s.version else v) 0

theorem firstClosed_ne {a b : Closed} : firstClosed a b k ≠ "" ↔ a k ≠ "" ∨ b k ≠ "" := by
  unfold firstClosed
  by_cases isOpen : a k = ""
  · simp [isOpen]
  · simp [isOpen]

theorem mergeClosures_closes {closures other : Closures} :
    (mergeClosures closures other).closes key k ↔ closures.closes key k ∨ other.closes key k := by
  unfold mergeClosures Closures.closes
  rw [getElem?_union, Std.ExtTreeMap.getElem?_map, getD_eq_getD_getElem?]
  cases here : closures[key]? <;> cases there : other[key]? <;> simp [firstClosed_ne, allOpen]

theorem foldl_closes {snaps : List Snapshot} {closures : Closures} :
    (snaps.foldl (fun closures s => mergeClosures closures (Barriers s.file)) closures).closes
        key k ↔ closures.closes key k ∨ ∃ s ∈ snaps, carriesBarrier s.file key k := by
  induction snaps generalizing closures with
  | nil => simp
  | cons s rest ih =>
    rw [foldl_cons, ih, mergeClosures_closes, Barriers_closes, or_assoc]
    simp only [mem_cons, exists_eq_or_imp]

theorem GateKeeper.closures_closes {keeper : GateKeeper} : keeper.closures.closes key k ↔
      ∃ s ∈ keeper.snapshots, carriesBarrier s.file key k := by
  unfold GateKeeper.closures
  rw [foldl_closes]
  simp [Closures.closes]

/-- A call of `Apply` under way: the listed gates it has still to visit, and, once it has
visited them, the gates of its `Range` it has still to visit. -/
structure Sweep where
  closures : Closures
  version : Int
  sticky : Bool
  todo : List String
  rest : Option (List String) := none

def GateKeeper.applyLocked (k : GateKeeper) : Sweep :=
  { closures := k.closures, version := k.version, sticky := k.sticky
    todo := k.closures.keys }

structure Token where
  key : String
  kind : BarrierKind
  version : Int
  deriving DecidableEq

def Token.through (key : String) (k : BarrierKind) (t : Token) : Bool :=
  decide (t.key = key) && decide (t.kind = k)

/-- A proxy's gates while calls and requests go on.  `before` is what the keeper had before
the call that is under way; `ledger` and `reopened` are the history. -/
structure World where
  keeper : GateKeeper := {}
  before : GateKeeper := {}
  call : Option Sweep := none
  gates : Gates := ∅
  ledger : Ledger Token Outcome := {}
  reopened : List (String × BarrierKind × Int) := []

def World.begin (w : World) (keeper : GateKeeper) : World :=
  { w with keeper := keeper, before := w.keeper, call := some keeper.applyLocked }

def opens (key : String) (g g' : Gate) (version : Int) : List (String × BarrierKind × Int) :=
  (barrierKinds.filter fun k => decide (g.closed k ≠ "" ∧ g'.closed k = "")).map
    fun k => (key, k, version)

def World.visit (w : World) (key : String) (c : Closed) (sw next : Sweep) : World :=
  let gate := (w.gates.gate key).apply c sw.version sw.sticky
  { w with
    gates := w.gates.insert key gate
    call := some next
    reopened := opens key (w.gates.gate key) gate sw.version ++ w.reopened }

inductive Visit : World → World → Prop where
  | close {w sw key c} (runs : w.call = some sw)
      (waiting : key ∈ sw.todo) (isIn : sw.closures[key]? = some c) :
      Visit w (w.visit key c sw { sw with todo := sw.todo.filter (· ≠ key) })
  | range {w sw} (runs : w.call = some sw) (closed : sw.todo = [])
      (opening : sw.sticky = false) (first : sw.rest = none) :
      Visit w { w with call := some { sw with rest := some w.gates.keys } }
  | pass {w sw keys key}
      (runs : w.call = some sw) (ranging : sw.rest = some keys) (waiting : key ∈ keys)
      (isIn : key ∈ sw.closures) :
      Visit w { w with call := some { sw with rest := some (keys.filter (· ≠ key)) } }
  -- A gate stored while the range runs may be visited too, so `key` need not be waiting.
  | open_ {w sw keys key}
      (runs : w.call = some sw) (ranging : sw.rest = some keys) (stored : key ∈ w.gates)
      (unlisted : key ∉ sw.closures) :
      Visit w (w.visit key allOpen sw { sw with rest := some (keys.filter (· ≠ key)) })
  | touch {w key} :
      Visit w { w with gates := w.gates.insert key (w.gates.gate key) }
  | enter {w t g} (admitted : (w.gates.gate t.key).enter t.kind t.version = .ok g) :
      Visit w { w with gates := w.gates.insert t.key g, ledger := w.ledger.issue t }
  | release {w t o} (out : t ∈ w.ledger.out) :
      Visit w { w with
        gates := w.gates.insert t.key ((w.gates.gate t.key).release t.kind o)
        ledger := w.ledger.settle t o }

def Sweep.Done (sw : Sweep) : Prop := sw.todo = [] ∧ (sw.sticky = true ∨ sw.rest = some [])

inductive Step : World → World → Prop where
  | installed {w s} (free : w.call = none)
      (later : ∀ old, w.keeper.installed = some old → old.version ≤ s.version) :
      Step w (w.begin { w.keeper with installed := some s })
  | served {w s} (free : w.call = none)
      (later : ∀ old, w.keeper.served = some old → old.version ≤ s.version) :
      Step w (w.begin { w.keeper with served := some s })
  | visit {w w'} (visit : Visit w w') : Step w w'
  | return_ {w sw} (runs : w.call = some sw) (done : sw.Done) :
      Step w { w with call := none }

def World.inForce (w : World) (key : String) : List Snapshot :=
  match w.call with
  | some sw => if key ∈ sw.todo then w.before.snapshots else w.keeper.snapshots
  | none => w.keeper.snapshots

def World.reopenings (w : World) (key : String) (k : BarrierKind) : Nat :=
  w.reopened.countP fun e => decide (e.1 = key ∧ e.2.1 = k)

structure World.Inv (w : World) : Prop where
  call : ∀ sw, w.call = some sw →
    sw.closures = w.keeper.closures ∧ ∀ key ∈ sw.todo, key ∈ sw.closures
  closed : ∀ key k, (∃ s ∈ w.inForce key, carriesBarrier s.file key k) →
    (w.gates.gate key).closed k ≠ ""
  reopened : ∀ key k v, (key, k, v) ∈ w.reopened → v ≤ (w.gates.gate key).from_
  inflight : ∀ key k, (w.gates.gate key).inflight k = w.ledger.outCount (Token.through key k)
  uncertain : ∀ key k, (w.gates.gate key).uncertain k =
    w.ledger.endedCount (Token.through key k) fun o => decide (o = .uncertain)

theorem gate_insert {gates : Gates} {other : String} {g : Gate} :
    Gates.gate (gates.insert key g) other = if key = other then g else gates.gate other := by
  unfold Gates.gate
  rw [getD_insert]
  simp only [Std.compare_eq_iff_eq]

theorem touch_gate {gates : Gates} {other : String} :
    Gates.gate (gates.insert key (gates.gate key)) other = gates.gate other := by
  rw [gate_insert]
  split
  · rename_i eq
    rw [eq]
  · rfl

section

variable {w w' : World} {key : String} {k : BarrierKind}
variable {c : Closed}

variable {sw next : Sweep}

theorem World.visit_gate {other : String} : (w.visit key c sw next).gates.gate other =
      if key = other then (w.gates.gate key).apply c sw.version sw.sticky else w.gates.gate other :=
  gate_insert

theorem World.visit_counts (other : String) :
    ((w.visit key c sw next).gates.gate other).inflight = (w.gates.gate other).inflight ∧
      ((w.visit key c sw next).gates.gate other).uncertain = (w.gates.gate other).uncertain := by
  rw [World.visit_gate]
  split
  · rename_i eq
    subst eq
    exact Gate.apply_counts
  · exact ⟨rfl, rfl⟩

theorem mem_opens {g g' : Gate} {version v : Int} {other : String} :
    (other, k, v) ∈ opens key g g' version ↔
      other = key ∧ v = version ∧ g.closed k ≠ "" ∧ g'.closed k = "" := by
  unfold opens
  simp only [List.mem_map, List.mem_filter, decide_eq_true_eq, Prod.mk.injEq]
  constructor
  · rintro ⟨j, ⟨-, was, opened⟩, rfl, rfl, rfl⟩
    exact ⟨rfl, rfl, was, opened⟩
  · rintro ⟨rfl, rfl, was, opened⟩
    exact ⟨k, ⟨by cases k <;> simp [barrierKinds], was, opened⟩, rfl, rfl, rfl⟩

theorem World.visit_reopened (inv : w.Inv) {other : String}
    {v : Int} (mem : (other, k, v) ∈ (w.visit key c sw next).reopened) :
    v ≤ ((w.visit key c sw next).gates.gate other).from_ := by
  rw [World.visit_gate]
  rcases mem_append.mp mem with new | old
  · obtain ⟨rfl, rfl, was, opened⟩ := mem_opens.mp new
    rw [if_pos rfl]
    exact Gate.apply_reopened was opened
  have earlier := inv.reopened other k v old
  split
  · rename_i eq
    subst eq
    exact earlier.trans Gate.apply_from
  · exact earlier

theorem World.inForce_of_call (runs : w.call = some sw)
    (passed : key ∉ sw.todo) : w.inForce key = w.keeper.snapshots := by
  simp only [World.inForce, runs, if_neg passed]

theorem World.visit_inv (inv : w.Inv) (runs : w.call = some sw)
    (eq : next.closures = sw.closures) (todo : next.todo = sw.todo.filter (· ≠ key))
    (closes : ∀ k, sw.closures.closes key k → c k ≠ "") : (w.visit key c sw next).Inv := by
  obtain ⟨applied, lt⟩ := inv.call sw runs
  have next_within : ∀ other ∈ next.todo, other ∈ next.closures := by
    intro other mem
    rw [todo] at mem
    rw [eq]
    exact lt other (List.mem_filter.mp mem).1
  refine ⟨?_, ?_, ?_, ?_, ?_⟩
  · intro sw' runs'
    cases runs'
    exact ⟨eq.trans applied, next_within⟩
  · intro other k barred
    rw [World.visit_gate]
    by_cases here : key = other
    · subst here
      have passed : key ∉ next.todo := by simp [todo]
      rw [World.inForce_of_call (w := w.visit key c sw next) rfl passed] at barred
      have isIn : sw.closures.closes key k := by
        rw [applied]
        exact GateKeeper.closures_closes.mpr barred
      rw [if_pos rfl, Gate.apply_closed, if_pos (.inl (closes k isIn))]
      exact closes k isIn
    rw [if_neg here]
    refine inv.closed other k ?_
    have unmoved : other ∈ next.todo ↔ other ∈ sw.todo := by
      simp [todo, Ne.symm here]
    simp only [World.inForce, World.visit, unmoved] at barred
    simpa only [World.inForce, runs] using barred
  · intro other k v mem
    exact World.visit_reopened inv mem
  · intro other k
    rw [(World.visit_counts other).1]
    exact inv.inflight other k
  intro other k
  rw [(World.visit_counts other).2]
  exact inv.uncertain other k

theorem World.begin_inv (inv : w.Inv) (free : w.call = none) (keeper : GateKeeper) :
    (w.begin keeper).Inv := by
  refine ⟨?_, ?_, inv.reopened, inv.inflight, inv.uncertain⟩
  · intro sw runs
    cases runs
    exact ⟨rfl, fun key mem => Std.ExtTreeMap.mem_keys.mp mem⟩
  intro key k barred
  by_cases isIn : key ∈ keeper.closures.keys
  · refine inv.closed key k ?_
    simp only [World.inForce, World.begin, GateKeeper.applyLocked, if_pos isIn] at barred
    simpa only [World.inForce, free] using barred
  simp only [World.inForce, World.begin, GateKeeper.applyLocked, if_neg isIn] at barred
  obtain ⟨c, got, -⟩ := GateKeeper.closures_closes.mpr barred
  refine absurd (Std.ExtTreeMap.mem_keys.mpr ?_) isIn
  rw [← isSome_getElem?_iff_mem, got]
  rfl

theorem World.sweep_inv (inv : w.Inv) (runs : w.call = some sw)
    (eq : next.closures = sw.closures) (todo : next.todo = sw.todo) :
    World.Inv { w with call := some next } := by
  refine ⟨?_, ?_, inv.reopened, inv.inflight, inv.uncertain⟩
  · intro sw' runs'
    cases runs'
    rw [eq, todo]
    exact inv.call sw runs
  intro key k barred
  refine inv.closed key k ?_
  simp only [World.inForce, todo] at barred
  simpa only [World.inForce, runs] using barred

theorem World.return_inv (inv : w.Inv) (runs : w.call = some sw)
    (closed : sw.todo = []) : World.Inv { w with call := none } := by
  refine ⟨?_, ?_, inv.reopened, inv.inflight, inv.uncertain⟩
  · rintro sw' ⟨⟩
  intro key k barred
  refine inv.closed key k ?_
  rw [World.inForce_of_call runs (by rw [closed]; exact not_mem_nil)]
  exact barred

theorem through_iff {t : Token} : Token.through key k t ↔ t.key = key ∧ t.kind = k := by
  simp [Token.through]

theorem through_self (t : Token) : Token.through t.key t.kind t = true :=
  through_iff.mpr ⟨rfl, rfl⟩

theorem World.counted_inv {g : Gate} {ledger : Ledger Token Outcome} (inv : w.Inv)
    (closed : g.closed = (w.gates.gate key).closed) (since : g.from_ = (w.gates.gate key).from_)
    (inflight : ∀ k, g.inflight k = ledger.outCount (Token.through key k))
    (uncertain : ∀ k, g.uncertain k =
      ledger.endedCount (Token.through key k) fun o => decide (o = .uncertain))
    (out : ∀ other k, key ≠ other →
      ledger.outCount (Token.through other k) = w.ledger.outCount (Token.through other k))
    (ended : ∀ other k q, key ≠ other →
      ledger.endedCount (Token.through other k) q =
        w.ledger.endedCount (Token.through other k) q) :
    World.Inv { w with gates := w.gates.insert key g, ledger := ledger } := by
  refine ⟨inv.call, ?_, ?_, ?_, ?_⟩
  · intro other k barred
    have was := inv.closed other k barred
    rw [gate_insert]
    split
    · rename_i eq
      subst eq
      rwa [closed]
    · exact was
  · intro other k v mem
    have was := inv.reopened other k v mem
    rw [gate_insert]
    split
    · rename_i eq
      subst eq
      rwa [since]
    · exact was
  · intro other k
    rw [gate_insert]
    split
    · rename_i eq
      subst eq
      exact inflight k
    rename_i ne
    rw [out other k ne]
    exact inv.inflight other k
  · intro other k
    rw [gate_insert]
    split
    · rename_i eq
      subst eq
      exact uncertain k
    rename_i ne
    rw [ended other k _ ne]
    exact inv.uncertain other k

theorem World.enter_inv {t : Token} {g : Gate} (inv : w.Inv)
    (admitted : (w.gates.gate t.key).enter t.kind t.version = .ok g) :
    World.Inv { w with gates := w.gates.insert t.key g, ledger := w.ledger.issue t } := by
  obtain ⟨-, -, closed, since, uncertain, inflight⟩ := Gate.enter_ok admitted
  refine World.counted_inv inv closed since ?_ ?_ ?_ ?_
  · intro k
    have was := inv.inflight t.key k
    rw [Ledger.outCount_issue, inflight]
    by_cases kind : t.kind = k
    · subst kind
      simp [through_self, was]
    · have other : Token.through t.key k t = false := by simp [Token.through, kind]
      simp [other, Function.update_of_ne (Ne.symm kind), was]
  · intro k
    rw [uncertain]
    exact inv.uncertain t.key k
  · intro other k ne
    have elsewhere : Token.through other k t = false := by simp [Token.through, ne]
    simp [Ledger.outCount_issue, elsewhere]
  · intro other k q ne
    rfl

theorem World.release_inv {t : Token} {o : Outcome} (inv : w.Inv) (out : t ∈ w.ledger.out) :
    World.Inv { w with
      gates := w.gates.insert t.key ((w.gates.gate t.key).release t.kind o)
      ledger := w.ledger.settle t o } := by
  refine World.counted_inv inv rfl rfl ?_ ?_ ?_ ?_
  · intro k
    have was := inv.inflight t.key k
    have split := Ledger.outCount_settle (p := Token.through t.key k) (o := o) out
    by_cases kind : t.kind = k
    · subst kind
      simp only [through_self, if_true] at split
      simp only [Gate.release, Function.update_self, was]
      omega
    have other : Token.through t.key k t = false := by simp [Token.through, kind]
    simp only [other, Bool.false_eq_true, if_false] at split
    simp only [Gate.release, Function.update_of_ne (Ne.symm kind), was]
    omega
  · intro k
    have was := inv.uncertain t.key k
    rw [Ledger.endedCount_settle]
    by_cases unsure : o = .uncertain
    · by_cases kind : t.kind = k
      · subst kind
        simp [Gate.release, unsure, through_self, was]
      · have other : Token.through t.key k t = false := by simp [Token.through, kind]
        simp [Gate.release, unsure, other, Function.update_of_ne (Ne.symm kind), was]
    · simp [Gate.release, unsure, was]
  · intro other k ne
    have elsewhere : Token.through other k t = false := by simp [Token.through, ne]
    have split := Ledger.outCount_settle (p := Token.through other k) (o := o) out
    simpa [elsewhere] using split.symm
  intro other k q ne
  have elsewhere : Token.through other k t = false := by simp [Token.through, ne]
  simp [Ledger.endedCount_settle, elsewhere]

theorem Visit.inv (visit : Visit w w') (inv : w.Inv) : w'.Inv := by
  cases visit with
  | close runs waiting isIn =>
    refine World.visit_inv inv runs rfl rfl ?_
    rintro k ⟨c, got, closes⟩
    rw [isIn] at got
    cases got
    exact closes
  | range runs | pass runs =>
    exact World.sweep_inv inv runs rfl rfl
  | @open_ sw keys key runs ranging stored unlisted =>
    have gone : key ∉ sw.todo := fun mem =>
      unlisted ((inv.call sw runs).2 key mem)
    refine World.visit_inv inv runs rfl ?_ ?_
    · refine (filter_eq_self.mpr ?_).symm
      intro other mem
      exact decide_eq_true fun eq => gone (eq ▸ mem)
    rintro k ⟨c, got, -⟩
    refine absurd ?_ unlisted
    rw [← isSome_getElem?_iff_mem, got]
    rfl
  | @touch key =>
    exact World.counted_inv inv rfl rfl (inv.inflight key) (inv.uncertain key)
      (fun _ _ _ => rfl) (fun _ _ _ _ => rfl)
  | enter admitted => exact World.enter_inv inv admitted
  | release out => exact World.release_inv inv out

theorem Step.inv (step : Step w w') (inv : w.Inv) : w'.Inv := by
  cases step with
  | installed free | served free => exact World.begin_inv inv free _
  | visit visit => exact visit.inv inv
  | return_ runs done => exact World.return_inv inv runs done.1

theorem start_inv : ({} : World).Inv := by
  refine ⟨?_, ?_, ?_, ?_, ?_⟩
  · rintro sw ⟨⟩
  · rintro key k ⟨s, ⟨⟩, -⟩
  · rintro key k v ⟨⟩
  iterate 2
    · exact fun key k => rfl

theorem run_inv (run : ReflTransGen Step {} w) : w.Inv := by
  induction run with
  | refl => exact start_inv
  | tail _ step ih => exact step.inv ih

theorem reopenings_visit {other : String}
    (stays : (w.visit key c sw next).reopenings other k = w.reopenings other k)
    (closed : (w.gates.gate other).closed k ≠ "") :
    ((w.visit key c sw next).gates.gate other).closed k ≠ "" := by
  rw [World.visit_gate]
  split
  · rename_i eq
    subst eq
    intro opened
    simp only [World.reopenings, World.visit, countP_append] at stays
    have new : (key, k, sw.version) ∈ opens key (w.gates.gate key)
        ((w.gates.gate key).apply c sw.version sw.sticky) sw.version :=
      mem_opens.mpr ⟨rfl, rfl, closed, opened⟩
    have none_new : (opens key (w.gates.gate key)
        ((w.gates.gate key).apply c sw.version sw.sticky) sw.version).countP
          (fun e => decide (e.1 = key ∧ e.2.1 = k)) = 0 := by omega
    exact countP_eq_zero.mp none_new _ new (by simp)
  · exact closed

theorem Step.reopenings_le (step : Step w w') : w.reopenings key k ≤ w'.reopenings key k := by
  cases step with
  | visit visit =>
    cases visit with
    | close | open_ => simp only [World.reopenings, World.visit, countP_append]; omega
    | _ => exact le_rfl
  | _ => exact le_rfl

theorem Visit.stays_closed (visit : Visit w w') (closed : (w.gates.gate key).closed k ≠ "")
    (stays : w'.reopenings key k = w.reopenings key k) : (w'.gates.gate key).closed k ≠ "" ∧
      w'.ledger.issuedCount (Token.through key k) = w.ledger.issuedCount (Token.through key k) := by
  cases visit with
  | range | pass => exact ⟨closed, rfl⟩
  | close | open_ => exact ⟨reopenings_visit stays closed, rfl⟩
  | touch => exact ⟨by rwa [touch_gate], rfl⟩
  | @enter t g admitted =>
    obtain ⟨isOpen, -, eq, -⟩ := Gate.enter_ok admitted
    have elsewhere : Token.through key k t = false := by
      by_contra through
      obtain ⟨rfl, rfl⟩ := through_iff.mp (by simpa using through)
      exact closed isOpen
    refine ⟨?_, ?_⟩
    · rw [gate_insert]
      split
      · rename_i here
        subst here
        rwa [eq]
      · exact closed
    · simp [Ledger.issuedCount_issue, elsewhere]
  | release out =>
    refine ⟨?_, Ledger.issuedCount_settle out⟩
    rw [gate_insert]
    split
    · rename_i here
      subst here
      exact closed
    · exact closed

theorem Step.stays_closed (step : Step w w') (closed : (w.gates.gate key).closed k ≠ "")
    (stays : w'.reopenings key k = w.reopenings key k) : (w'.gates.gate key).closed k ≠ "" ∧
      w'.ledger.issuedCount (Token.through key k) = w.ledger.issuedCount (Token.through key k) := by
  cases step with
  | visit visit => exact visit.stays_closed closed stays
  | installed | served | return_ => exact ⟨closed, rfl⟩

theorem run_stays_closed (run : ReflTransGen Step w w') (closed : (w.gates.gate key).closed k ≠ "")
    (stays : w'.reopenings key k = w.reopenings key k) : (w'.gates.gate key).closed k ≠ "" ∧
      w'.ledger.issuedCount (Token.through key k) = w.ledger.issuedCount (Token.through key k) := by
  have grows : ∀ {u : World}, ReflTransGen Step w u →
      w.reopenings key k ≤ u.reopenings key k := by
    intro u run
    induction run with
    | refl => exact le_rfl
    | tail _ step ih => exact ih.trans step.reopenings_le
  induction run with
  | refl => exact ⟨closed, rfl⟩
  | tail earlier step ih =>
    have before := grows earlier
    have post := @Step.reopenings_le _ _ key k step
    obtain ⟨still, eq⟩ := ih (by omega)
    obtain ⟨stillAfter, sameAfter⟩ := step.stays_closed still (by omega)
    exact ⟨stillAfter, sameAfter.trans eq⟩

/-- A call that is not sticky closes the gates its directories name and no others: a gate
that is closed for another reason is one it has still to visit. -/
def World.Exact (w : World) : Prop :=
  match w.call with
  | none => w.keeper.sticky = false → ∀ key k, (w.gates.gate key).closed k ≠ "" →
      w.keeper.closures.closes key k
  | some sw => sw.sticky = w.keeper.sticky ∧ (sw.sticky = false →
      ∀ key k, (w.gates.gate key).closed k ≠ "" →
        sw.closures.closes key k ∨ key ∈ sw.todo ∨
          key ∉ sw.closures ∧ ∀ keys, sw.rest = some keys → key ∈ keys)

theorem World.exact_of_closed (exact_ : w.Exact) {gates : Gates} {ledger : Ledger Token Outcome}
    (eq : ∀ key, (gates.gate key).closed = (w.gates.gate key).closed) :
    World.Exact { w with gates := gates, ledger := ledger } := by
  unfold World.Exact at exact_ ⊢
  simp only [eq]
  exact exact_

theorem begin_exact (keeper : GateKeeper) : (w.begin keeper).Exact := by
  refine ⟨rfl, fun _ key k _ => ?_⟩
  by_cases isIn : key ∈ keeper.closures
  · exact .inr (.inl (Std.ExtTreeMap.mem_keys.mpr isIn))
  · refine .inr (.inr ⟨isIn, fun keys none => ?_⟩)
    cases none

theorem World.visit_exact (exact_ : w.Exact)
    (runs : w.call = some sw) (eq : next.closures = sw.closures)
    (sticky : next.sticky = sw.sticky) (todo : next.todo = sw.todo.filter (· ≠ key))
    (rest : ∀ keys, next.rest = some keys → ∃ old, sw.rest = some old ∧
      ∀ other, other ≠ key → other ∈ old → other ∈ keys)
    (closes : ∀ k, c k ≠ "" → sw.closures.closes key k) : (w.visit key c sw next).Exact := by
  simp only [World.Exact, runs] at exact_
  refine ⟨sticky.trans exact_.1, fun loose other k closed => ?_⟩
  rw [sticky] at loose
  rw [World.visit_gate] at closed
  by_cases here : key = other
  · subst here
    rw [if_pos rfl, Gate.apply_closed, if_pos (.inr loose)] at closed
    rw [eq]
    exact .inl (closes k closed)
  rw [if_neg here] at closed
  rw [eq, todo]
  rcases exact_.2 loose other k closed with isIn | waiting | ⟨unlisted, ranging⟩
  · exact .inl isIn
  · exact .inr (.inl (List.mem_filter.mpr ⟨waiting, decide_eq_true (Ne.symm here)⟩))
  refine .inr (.inr ⟨unlisted, fun keys got => ?_⟩)
  obtain ⟨old, was, kept⟩ := rest keys got
  exact kept other (Ne.symm here) (ranging old was)

theorem Visit.exact_ (visit : Visit w w') (inv : w.Inv) (exact_ : w.Exact) : w'.Exact := by
  cases visit with
  | @close sw key c runs waiting isIn =>
    refine World.visit_exact exact_ runs rfl rfl rfl ?_ fun k closes => ⟨c, isIn, closes⟩
    exact fun keys got => ⟨keys, got, fun _ _ mem => mem⟩
  | @range sw runs =>
    simp only [World.Exact, runs] at exact_
    refine ⟨exact_.1, fun loose key k shut => ?_⟩
    rcases exact_.2 loose key k shut with isIn | waiting | ⟨unlisted, -⟩
    · exact .inl isIn
    · exact .inr (.inl waiting)
    refine .inr (.inr ⟨unlisted, fun keys got => ?_⟩)
    cases got
    by_contra gone
    have stored : key ∉ w.gates := fun mem => gone (Std.ExtTreeMap.mem_keys.mpr mem)
    refine shut ?_
    rw [Gates.gate, getD_eq_fallback stored]
    rfl
  | @pass sw keys key runs ranging waiting isIn =>
    simp only [World.Exact, runs] at exact_
    refine ⟨exact_.1, fun loose other k shut => ?_⟩
    rcases exact_.2 loose other k shut with named | waiting' | ⟨unlisted, still⟩
    · exact .inl named
    · exact .inr (.inl waiting')
    refine .inr (.inr ⟨unlisted, fun left got => ?_⟩)
    cases got
    have ne : other ≠ key := by
      rintro rfl
      exact unlisted isIn
    exact List.mem_filter.mpr ⟨still keys ranging, decide_eq_true ne⟩
  | @open_ sw keys key runs ranging stored unlisted =>
    have gone : key ∉ sw.todo := fun mem =>
      unlisted ((inv.call sw runs).2 key mem)
    refine World.visit_exact exact_ runs rfl rfl ?_ ?_ fun k closes => absurd rfl closes
    · refine (filter_eq_self.mpr fun other mem => ?_).symm
      exact decide_eq_true fun eq => gone (eq ▸ mem)
    intro left got
    cases got
    refine ⟨keys, ranging, fun other ne mem => ?_⟩
    exact List.mem_filter.mpr ⟨mem, decide_eq_true ne⟩
  | touch => exact World.exact_of_closed exact_ fun key => by rw [touch_gate]
  | @enter t g admitted =>
    refine World.exact_of_closed exact_ fun key => ?_
    rw [gate_insert]
    split
    · rename_i eq
      subst eq
      exact (Gate.enter_ok admitted).2.2.1
    · rfl
  | release =>
    refine World.exact_of_closed exact_ fun key => ?_
    rw [gate_insert]
    split
    · rename_i eq
      subst eq
      rfl
    · rfl

theorem return_exact (inv : w.Inv) (exact_ : w.Exact) (runs : w.call = some sw)
    (done : sw.Done) : World.Exact { w with call := none } := by
  simp only [World.Exact, runs] at exact_ ⊢
  intro loose key k shut
  rw [← exact_.1] at loose
  rcases exact_.2 loose key k shut with isIn | waiting | ⟨-, ranging⟩
  · rwa [(inv.call sw runs).1] at isIn
  · rw [done.1] at waiting
    cases waiting
  rcases done.2 with sticky | swept
  · rw [loose] at sticky
    cases sticky
  · cases ranging [] swept

end

/-- Over every interleaving.  A request is admitted through a gate only when no directory in
force there closes it, and only by a version no older than any at which the placement's
gates reopened; a gate's count is that of the tokens out through it; and a placement's
barrier acknowledged as closed and drained says that every token handed out through the
gate was given back definitively, and that none is handed out until the gate reopens. -/
theorem gates_sound {w : World} (run : ReflTransGen Step {} w) :
    (∀ key k version g, (w.gates.gate key).enter k version = .ok g →
      (∀ s ∈ w.inForce key, ¬ carriesBarrier s.file key k) ∧
        ∀ j v, (key, j, v) ∈ w.reopened → v ≤ version) ∧
    (∀ key k, (w.gates.gate key).inflight k = w.ledger.outCount (Token.through key k)) ∧
    ∀ (s : Snapshot) key p b, s.file.placements[key]? = some p → p.barrier = some b →
      (w.gates.placementAck s.file key b).closed = true →
      (w.gates.placementAck s.file key b).inflight = 0 →
      (w.gates.placementAck s.file key b).uncertain = 0 →
      (∀ t ∈ w.ledger.issued, t.key = key → t.kind = b.kind →
        t ∉ w.ledger.out ∧ (∃ o, (t, o) ∈ w.ledger.ended) ∧
          ∀ o, (t, o) ∈ w.ledger.ended → o = .definitive) ∧
      ∀ w', ReflTransGen Step w w' →
        w'.reopenings key b.kind = w.reopenings key b.kind →
        w'.ledger.issuedCount (Token.through key b.kind) =
          w.ledger.issuedCount (Token.through key b.kind) := by
  have inv := run_inv run
  refine ⟨?_, inv.inflight, ?_⟩
  · intro key k version g entered
    obtain ⟨isOpen, since, -⟩ := Gate.enter_ok entered
    refine ⟨?_, ?_⟩
    · intro s mem carried
      exact inv.closed key k ⟨s, mem, carried⟩ isOpen
    · intro j v mem
      exact (inv.reopened key j v mem).trans since
  intro s key p b present carried closed drained has
  have id := s.barrier_id present carried
  simp only [Gates.placementAck, decide_eq_true_eq] at closed drained has
  have shut : (w.gates.gate key).closed b.kind ≠ "" := by rwa [closed]
  refine ⟨?_, fun w' onward stays => (run_stays_closed onward shut stays).2⟩
  intro t handed sameKey sameKind
  have none_out : w.ledger.outCount (Token.through key b.kind) = 0 := by
    have counted := inv.inflight key b.kind
    omega
  have none_unsure : w.ledger.endedCount (Token.through key b.kind)
      (fun o => decide (o = .uncertain)) = 0 := by
    have counted := inv.uncertain key b.kind
    omega
  obtain ⟨gone, back, sure⟩ :=
    Ledger.settled_of_counts none_out none_unsure handed (through_iff.mpr ⟨sameKey, sameKind⟩)
  refine ⟨gone, back, ?_⟩
  intro o entry
  cases o with
  | definitive => rfl
  | uncertain => cases sure _ entry

def photosHold : Barrier := ⟨"op-1", .mutations⟩

def photosPlacement : Placement :=
  { state := .active, primary := "east", names := (∅ : StrMap String).insert "east" "photos"
    barrier := some photosHold }

def photosCluster : Config.Cluster :=
  { type := "minio", scheme := "https", region := "us-east-1", endpointMode := "static"
    endpoints := ["10.0.0.1:9000"], credentials := ⟨"AK", "env:EAST_SECRET"⟩ }

def heldDirectory : File :=
  { version := 4, schema := 2
    clusters := (∅ : StrMap Config.Cluster).insert "east" photosCluster
    tenants := (∅ : StrMap Tenant).insert "acme" { defaultCluster := "east" }
    placements := (∅ : StrMap Placement).insert "acme/photos" photosPlacement }

def heldSnapshot : Snapshot := ⟨heldDirectory, by decide⟩

def heldKeeper : GateKeeper := { installed := some heldSnapshot }

theorem getElem?_listed {closures : Closures} (isIn : (closures[key]?).isSome) :
    closures[key]? = some (closures.getD key allOpen) := by
  obtain ⟨c, got⟩ := Option.isSome_iff_exists.mp isIn
  rw [getD_eq_getD_getElem?, got, Option.getD_some]

/-- The keeper given the directory with the hold closes the gate, which stays shut. -/
theorem heldPhotos_shut : ∃ w, ReflTransGen Step {} w ∧
    (w.gates.placementAck heldDirectory "acme/photos" photosHold).closed = true ∧
    ∀ w', ReflTransGen Step w w' →
      w'.reopenings "acme/photos" .mutations = w.reopenings "acme/photos" .mutations →
      w'.ledger.issuedCount (Token.through "acme/photos" .mutations) = 0 := by
  have installed : Step {} (World.begin {} heldKeeper) :=
    Step.installed rfl fun old given => by cases given
  have closed : Step (World.begin {} heldKeeper) _ :=
    .visit (@Visit.close _ _ "acme/photos" _ rfl (by decide +kernel)
      (getElem?_listed (by decide +kernel)))
  have run := (ReflTransGen.single installed).tail closed
  refine ⟨_, run, by decide +kernel, fun w' onward stays => ?_⟩
  exact ((gates_sound run).2.2 heldSnapshot "acme/photos" photosPlacement photosHold
    (by decide +kernel) rfl (by decide +kernel) (by decide +kernel) (by decide +kernel)).2
    w' onward stays

end Shunt.Admission
