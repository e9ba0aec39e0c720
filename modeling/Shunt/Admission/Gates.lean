/-
A proxy's admission gates.  Each placement has two, one for its mutations and one for
work that depends on its source; a gate hands out tokens while it is open and counts
those that are out.  What closes a gate is derived from a directory's barriers.
-/

import Shunt.Directory.Stamp

namespace Shunt.Admission

open Function (update)

open Config (Barrier BarrierKind)
open Directory List Std.ExtTreeMap

variable {b : Barrier} {p : Placement}

abbrev Closed := BarrierKind → String

def allOpen : Closed := fun _ => ""

inductive Outcome where
  | definitive
  | uncertain
  deriving DecidableEq

def superseded : String := "(superseded)"

structure Gate where
  closed : Closed := allOpen
  from_ : Int := 0
  inflight : BarrierKind → Int := fun _ => 0
  uncertain : BarrierKind → Int := fun _ => 0

def Gate.enter (g : Gate) (k : BarrierKind) (version : Int) : Except String Gate :=
  if g.closed k ≠ "" then .error (g.closed k)
  else if version < g.from_ then .error superseded
  else .ok { g with inflight := update g.inflight k (g.inflight k + 1) }

def Gate.release (g : Gate) (k : BarrierKind) (o : Outcome) : Gate :=
  { g with
    inflight := update g.inflight k (g.inflight k - 1)
    uncertain :=
      if o = .uncertain then update g.uncertain k (g.uncertain k + 1)
      else g.uncertain }

def Gate.set (g : Gate) (k : BarrierKind) (barrier : String) (version : Int) : Gate :=
  { g with
    from_ := if g.closed k ≠ "" ∧ barrier = "" ∧ g.from_ < version then version else g.from_
    closed := update g.closed k barrier }

def barrierKinds : List BarrierKind := [.mutations, .source]

def Gate.applyKind (c : Closed) (version : Int) (sticky : Bool) (g : Gate) (k : BarrierKind) :
    Gate :=
  if c k ≠ "" ∨ sticky = false then g.set k (c k) version else g

def Gate.apply (g : Gate) (c : Closed) (version : Int) (sticky : Bool) : Gate :=
  barrierKinds.foldl (Gate.applyKind c version sticky) g

section

variable {g g' : Gate} {k j : BarrierKind} {version : Int} {c : Closed} {sticky : Bool}
  {o : Outcome}

theorem Gate.set_from (barrier : String) : g.from_ ≤ (g.set k barrier version).from_ := by
  simp only [Gate.set]
  split <;> omega

theorem Gate.set_reopened (was : g.closed k ≠ "") : version ≤ (g.set k "" version).from_ := by
  simp only [Gate.set, ne_eq, was, not_false_eq_true, true_and]
  split <;> omega

theorem Gate.applyKind_closed : (Gate.applyKind c version sticky g k).closed j =
    if j = k ∧ (c k ≠ "" ∨ sticky = false) then c k else g.closed j := by
  unfold Gate.applyKind
  by_cases touched : c k ≠ "" ∨ sticky = false
  · rw [if_pos touched]
    by_cases eq : j = k
    · subst eq
      rw [if_pos ⟨rfl, touched⟩]
      exact Function.update_self ..
    · simp only [Gate.set, Function.update_of_ne eq, eq, false_and, if_false]
  · rw [if_neg touched, if_neg fun both => touched both.2]

theorem Gate.applyKind_from : g.from_ ≤ (Gate.applyKind c version sticky g k).from_ := by
  unfold Gate.applyKind
  split
  · exact Gate.set_from _
  · exact le_rfl

theorem Gate.applyKind_counts : (Gate.applyKind c version sticky g k).inflight = g.inflight ∧
      (Gate.applyKind c version sticky g k).uncertain = g.uncertain := by
  unfold Gate.applyKind
  split <;> exact ⟨rfl, rfl⟩

theorem Gate.applyKind_reopened (was : g.closed k ≠ "")
    (opened : (Gate.applyKind c version sticky g k).closed k = "") :
    version ≤ (Gate.applyKind c version sticky g k).from_ := by
  unfold Gate.applyKind at opened ⊢
  split at opened
  · rename_i touched
    rw [if_pos touched]
    simp only [Gate.set, Function.update_self] at opened
    rw [opened]
    exact Gate.set_reopened was
  · exact absurd opened was

theorem Gate.apply_eq : g.apply c version sticky =
    Gate.applyKind c version sticky (Gate.applyKind c version sticky g .mutations) .source := rfl

theorem Gate.apply_closed : (g.apply c version sticky).closed k =
    if c k ≠ "" ∨ sticky = false then c k else g.closed k := by
  rw [Gate.apply_eq, Gate.applyKind_closed, Gate.applyKind_closed]
  cases k <;> simp

theorem Gate.apply_counts : (g.apply c version sticky).inflight = g.inflight ∧
    (g.apply c version sticky).uncertain = g.uncertain := by
  rw [Gate.apply_eq, Gate.applyKind_counts.1, Gate.applyKind_counts.2]
  exact Gate.applyKind_counts

theorem Gate.apply_from : g.from_ ≤ (g.apply c version sticky).from_ := by
  rw [Gate.apply_eq]
  exact Gate.applyKind_from.trans Gate.applyKind_from

theorem Gate.apply_reopened (was : g.closed k ≠ "")
    (opened : (g.apply c version sticky).closed k = "") :
    version ≤ (g.apply c version sticky).from_ := by
  rw [Gate.apply_eq] at opened ⊢
  cases k with
  | mutations =>
    rw [Gate.applyKind_closed, if_neg fun both => by cases both.1] at opened
    exact (Gate.applyKind_reopened was opened).trans Gate.applyKind_from
  | source =>
    refine Gate.applyKind_reopened ?_ opened
    rwa [Gate.applyKind_closed, if_neg fun both => by cases both.1]

theorem Gate.enter_ok (entered : g.enter k version = .ok g') :
    g.closed k = "" ∧ g.from_ ≤ version ∧ g'.closed = g.closed ∧ g'.from_ = g.from_ ∧
      g'.uncertain = g.uncertain ∧ g'.inflight = update g.inflight k (g.inflight k + 1) := by
  unfold Gate.enter at entered
  iterate 2
    split at entered
    · cases entered
  rename_i isOpen current
  cases entered
  exact ⟨by simpa using isOpen, by omega, rfl, rfl, rfl, rfl⟩

@[simp] theorem Gate.release_closed : (g.release k o).closed = g.closed := rfl

@[simp] theorem Gate.release_from : (g.release k o).from_ = g.from_ := rfl

end

structure Snapshot where
  file : File
  valid : file.validate = []

def Snapshot.version (s : Snapshot) : Int := s.file.version

abbrev Closures := StrMap Closed

def Closures.closes (closures : Closures) (key : String) (k : BarrierKind) : Prop :=
  ∃ c, closures[key]? = some c ∧ c k ≠ ""

def addCluster (out : List String) (name : String) : List String :=
  if name = "" ∨ name ∈ out then out else out ++ [name]

def placementClusters (p : Placement) : List String :=
  ([p.primary, p.source, p.target, p.cold].map p.clusterOf ++ p.names.keys.map p.clusterOf ++
    p.legs.values.map Leg.cluster).foldl addCluster []

def clusterBarrier (f : File) (name : String) : Option Barrier :=
  (f.clusters[name]?).bind Config.Cluster.barrier

def ownClosed (p : Placement) : Closed :=
  match p.barrier with
  | some b => update allOpen b.kind b.id
  | none => allOpen

def closeMutations (f : File) (c : Closed) (name : String) : Closed :=
  match clusterBarrier f name with
  | some b => if c .mutations = "" then update c .mutations b.id else c
  | none => c

def derivePlacement (f : File) (p : Placement) : Option Closed :=
  if p.barrier.isSome ∨ (placementClusters p).any fun name => (clusterBarrier f name).isSome then
    some ((placementClusters p).foldl (closeMutations f) (ownClosed p))
  else none

def Barriers (f : File) : Closures := f.placements.filterMap fun _ p => derivePlacement f p

/-- A barrier of the directory closes the gate: the placement's own, or, for mutations,
one of a cluster the placement has a bucket on. -/
def carriesBarrier (f : File) (key : String) (k : BarrierKind) : Prop :=
  ∃ p, f.placements[key]? = some p ∧
    ((∃ b, p.barrier = some b ∧ b.kind = k) ∨
      k = .mutations ∧ ∃ name ∈ placementClusters p, (clusterBarrier f name).isSome)

theorem validBarrierID_ne_empty {id : String} (valid : Config.validBarrierID id) : id ≠ "" := by
  unfold Config.validBarrierID at valid
  simp only [Bool.and_eq_true, decide_eq_true_eq] at valid
  exact valid.1.1

theorem validate_id (passes : b.validate = none) : b.id ≠ "" := by
  unfold Barrier.validate at passes
  split at passes
  · exact validBarrierID_ne_empty (by assumption)
  · cases passes

theorem validateBarrier_id {k : String} (passes : p.validateBarrier k = [])
    (carried : p.barrier = some b) : b.id ≠ "" := by
  unfold Placement.validateBarrier at passes
  simp only [carried] at passes
  split at passes
  · cases passes
  · exact validate_id (by assumption)

theorem validatePlacement_barrier {f : File} {pk : String} {used : Used}
    (passes : (validatePlacement f pk p used).1 = [])
    (carried : p.barrier = some b) : b.id ≠ "" := by
  unfold validatePlacement at passes
  have checked := (append_eq_nil_iff.mp passes).2
  split at checked
  · unfold Placement.validateSpread at checked
    split at checked
    · cases checked
    · simp only [append_eq_nil_iff] at checked
      exact validateBarrier_id checked.1.1.2 carried
  unfold Placement.validatePlain at checked
  simp only [append_eq_nil_iff] at checked
  exact validateBarrier_id checked.1.1.1.1.1.2 carried

theorem validatePlacements_mem {f : File} {entries : List (String × Placement)}
    {used : Used} (passes : validatePlacements f entries used = [])
    {entry : String × Placement} (mem : entry ∈ entries) :
    ∃ used', (validatePlacement f entry.1 entry.2 used').1 = [] := by
  induction entries generalizing used with
  | nil => cases mem
  | cons head rest ih =>
    obtain ⟨first, later⟩ := append_eq_nil_iff.mp passes
    rcases mem_cons.mp mem with rfl | post
    · exact ⟨used, first⟩
    · exact ih later post

theorem Snapshot.barrier_id (s : Snapshot) {key : String}
    (there : s.file.placements[key]? = some p) (carried : p.barrier = some b) : b.id ≠ "" := by
  have valid := s.valid
  unfold File.validate at valid
  have placements := (append_eq_nil_iff.mp valid).2
  have mem := mem_toList_iff_getElem?_eq_some.mpr there
  obtain ⟨used, passes⟩ := validatePlacements_mem placements mem
  exact validatePlacement_barrier passes carried

theorem Snapshot.clusterBarrier_id (s : Snapshot) {name : String}
    (carried : clusterBarrier s.file name = some b) : b.id ≠ "" := by
  have valid := s.valid
  unfold File.validate at valid
  simp only [append_eq_nil_iff] at valid
  have clusters := valid.1.1.2
  unfold clusterBarrier at carried
  cases got : s.file.clusters[name]? with
  | none => simp [got] at carried
  | some cl =>
    simp only [got, Option.bind_some] at carried
    have mem := mem_toList_iff_getElem?_eq_some.mpr got
    have passes := flatMap_eq_nil_iff.mp clusters (name, cl) mem
    simp only [Config.validateCluster, append_eq_nil_iff] at passes
    have barrier := passes.1.1.1.1.1.2
    unfold Config.validateClusterBarrier at barrier
    simp only [carried] at barrier
    split at barrier
    · cases barrier
    · exact validate_id (by assumption)

theorem closeMutations_source {f : File} {c : Closed} {names : List String} :
    (names.foldl (closeMutations f) c) .source = c .source := by
  induction names generalizing c with
  | nil => rfl
  | cons name rest ih =>
    rw [foldl_cons, ih]
    unfold closeMutations
    cases clusterBarrier f name with
    | none => rfl
    | some =>
      by_cases isOpen : c .mutations = ""
      · simp [isOpen]
      · simp [isOpen]

theorem closeMutations_ne (s : Snapshot) {c : Closed} {name : String} :
    closeMutations s.file c name .mutations ≠ "" ↔
      c .mutations ≠ "" ∨ (clusterBarrier s.file name).isSome := by
  unfold closeMutations
  cases carried : clusterBarrier s.file name with
  | none => simp
  | some =>
    have id := s.clusterBarrier_id carried
    by_cases isOpen : c .mutations = ""
    · simp [isOpen, id]
    · simp [isOpen]

theorem closeMutations_mutations (s : Snapshot) {c : Closed} {names : List String} :
    (names.foldl (closeMutations s.file) c) .mutations ≠ "" ↔
      c .mutations ≠ "" ∨ ∃ name ∈ names, (clusterBarrier s.file name).isSome := by
  induction names generalizing c with
  | nil => simp
  | cons name rest ih =>
    rw [foldl_cons, ih, closeMutations_ne]
    simp only [mem_cons, exists_eq_or_imp, or_assoc]

theorem ownClosed_ne (s : Snapshot) {key : String} {k : BarrierKind}
    (there : s.file.placements[key]? = some p) :
    ownClosed p k ≠ "" ↔ ∃ b, p.barrier = some b ∧ b.kind = k := by
  unfold ownClosed
  cases carried : p.barrier with
  | none => simp [allOpen]
  | some b =>
    have id := s.barrier_id there carried
    by_cases eq : k = b.kind
    · subst eq
      simp [id]
    · simp [Function.update_of_ne eq, allOpen, Ne.symm eq]

theorem Barriers_closes (s : Snapshot) {key : String} {k : BarrierKind} :
    (Barriers s.file).closes key k ↔ carriesBarrier s.file key k := by
  unfold Closures.closes Barriers carriesBarrier
  rw [getElem?_filterMap']
  cases there : s.file.placements[key]? with
  | none => simp
  | some p =>
    have closed : ((placementClusters p).foldl (closeMutations s.file) (ownClosed p)) k ≠ "" ↔
        (∃ b, p.barrier = some b ∧ b.kind = k) ∨
          k = .mutations ∧ ∃ name ∈ placementClusters p,
            (clusterBarrier s.file name).isSome := by
      rw [← ownClosed_ne s there]
      cases k with
      | mutations => simpa using closeMutations_mutations s
      | source => simp [closeMutations_source]
    simp only [Option.bind_some, Option.some.injEq, exists_eq_left']
    rw [← closed]
    unfold derivePlacement
    split
    · simp
    rename_i untouched
    have isOpen := mt closed.mp
    simp only [reduceCtorEq, false_and, exists_false, false_iff]
    refine isOpen ?_
    rintro (⟨b, carried, -⟩ | ⟨-, name, mem, carried⟩)
    · exact untouched (.inl (by rw [carried]; rfl))
    · exact untouched (.inr (List.any_eq_true.mpr ⟨name, mem, carried⟩))

abbrev Gates := StrMap Gate

def Gates.gate (g : Gates) (key : String) : Gate := g.getD key {}

/-- One barrier's proof from one proxy, as a heartbeat carries it. -/
structure Ack where
  id : String
  scope : String
  generation : Int
  kind : BarrierKind
  closed : Bool
  inflight : Int
  uncertain : Int

def Gates.placementAck (g : Gates) (f : File) (key : String) (b : Barrier) : Ack :=
  { id := b.id, scope := placementResource key
    generation := f.generation (placementResource key), kind := b.kind
    closed := decide ((g.gate key).closed b.kind = b.id)
    inflight := (g.gate key).inflight b.kind, uncertain := (g.gate key).uncertain b.kind }

end Shunt.Admission
