/-
A transition of a sound placement gives a sound placement, when what the transition names
is sound and the primary it leads to fits the placement's tier.  The plain step, the first
step of a move, a later one and its end are taken one by one.
-/

import Shunt.Directory.Accepts
import Shunt.Directory.RoleValid

namespace Shunt.Directory

open Std.ExtTreeMap

open Config (Barrier Cluster)

/-- The target a transition names is configured, its bucket name valid and its ratio one. -/
structure Transition.Named (clusters : StrMap Cluster) (t : Transition) : Prop where
  target : t.target ≠ "" → t.target ∈ clusters
  name : t.name ≠ "" → validBucketName t.name = true
  ratio : ¬ t.ratio < 0 ∧ ¬ 1 < t.ratio

def Placement.newBucket (p : Placement) (t : Transition) : String × String :=
  (p.startTarget t, t.name)

def Placement.nextPrimary (p : Placement) (t : Transition) : String :=
  if t.release then
    match p.ramp with
    | some r => if r.ratio = 0 ∧ r.prefixes = [] then p.source else p.primary
    | none => p.primary
  else if p.state = .active then p.startTarget t
  else p.primary

structure TierFits (clusters : StrMap Cluster) (p : Placement) (primary : String) : Prop where
  native : p.tier = "native" → ∀ cl, clusters[primary]? = some cl → cl.storageClasses = "native"
  emulated : p.tier = "emulated" → p.cold ≠ primary

/-- A move that ends splits the key space only by a hash. -/
def Placement.HashedEnd (p : Placement) : Prop :=
  ∀ m, p.move = some m → p.state = .cutover → p.keyHash = "" → m.range = fullRange

section

variable {p : Placement}

theorem mem_plain_buckets (plain : p.spread = false) {cl name : String} :
    (cl, name) ∈ p.buckets ↔ p.names[cl]? = some name := by
  rw [Placement.buckets, if_neg (ne_true_of_eq_false plain)]
  exact mem_toList_iff_getElem?_eq_some

theorem mem_spread_buckets (spread : p.spread) {b : String × String} :
    b ∈ p.buckets ↔
      ∃ (id : String) (l : Leg), p.legs[id]? = some l ∧ (l.cluster, l.bucket) = b := by
  rw [Placement.buckets, if_pos spread, List.mem_map]
  constructor
  · rintro ⟨e, mem, eq⟩
    exact ⟨e.1, e.2, mem_toList_iff_getElem?_eq_some.mp mem, eq⟩
  · rintro ⟨id, l, got, eq⟩
    exact ⟨(id, l), mem_toList_iff_getElem?_eq_some.mpr got, eq⟩

end

/-- The buckets after a step were the placement's, or are the one the step names. -/
def HoldsOnly (p : Placement) (t : Transition) (q : Placement) : Prop :=
  ∀ b ∈ q.buckets, b ∈ p.buckets ∨ t.name ≠ "" ∧ b = p.newBucket t

section

variable {clusters : StrMap Cluster} {p q : Placement} {t : Transition}

theorem TierOk.moved (sound : TierOk clusters p) (fits : TierFits clusters p q.primary)
    (tier : q.tier = p.tier) (cold : q.cold = p.cold) (lifecycle : q.lifecycle = p.lifecycle) :
    TierOk clusters q := by
  refine ⟨?_, ?_, ?_, ?_⟩
  · rw [tier]
    exact sound.mode
  · rw [tier, cold, lifecycle]
    exact sound.untiered
  · rw [tier, cold]
    exact fun native => ⟨(sound.native native).1, fits.native native⟩
  rw [tier, cold]
  intro emulated
  obtain ⟨given, has, -, classed⟩ := sound.emulated emulated
  exact ⟨given, has, fits.emulated emulated, classed⟩

theorem plain_startTarget (plain : p.spread = false) :
    p.startTarget t = if p.target = "" then t.target else p.target := by
  simp [Placement.startTarget, plain]

theorem applyRoles_primary (plain : p.spread = false) (ramped : Ramped p.state p.ramp)
    (res : p.applyRoles t = .ok q) : q.primary = p.nextPrimary t := by
  cases applyRoles_applied ramped res with
  | unwound released state stands held first eq =>
    rw [eq, Placement.nextPrimary, if_pos released, stands]
    exact (if_pos first).symm
  | released released state stands held later eq =>
    rw [eq, Placement.nextPrimary, if_pos released, stands]
    exact (if_neg (by tauto)).symm
  | closed inForce =>
    have unreleased : ¬ t.release := ne_true_of_eq_false inForce
    rw [Placement.nextPrimary, if_neg unreleased, plain_startTarget plain]
    cases applyRoles_step ramped res with
    | leave active shift named noted given =>
      rw [if_pos active]
      split
      · rename_i unset
        exact (given unset).1
      · rename_i set
        exact (noted set).1
    | within moves => rw [if_neg moves]
    | unwind shift released => exact absurd released unreleased
    | finish shift cutover =>
      rw [if_neg (by rw [cutover]; simp)]
      rfl

theorem leave_named (valid : PlainValid clusters p) (named : t.Named clusters)
    {target name : String} (given : target ≠ "" ∧ name ≠ "" ∧ target ≠ p.primary)
    (noted : p.target ≠ "" → target = p.target ∧ name = nameIn p.names p.target)
    (asked : p.target = "" → target = t.target ∧ name = t.name) : Holdable clusters (target, name) ∧
      (p.names[target]? = some name ∨ t.name ≠ "" ∧ (target, name) = p.newBucket t) := by
  by_cases unset : p.target = ""
  · obtain ⟨sameTarget, sameName⟩ := asked unset
    refine ⟨⟨given.1, ?_, ?_⟩, .inr ⟨by rw [← sameName]; exact given.2.1, ?_⟩⟩
    · rw [sameTarget] at given ⊢
      exact named.target given.1
    · rw [sameName] at given ⊢
      exact named.name given.2.1
    · rw [Placement.newBucket, plain_startTarget valid.plain, if_pos unset, sameTarget, sameName]
  obtain ⟨sameTarget, sameName⟩ := noted unset
  obtain ⟨has, held⟩ := valid.targetKnown unset
  have got : p.names[target]? = some name := by
    rw [sameTarget, sameName, nameIn]
    obtain ⟨x, got⟩ := Option.isSome_iff_exists.mp (isSome_getElem?_iff_mem.mpr held)
    rw [got]
    rfl
  exact ⟨valid.held target name got, .inl got⟩

theorem plain_names (valid : PlainValid clusters p) (named : t.Named clusters)
    (step : RoleStep p t q) : (∀ cl name : String, q.names[cl]? = some name →
      Holdable clusters (cl, name) ∧
        (p.names[cl]? = some name ∨ t.name ≠ "" ∧ (cl, name) = p.newBucket t)) := by
  have kept : ∀ cl name : String, p.names[cl]? = some name → Holdable clusters (cl, name) ∧
      (p.names[cl]? = some name ∨ t.name ≠ "" ∧ (cl, name) = p.newBucket t) :=
    fun cl name got => ⟨valid.held cl name got, .inl got⟩
  cases step with
  | leave active shift given noted asked =>
    intro cl name got
    simp only [Std.ExtTreeMap.getElem?_insert] at got
    split at got
    · rename_i eq
      cases Std.compare_eq_iff_eq.mp eq
      cases got
      exact leave_named valid named given noted asked
    · exact kept cl name got
  | within | unwind => exact kept
  | finish =>
    intro cl name got
    simp only [Placement.finish] at got
    split at got
    · rw [getElem?_erase] at got
      split at got
      · cases got
      · exact kept cl name got
    · exact kept cl name got

theorem finish_names {cl : String} (mem : cl ∈ p.names) (other : cl ≠ p.source) :
    cl ∈ p.finish.names := by
  simp only [Placement.finish]
  split
  · rw [mem_erase]
    exact ⟨by simpa [Std.compare_eq_iff_eq] using other.symm, mem⟩
  · exact mem

theorem plain_sound (valid : PlainValid clusters p) (named : t.Named clusters)
    (barred : t.BarrierNamed) (fits : TierFits clusters p (p.nextPrimary t))
    (res : p.applyRoles t = .ok q) : PlainValid clusters q ∧ HoldsOnly p t q := by
  have step := applyRoles_step valid.ramped res
  have form := step.plainForm valid.toPlainForm
  have names := plain_names valid named step
  have ramp := applyRoles_ramp valid.ramp named.ratio res
  have barrier := applyRoles_barrier valid.ramped valid.barrier barred res
  have evidence := applyRoles_evidence valid.ramped valid.evidence res
  rw [← applyRoles_primary valid.plain valid.ramped res] at fits
  refine ⟨?_, ?_⟩
  · cases step with
    | @leave s ramp target name barrier active shift given noted asked =>
      have holdable := (leave_named valid named given noted asked).1
      exact
        { toPlainForm := form
          primaryKnown := holdable.2.1
          sourceKnown := fun _ => valid.primaryKnown
          targetKnown := fun no => absurd rfl no
          evidence := evidence
          barrier := by assumption
          ramp := by assumption
          held := fun cl name got => (names cl name got).1
          primaryNamed := Std.ExtTreeMap.mem_insert_self
          sourceNamed := fun _ => mem_insert.mpr (.inr valid.primaryNamed)
          coldNamed := fun given => mem_insert.mpr (.inr (valid.coldNamed given))
          tier := valid.tier.moved fits rfl rfl rfl }
    | within =>
      exact
        { toPlainForm := form
          primaryKnown := valid.primaryKnown
          sourceKnown := valid.sourceKnown
          targetKnown := valid.targetKnown
          evidence := evidence
          barrier := by assumption
          ramp := by assumption
          held := valid.held
          primaryNamed := valid.primaryNamed
          sourceNamed := valid.sourceNamed
          coldNamed := valid.coldNamed
          tier := valid.tier.moved fits rfl rfl rfl }
    | unwind =>
      have away : p.source ≠ "" := form.primary
      exact
        { toPlainForm := form
          primaryKnown := valid.sourceKnown away
          sourceKnown := fun no => absurd rfl no
          targetKnown := fun _ => ⟨valid.primaryKnown, valid.primaryNamed⟩
          evidence := evidence
          barrier := barrier
          ramp := ramp
          held := valid.held
          primaryNamed := valid.sourceNamed away
          sourceNamed := fun no => absurd rfl no
          coldNamed := valid.coldNamed
          tier := valid.tier.moved fits rfl rfl rfl }
    | finish shift cutover =>
      have moves : p.state ≠ .active := by rw [cutover]; simp
      have coldKept : p.cold ≠ "" → p.cold ∈ p.finish.names := by
        intro given
        by_cases eq : p.cold = p.source
        · have kept : p.finish.names = p.names := if_neg fun apart => apart.2 eq.symm
          rw [kept]
          exact valid.coldNamed given
        · exact finish_names (valid.coldNamed given) eq
      exact
        { toPlainForm := form
          primaryKnown := valid.primaryKnown
          sourceKnown := fun no => absurd rfl no
          targetKnown := fun given => absurd (valid.idle moves) given
          evidence := evidence
          barrier := barrier
          ramp := ramp
          held := fun cl name got => (names cl name got).1
          primaryNamed := finish_names valid.primaryNamed valid.apart.symm
          sourceNamed := fun no => absurd rfl no
          coldNamed := coldKept
          tier := valid.tier.moved fits rfl rfl rfl }
  · rintro ⟨cl, name⟩ mem
    rw [mem_plain_buckets form.plain] at mem
    rw [mem_plain_buckets valid.plain]
    exact (names cl name mem).2

end

end Shunt.Directory
