/-
The checks of the validator, each with what it accepts: ramps, barriers and tiers, the
backend buckets claimed one after another, prefix rules and schema v2.
-/

import Shunt.Directory.Formed

namespace Shunt.Directory

open List Std.ExtTreeMap

open Config (Barrier Cluster)

structure RampOk (r : Ramp) : Prop where
  hash : validRampHashName r.hash = true
  ratio : ¬ r.ratio < 0 ∧ ¬ 1 < r.ratio
  moves : r.hold = none → r.ratio ≠ 0 ∨ r.prefixes ≠ []
  hold : ∀ h, r.hold = some h → (¬ h.ratio < 0 ∧ ¬ 1 < h.ratio) ∧ (h.ratio ≠ 0 ∨ h.prefixes ≠ [])
  range : ∀ rg, r.range = some rg → rg.lo ≤ rg.hi

structure RampValid (s : State) (ramp : Option Ramp) : Prop where
  present : s = .ramping ↔ ramp ≠ none
  each : ∀ r, ramp = some r → RampOk r

theorem RampValid.ramped {s : State} {ramp : Option Ramp} (valid : RampValid s ramp) :
    Ramped s ramp :=
  ⟨valid.present, fun r eq => (valid.each r eq).moves⟩

theorem ite_nil {α : Type} {c : Prop} [Decidable c] {a : α} :
    (if c then [a] else []) = [] ↔ ¬ c := by
  by_cases holds : c <;> simp [holds]

theorem each_none {α : Type} {P : α → Prop} : ∀ a, none = some a → P a := by
  rintro a ⟨⟩

theorem validateRamp_iff {k : String} {s : State} {ramp : Option Ramp} :
    validateRamp k s ramp = [] ↔ RampValid s ramp := by
  cases ramp with
  | none =>
    simp only [validateRamp, ite_nil]
    constructor
    · intro other
      exact ⟨by simp [other], each_none⟩
    · intro valid ramping
      exact valid.present.mp ramping rfl
  | some r =>
    obtain ⟨hash, ratio, prefixes, range, hold⟩ := r
    have stands : (s = .ramping ↔ (some (Ramp.mk hash ratio prefixes range hold)) ≠ none) ↔
        s = .ramping := by simp
    have all : RampValid s (some ⟨hash, ratio, prefixes, range, hold⟩) ↔
        s = .ramping ∧ RampOk ⟨hash, ratio, prefixes, range, hold⟩ := by
      constructor
      · intro valid
        exact ⟨stands.mp valid.present, valid.each _ rfl⟩
      · rintro ⟨ramping, sound⟩
        exact ⟨stands.mpr ramping, fun r eq => by cases eq; exact sound⟩
    rw [all]
    simp only [validateRamp, append_eq_nil_iff, ite_nil, not_not, not_or, Bool.not_eq_false]
    constructor
    · rintro ⟨⟨⟨⟨⟨ramping, named⟩, unit⟩, moves⟩, held⟩, ranged⟩
      refine ⟨ramping, named, unit, ?_, ?_, ?_⟩
      · intro none
        by_contra still
        push Not at still
        exact moves ⟨still.1, still.2, none⟩
      · intro h eq
        simp only at eq
        subst eq
        simp only [append_eq_nil_iff, ite_nil, not_or, not_and] at held
        refine ⟨held.1, ?_⟩
        by_cases zero : h.ratio = 0
        · exact .inr (held.2 zero)
        · exact .inl zero
      intro rg eq
      simp only at eq
      subst eq
      simpa only [ite_nil, UInt64.not_lt] using ranged
    · rintro ⟨ramping, sound⟩
      refine ⟨⟨⟨⟨⟨ramping, sound.hash⟩, sound.ratio⟩, ?_⟩, ?_⟩, ?_⟩
      · rintro ⟨zero, none, unheld⟩
        rcases sound.moves unheld with given | given
        · exact given zero
        · exact given none
      · cases hold with
        | none => rfl
        | some h =>
          obtain ⟨unit, moves⟩ := sound.hold h rfl
          simp only [append_eq_nil_iff, ite_nil, not_or]
          refine ⟨unit, fun empty => ?_⟩
          rcases moves with given | given
          · exact given empty.1
          · exact given empty.2
      · cases range with
        | none => rfl
        | some rg => simpa only [ite_nil, UInt64.not_lt] using sound.range rg rfl

def BarrierOk (s : State) (barrier : Option Barrier) : Prop :=
  ∀ b, barrier = some b → b.validate = none ∧ (b.kind = .source → s = .cutover)

theorem validateBarrier_iff {p : Placement} {k : String} :
    p.validateBarrier k = [] ↔ BarrierOk p.state p.barrier := by
  unfold Placement.validateBarrier BarrierOk
  cases p.barrier with
  | none => simp
  | some b =>
    cases checked : b.validate with
    | some => simp [checked]
    | none =>
      simp only [ite_nil, Option.some.injEq, forall_eq', checked, true_and]
      tauto

structure TierOk (clusters : StrMap Cluster) (p : Placement) : Prop where
  mode : p.tier = "" ∨ p.tier ∈ tierModes
  untiered : p.tier = "" → p.cold = "" ∧ p.lifecycle = ""
  native : p.tier = "native" → p.cold = "" ∧
    ∀ cl, clusters[p.primary]? = some cl → cl.storageClasses = "native"
  emulated : p.tier = "emulated" → p.cold ≠ "" ∧ p.cold ∈ clusters ∧ p.cold ≠ p.primary ∧
    ∀ cl, clusters[p.cold]? = some cl → cl.storageClass ≠ ""

theorem validateTier_iff {p : Placement} {clusters : StrMap Cluster} {k : String} :
    p.validateTier clusters k = [] ↔ TierOk clusters p := by
  by_cases plain : p.tier = ""
  · have shape : p.validateTier clusters k = [] ↔ p.cold = "" ∧ p.lifecycle = "" := by
      simp only [Placement.validateTier, plain, ne_eq, not_true, false_and, if_false, if_true,
        append_eq_nil_iff, ite_nil, not_not]
    rw [shape]
    constructor
    · intro unset
      exact ⟨.inl plain, fun _ => unset, by simp [plain], by simp [plain]⟩
    · intro sound
      exact sound.untiered plain
  · by_cases has : p.tier ∈ tierModes
    · have modes : p.tier = "native" ∨ p.tier = "emulated" := by
        simpa [tierModes] using has
      rcases modes with native | emulated
      · have shape : p.validateTier clusters k = [] ↔ p.cold = "" ∧
            ∀ cl, clusters[p.primary]? = some cl → cl.storageClasses = "native" := by
          unfold Placement.validateTier
          rw [if_neg fun other => other.2 has, if_neg plain, if_pos native,
            append_eq_nil_iff, ite_nil, not_not]
          cases clusters[p.primary]? with
          | none => simp only [reduceCtorEq, false_imp_iff, implies_true]
          | some => simp only [ite_nil, not_not, Option.some.injEq, forall_eq']
        rw [shape]
        constructor
        · intro fits
          exact ⟨.inr has, by simp [native], fun _ => fits, by simp [native]⟩
        · intro sound
          exact sound.native native
      · have shape : p.validateTier clusters k = [] ↔ p.cold ≠ "" ∧ p.cold ∈ clusters ∧
            p.cold ≠ p.primary ∧ ∀ cl, clusters[p.cold]? = some cl → cl.storageClass ≠ "" := by
          unfold Placement.validateTier
          rw [if_neg fun other => other.2 has, if_neg plain, if_neg (by rw [emulated]; decide)]
          by_cases empty : p.cold = ""
          · rw [if_pos empty]
            exact ⟨nofun, fun sound => absurd empty sound.1⟩
          rw [if_neg empty]
          by_cases configured : p.cold ∈ clusters
          · obtain ⟨cl, got⟩ := Option.isSome_iff_exists.mp (isSome_getElem?_iff_mem.mpr configured)
            rw [if_neg (not_not.mpr configured), got]
            simp only [append_eq_nil_iff, ite_nil, Option.some.injEq, forall_eq', empty,
              configured, ne_eq, not_false_eq_true, true_and, and_comm]
          rw [if_pos configured]
          refine ⟨fun ok => absurd (refErrors_nil ok).2 configured, ?_⟩
          rintro ⟨-, has, -⟩
          exact absurd has configured
        rw [shape]
        constructor
        · intro fits
          exact ⟨.inr has, by simp [emulated], by simp [emulated], fun _ => fits⟩
        · intro sound
          exact sound.emulated emulated
    · have fails : p.validateTier clusters k ≠ [] := by
        unfold Placement.validateTier Config.oneOf
        rw [if_pos ⟨plain, has⟩]
        simp [plain, has]
      constructor
      · intro ok
        exact absurd ok fails
      intro sound
      rcases sound.mode with empty | mem
      · exact absurd empty plain
      · exact absurd mem has

def Holdable (clusters : StrMap Cluster) (b : String × String) : Prop :=
  b.1 ≠ "" ∧ b.1 ∈ clusters ∧ validBucketName b.2 = true

theorem validBucketName_ne_empty {name : String} (valid : validBucketName name) : name ≠ "" := by
  intro empty
  subst empty
  exact absurd valid (by decide)

theorem refErrors_iff {clusters : StrMap Cluster} {key name : String} :
    refErrors clusters key name = [] ↔ name ≠ "" ∧ name ∈ clusters := by
  constructor
  · exact refErrors_nil
  · rintro ⟨given, has⟩
    simp [refErrors, given, has]

theorem claimBucket_iff {key pk cluster name : String} {used : Used} :
    (claimBucket key pk cluster name used).1 = [] ↔
      validBucketName name ∧ used.lookup (cluster, name) = none := by
  unfold claimBucket
  by_cases valid : validBucketName name
  · cases got : used.lookup (cluster, name) <;> simp [valid]
  · simp [valid]

theorem claimBucket_used {key pk cluster name : String} {used : Used}
    (ok : (claimBucket key pk cluster name used).1 = []) :
    (claimBucket key pk cluster name used).2 = used ++ [((cluster, name), pk)] := by
  obtain ⟨valid, free⟩ := claimBucket_iff.mp ok
  simp [claimBucket, valid, free]

theorem lookup_claimed {used : Used} {b c : String × String} {pk : String} :
    (used ++ [(b, pk)]).lookup c = none ↔ used.lookup c = none ∧ c ≠ b := by
  rw [lookup_append]
  by_cases eq : c = b
  · simp [eq]
  · rw [lookup_cons, beq_eq_false_iff_ne.mpr eq]
    cases used.lookup c <;> simp [eq]

section

variable {α : Type} {claim : α → Used → List Config.FieldError × Used} {entries : List α}
  {used : Used} {pk : String}

def claimAll (claim : α → Used → List Config.FieldError × Used) :
    List α → Used → List Config.FieldError × Used
  | [], used => ([], used)
  | e :: rest, used =>
    let later := claimAll claim rest (claim e used).2
    ((claim e used).1 ++ later.1, later.2)

/-- A claim that is accepted for a sound entry whose bucket is free, and then takes it. -/
structure Claims (claim : α → Used → List Config.FieldError × Used) (pair : α → String × String)
    (sound : α → Prop) (pk : String) : Prop where
  accepts : ∀ e used, (claim e used).1 = [] ↔ sound e ∧ used.lookup (pair e) = none
  takes : ∀ e used, (claim e used).1 = [] → (claim e used).2 = used ++ [(pair e, pk)]

variable {pair : α → String × String} {sound : α → Prop}

theorem Claims.all_iff (claims : Claims claim pair sound pk) :
    (claimAll claim entries used).1 = [] ↔
      (∀ e ∈ entries, sound e) ∧ (∀ e ∈ entries, used.lookup (pair e) = none) ∧
        (entries.map pair).Nodup := by
  induction entries generalizing used with
  | nil => simp [claimAll]
  | cons head rest ih =>
    simp only [claimAll, append_eq_nil_iff, map_cons, nodup_cons]
    constructor
    · rintro ⟨claimed, later⟩
      rw [claims.takes head used claimed, ih] at later
      obtain ⟨held, free, uniq⟩ := later
      obtain ⟨holds, fresh⟩ := (claims.accepts head used).mp claimed
      refine ⟨forall_mem_cons.mpr ⟨holds, held⟩, forall_mem_cons.mpr ⟨fresh, ?_⟩, ?_, uniq⟩
      · exact fun e mem => (lookup_claimed.mp (free e mem)).1
      intro again
      obtain ⟨e, mem, eq⟩ := List.mem_map.mp again
      exact (lookup_claimed.mp (free e mem)).2 eq
    · rintro ⟨held, free, apart, uniq⟩
      have claimed := (claims.accepts head used).mpr
        ⟨held head mem_cons_self, free head mem_cons_self⟩
      refine ⟨claimed, ?_⟩
      rw [claims.takes head used claimed, ih]
      refine ⟨fun e mem => held e (mem_cons_of_mem head mem), ?_, uniq⟩
      intro e mem
      refine lookup_claimed.mpr ⟨free e (mem_cons_of_mem head mem), fun eq => ?_⟩
      exact apart (List.mem_map.mpr ⟨e, mem, eq⟩)

theorem Claims.all_used (claims : Claims claim pair sound pk)
    (ok : (claimAll claim entries used).1 = []) :
    (claimAll claim entries used).2 = used ++ entries.map fun e => (pair e, pk) := by
  induction entries generalizing used with
  | nil => simp [claimAll]
  | cons head rest ih =>
    simp only [claimAll, append_eq_nil_iff] at ok ⊢
    rw [ih ok.2, claims.takes head used ok.1, map_cons, append_assoc]
    rfl

end

section

variable {clusters : StrMap Cluster} {k pk : String} {used : Used}

def claimName (clusters : StrMap Cluster) (k pk : String) (e : String × String)
    (used : Used) : List Config.FieldError × Used :=
  let nk := k ++ ".names." ++ e.1
  let claimed :=
    if e.2 = "" then ([⟨nk, "backend bucket name is empty"⟩], used)
    else claimBucket nk pk e.1 e.2 used
  (refErrors clusters nk e.1 ++ claimed.1, claimed.2)

def claimLeg (clusters : StrMap Cluster) (k pk : String) (e : String × Leg)
    (used : Used) : List Config.FieldError × Used :=
  let lk := k ++ ".legs." ++ e.1
  let unknown := refErrors clusters (lk ++ ".cluster") e.2.cluster
  if unknown ≠ [] then (unknown, used)
  else claimBucket (lk ++ ".bucket") pk e.2.cluster e.2.bucket used

theorem claimNames_eq (entries : List (String × String)) (used : Used) :
    claimNames clusters k pk entries used = claimAll (claimName clusters k pk) entries used := by
  induction entries generalizing used with
  | nil => rfl
  | cons head rest ih =>
    simp only [claimNames, claimAll, ih]
    rfl

theorem claimLegs_eq (entries : List (String × Leg)) (used : Used) :
    claimLegs clusters k pk entries used = claimAll (claimLeg clusters k pk) entries used := by
  induction entries generalizing used with
  | nil => rfl
  | cons head rest ih =>
    simp only [claimLegs, claimAll, ih]
    rfl

theorem claimName_claims : Claims (claimName clusters k pk) id (Holdable clusters) pk := by
  have accepts : ∀ e used, (claimName clusters k pk e used).1 = [] ↔
      Holdable clusters e ∧ used.lookup e = none := by
    rintro ⟨cl, name⟩ used
    simp only [claimName, append_eq_nil_iff, refErrors_iff, Holdable]
    by_cases empty : name = ""
    · have invalid : ¬ validBucketName name = true := fun valid =>
        validBucketName_ne_empty valid empty
      simp only [if_pos empty, invalid, reduceCtorEq, and_false, false_and]
    · simp only [if_neg empty, claimBucket_iff, and_assoc]
  refine ⟨accepts, ?_⟩
  rintro ⟨cl, name⟩ used ok
  have holdable := ((accepts _ _).mp ok).1
  simp only [claimName, if_neg (validBucketName_ne_empty holdable.2.2), append_eq_nil_iff] at ok ⊢
  exact claimBucket_used ok.2

theorem claimLeg_claims : Claims (claimLeg clusters k pk) (fun e => (e.2.cluster, e.2.bucket))
      (fun e => Holdable clusters (e.2.cluster, e.2.bucket)) pk := by
  refine ⟨?_, ?_⟩
  · rintro ⟨id, l⟩ used
    simp only [claimLeg, Holdable]
    by_cases has : refErrors clusters (k ++ ".legs." ++ id ++ ".cluster") l.cluster = []
    · simp only [has, ne_eq, not_true, if_false, claimBucket_iff, refErrors_iff.mp has,
        not_false_eq_true, true_and]
    simp only [ne_eq, has, not_false_eq_true, if_true, false_iff]
    rintro ⟨⟨given, configured, -⟩, -⟩
    exact has (refErrors_iff.mpr ⟨given, configured⟩)
  rintro ⟨id, l⟩ used ok
  simp only [claimLeg] at ok ⊢
  by_cases has : refErrors clusters (k ++ ".legs." ++ id ++ ".cluster") l.cluster = []
  · rw [if_neg (not_not.mpr has)] at ok ⊢
    exact claimBucket_used ok
  · rw [if_pos has] at ok
    exact absurd ok has

theorem claimNames_iff {entries : List (String × String)} :
    (claimNames clusters k pk entries used).1 = [] ↔
      (∀ b ∈ entries, Holdable clusters b) ∧ (∀ b ∈ entries, used.lookup b = none) ∧
        entries.Nodup := by
  rw [claimNames_eq, claimName_claims.all_iff, List.map_id]
  rfl

theorem claimNames_used {entries : List (String × String)}
    (ok : (claimNames clusters k pk entries used).1 = []) :
    (claimNames clusters k pk entries used).2 = used ++ entries.map fun b => (b, pk) := by
  rw [claimNames_eq] at ok ⊢
  exact claimName_claims.all_used ok

theorem claimLegs_iff {entries : List (String × Leg)} :
    (claimLegs clusters k pk entries used).1 = [] ↔
      (∀ e ∈ entries, Holdable clusters (e.2.cluster, e.2.bucket)) ∧
        (∀ e ∈ entries, used.lookup (e.2.cluster, e.2.bucket) = none) ∧
        (entries.map fun e => (e.2.cluster, e.2.bucket)).Nodup := by
  rw [claimLegs_eq, claimLeg_claims.all_iff]

theorem claimLegs_used {entries : List (String × Leg)}
    (ok : (claimLegs clusters k pk entries used).1 = []) :
    (claimLegs clusters k pk entries used).2 =
      used ++ entries.map fun e => ((e.2.cluster, e.2.bucket), pk) := by
  rw [claimLegs_eq] at ok ⊢
  exact claimLeg_claims.all_used ok

end

structure RulesOk (pres : List Key) : Prop where
  few : pres.length ≤ maxPrefixRules
  each : ∀ pre ∈ pres, pre ≠ [] ∧ pre.length ≤ maxPrefixLen
  sorted : pres.Pairwise fun left right => left < right

theorem checkPrefixesFrom_iff {legs : StrMap Leg} {rules : List PrefixRule} :
    ∀ {index : Nat} {last : Option Key}, checkPrefixesFrom legs index last rules = none ↔
      (∀ rule ∈ rules, (rule.pre ≠ [] ∧ rule.pre.length ≤ maxPrefixLen) ∧
        TableOver legs rule.owners) ∧ rules.Pairwise (fun left right => left.pre < right.pre) ∧
      ∀ prev, last = some prev → ∀ rule ∈ rules, prev < rule.pre := by
  induction rules with
  | nil => simp [checkPrefixesFrom]
  | cons rule rest ih =>
    intro index last
    have follows : (¬ (last.any fun prev => decide (¬ prev < rule.pre)) = true) ↔
        ∀ prev, last = some prev → prev < rule.pre := by
      cases last <;> simp
    have table : checkOwners rule.owners legs = none ↔ TableOver legs rule.owners :=
      checkOwners_accepts rule.owners legs
    simp only [checkPrefixesFrom]
    constructor
    · intro ok
      split at ok
      · cases ok
      rename_i named
      split at ok
      · cases ok
      rename_i short
      split at ok
      · cases ok
      rename_i ordered
      cases checked : checkOwners rule.owners legs with
      | some => simp [checked] at ok
      | none =>
        simp only [checked, ih] at ok
        obtain ⟨sound, sorted, above⟩ := ok
        have later : ∀ other ∈ rest, rule.pre < other.pre := above rule.pre rfl
        refine ⟨forall_mem_cons.mpr ⟨⟨⟨named, Nat.not_lt.mp short⟩, table.mp checked⟩, sound⟩,
          List.Pairwise.cons later sorted, ?_⟩
        intro prev eq
        have first := follows.mp ordered prev eq
        refine forall_mem_cons.mpr ⟨first, fun other mem => ?_⟩
        exact List.lt_trans first (later other mem)
    · rintro ⟨sound, sorted, above⟩
      obtain ⟨⟨⟨named, short⟩, covers⟩, soundRest⟩ := forall_mem_cons.mp sound
      obtain ⟨later, sortedRest⟩ := pairwise_cons.mp sorted
      have ordered := follows.mpr fun prev eq => above prev eq rule mem_cons_self
      rw [if_neg named, if_neg (Nat.not_lt.mpr short), if_neg ordered, table.mpr covers]
      refine ih.mpr ⟨soundRest, sortedRest, ?_⟩
      intro prev eq
      cases eq
      exact later

theorem checkPrefixes_iff {p : Placement} : p.checkPrefixes = none ↔
    RulesOk (p.prefixes.map PrefixRule.pre) ∧ (p.prefixes ≠ [] → p.keyHash ≠ "") ∧
      ∀ rule ∈ p.prefixes, TableOver p.legs rule.owners := by
  unfold Placement.checkPrefixes
  by_cases empty : p.prefixes = []
  · rw [if_pos empty, empty]
    refine ⟨fun _ => ⟨⟨by simp, by simp, by simp⟩, by simp, by simp⟩, fun _ => rfl⟩
  rw [if_neg empty]
  constructor
  · intro ok
    split at ok
    · cases ok
    rename_i few
    split at ok
    · cases ok
    rename_i hashed
    obtain ⟨sound, sorted, -⟩ := checkPrefixesFrom_iff.mp ok
    refine ⟨⟨by simpa using few, ?_, pairwise_map.mpr sorted⟩, fun _ => hashed,
      fun rule mem => (sound rule mem).2⟩
    exact List.forall_mem_map.mpr fun rule mem => (sound rule mem).1
  · rintro ⟨rules, hashed, covers⟩
    have few : ¬ maxPrefixRules < p.prefixes.length := by
      simpa using Nat.not_lt.mpr rules.few
    rw [if_neg few, if_neg (hashed empty), checkPrefixesFrom_iff]
    exact ⟨fun rule mem => ⟨List.forall_mem_map.mp rules.each rule mem,
      covers rule mem⟩, pairwise_map.mp rules.sorted, nofun⟩

end Shunt.Directory
