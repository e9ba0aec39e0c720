/-
What the validator accepts, said as facts about the file: each placement is sound by
itself, and no two of them hold the same backend bucket.
-/

import Shunt.Directory.Checks

namespace Shunt.Directory

open List Std.ExtTreeMap

open Config (Barrier Cluster)

def Placement.buckets (p : Placement) : List (String × String) :=
  if p.spread then p.legs.toList.map fun e => (e.2.cluster, e.2.bucket) else p.names.toList

structure PlainValid (clusters : StrMap Cluster) (p : Placement) : Prop extends PlainForm p where
  primaryKnown : p.primary ∈ clusters
  sourceKnown : p.source ≠ "" → p.source ∈ clusters
  targetKnown : p.target ≠ "" → p.target ∈ clusters ∧ p.target ∈ p.names
  evidence : p.cutover ≠ none → p.state = .cutover
  barrier : BarrierOk p.state p.barrier
  ramp : RampValid p.state p.ramp
  held : ∀ (cl name : String), p.names[cl]? = some name → Holdable clusters (cl, name)
  primaryNamed : p.primary ∈ p.names
  sourceNamed : p.source ≠ "" → p.source ∈ p.names
  coldNamed : p.cold ≠ "" → p.cold ∈ p.names
  tier : TierOk clusters p

structure MoveOk (p : Placement) (m : Move) : Prop where
  ramp : RampValid p.state m.ramp
  evidence : m.cutover ≠ none → p.state = .cutover
  byRatio : m.scope ≠ [] → m.rampsByPrefix = false

structure SpreadValid (configured : StrMap Cluster) (p : Placement) : Prop
    extends SpreadForm p where
  few : p.legs.size ≤ maxLegs
  named : ∀ id ∈ p.legs, legID id = true
  held : ∀ (id : String) (l : Leg), p.legs[id]? = some l → Holdable configured (l.cluster, l.bucket)
  hash : p.keyHash ≠ "" → validRampHashName p.keyHash = true
  split : 1 < p.owners.length ∨ p.prefixes ≠ [] → p.keyHash ≠ ""
  ruled : RulesOk (p.prefixes.map PrefixRule.pre)
  untiered : p.cold = "" ∧ p.tier = "" ∧ p.lifecycle = ""
  moves : ∀ m, p.move = some m → MoveOk p m
  unset : p.primary = "" ∧ p.names = ∅ ∧ p.cutover = none
  barrier : BarrierOk p.state p.barrier

section

variable {clusters : StrMap Cluster} {p : Placement} {m : Move} {k pk : String} {used : Used}

theorem checkLeg_iff {id : String} {l : Leg} :
    checkLeg id l = none ↔ legID id ∧ l.cluster ≠ "" ∧ l.bucket ≠ "" := by
  unfold checkLeg
  by_cases named : legID id
  · by_cases cluster : l.cluster = ""
    · simp [named, cluster]
    · by_cases bucket : l.bucket = "" <;> simp [named, cluster, bucket]
  · simp [named]

theorem SpreadCore.distinct (core : SpreadCore p) :
    (p.legs.toList.map fun e => (e.2.cluster, e.2.bucket)).Nodup := by
  rw [List.Nodup, pairwise_map]
  have keys := p.legs.distinct_keys_toList
  refine keys.imp_of_mem fun {a b} memberA memberB differ eq => ?_
  obtain ⟨idA, legA⟩ := a
  obtain ⟨idB, legB⟩ := b
  have sameLeg : legA = legB := by
    obtain ⟨clusterA, bucketA⟩ := legA
    obtain ⟨clusterB, bucketB⟩ := legB
    simp only [Prod.mk.injEq] at eq
    rw [eq.1, eq.2]
  subst sameLeg
  have sameId := core.apart idA idB legA
    (mem_toList_iff_getElem?_eq_some.mp memberA)
    (mem_toList_iff_getElem?_eq_some.mp memberB)
  exact differ (Std.compare_eq_iff_eq.mpr sameId)

theorem checkMoveState_iff : p.checkMoveState m = none ↔
    (∃ table, p.scopeTable m.scope = some table ∧ ownsAll table m.source m.range = true) ∧
      (m.scope ≠ [] → m.rampsByPrefix = false) ∧ (p.state = .ramping ↔ m.ramp ≠ none) ∧
      (m.cutover ≠ none → p.state = .cutover) := by
  unfold Placement.checkMoveState
  cases got : p.scopeTable m.scope with
  | none => simp
  | some table =>
    simp only [Option.some.injEq, exists_eq_left']
    by_cases owned : ownsAll table m.source m.range
    · rw [if_neg (by simp [owned])]
      by_cases ruled : m.scope ≠ [] ∧ m.rampsByPrefix
      · rw [if_pos ruled]
        simp only [reduceCtorEq, false_iff]
        rintro ⟨-, byRatio, -⟩
        rw [byRatio ruled.1] at ruled
        exact absurd ruled.2 Bool.false_ne_true
      rw [if_neg ruled]
      have byRatio : m.scope ≠ [] → m.rampsByPrefix = false := by simpa using ruled
      by_cases ramping : p.state = .ramping
      · by_cases ramp : m.ramp = none
        · simp [ramping, ramp]
        simp only [ramping, ramp, and_false, if_false, ne_eq, not_true, false_and,
          not_false_eq_true, true_and, owned]
        by_cases cutover : m.cutover = none
        · simp [cutover]
          exact byRatio
        · simp [cutover]
      by_cases ramp : m.ramp = none
      · simp only [ramping, ramp, false_and, if_false, ne_eq, not_true, and_false,
          not_false_eq_true, true_and, owned]
        by_cases cut : p.state = .cutover <;> simp [cut] <;> tauto
      · simp [ramping, ramp]
    · simp [owned]

theorem ownsAll_holds {table : List Owner} {leg : String} {rg : HashRange} : ownsAll table leg rg ↔
      ∃ o ∈ table, o.leg = leg ∧ o.lo ≤ rg.lo ∧ rg.hi ≤ o.hi := by
  simp only [ownsAll, List.any_eq_true, Bool.and_eq_true, decide_eq_true_eq, and_assoc]

theorem checkMoveLegs_of_form (form : MoveForm p m) (moving : p.move = some m) :
    p.checkMoveLegs = none := by
  simp only [Placement.checkMoveLegs, moving]
  rw [if_neg (UInt64.not_lt.mpr form.ordered), if_neg (not_not.mpr form.source),
    if_neg (not_not.mpr form.dest), if_neg form.different]

theorem SpreadValid.checkV2 (valid : SpreadValid clusters p) : p.checkV2 = none := by
  rw [checkV2_iff]
  refine ⟨?_, valid.few, ?_, valid.hash, fun several => valid.split (.inl several),
    valid.tables.own, ?_, ?_, fun given => absurd valid.target given,
    fun given => absurd valid.untiered.1 given⟩
  · intro none
    obtain ⟨o, mem, -⟩ := exists_owner valid.tables.own.1 0
    have has := valid.tables.own.2 o mem
    have empty : p.legs.isEmpty := by
      rw [isEmpty_eq_size_beq_zero, none]
      rfl
    rw [Std.ExtTreeMap.isEmpty_iff.mp empty] at has
    exact not_mem_empty has
  · intro id l got
    have holdable := valid.held id l got
    have has : id ∈ p.legs := isSome_getElem?_iff_mem.mp (by rw [got]; rfl)
    exact checkLeg_iff.mpr ⟨valid.named id has, holdable.1, validBucketName_ne_empty holdable.2.2⟩
  · exact checkPrefixes_iff.mpr ⟨valid.ruled, fun ruled => valid.split (.inr ruled),
      valid.tables.rules⟩
  cases moving : p.move with
  | none => simp [Placement.checkMoveLegs, moving]
  | some m => exact checkMoveLegs_of_form (valid.moving m moving) moving

theorem SpreadValid.checkSpread (valid : SpreadValid clusters p) : p.checkSpread = none := by
  unfold Placement.checkSpread
  rw [if_neg (by
    rintro (given | given | given | given)
    · exact given valid.target
    · exact given valid.untiered.1
    · exact given valid.untiered.2.1
    · exact given valid.untiered.2.2)]
  cases moving : p.move with
  | none => exact if_pos (valid.rest.mpr moving)
  | some m =>
    have away := valid.away moving
    have ok := valid.moves m moving
    obtain ⟨table, got, owned⟩ := (valid.moving m moving).owned
    simp only
    rw [if_neg away, checkMoveState_iff]
    exact ⟨⟨table, got, ownsAll_holds.mpr owned⟩, ok.byRatio, ok.ramp.present, ok.evidence⟩

theorem validateSpread_iff (spread : p.spread) (roles : p.legClusters = ∅) :
    (p.validateSpread clusters k pk used).1 = [] ↔
      SpreadValid clusters p ∧ ∀ b ∈ p.buckets, used.lookup b = none := by
  have held : p.buckets = p.legs.toList.map fun e => (e.2.cluster, e.2.bucket) := if_pos spread
  rw [held, List.forall_mem_map]
  constructor
  · intro ok
    have form := spreadForm_of_validated spread roles ok
    obtain ⟨v2, sent, ramps, unset, legs⟩ := validateSpread_parts ok
    have sound := checkV2_iff.mp v2
    obtain ⟨holdable, free, -⟩ := claimLegs_iff.mp legs
    have barrier : p.validateBarrier k = [] := by
      simp only [Placement.validateSpread, v2, append_eq_nil_iff] at ok
      exact ok.1.1.2
    obtain ⟨ruled, hashed, -⟩ := checkPrefixes_iff.mp sound.prefixes
    unfold Placement.checkSpread at sent
    split at sent
    · cases sent
    rename_i plainFields
    push Not at plainFields
    refine ⟨{
      toSpreadForm := form
      few := sound.few
      named := ?_
      held := ?_
      hash := sound.hash
      split := fun several => several.elim sound.split hashed
      ruled := ruled
      untiered := plainFields.2
      moves := ?_
      unset := ⟨unset.1, unset.2.2.1, unset.2.2.2.2⟩
      barrier := validateBarrier_iff.mp barrier }, free⟩
    · intro id mem
      obtain ⟨l, got⟩ := exists_leg mem
      exact (checkLeg_iff.mp (sound.legs id l got)).1
    · intro id l got
      exact holdable (id, l) (mem_toList_iff_getElem?_eq_some.mpr got)
    intro m moving
    simp only [moving] at sent
    split at sent
    · cases sent
    · obtain ⟨-, byRatio, -, evidence⟩ := checkMoveState_iff.mp sent
      exact ⟨validateRamp_iff.mp (ramps m moving), evidence, byRatio⟩
  · rintro ⟨valid, free⟩
    have legs : (claimLegs clusters k pk p.legs.toList used).1 = [] := by
      refine claimLegs_iff.mpr ⟨?_, free, valid.distinct⟩
      rintro ⟨id, l⟩ mem
      exact valid.held id l (mem_toList_iff_getElem?_eq_some.mp mem)
    have plain : ¬ (p.primary ≠ "" ∨ p.source ≠ "" ∨ p.names ≠ ∅ ∨ p.ramp ≠ none ∨
        p.cutover ≠ none) := by
      rintro (given | given | given | given | given)
      · exact given valid.unset.1
      · exact given valid.source
      · exact given valid.unset.2.1
      · exact given valid.ramp
      · exact given valid.unset.2.2
    simp only [Placement.validateSpread, valid.checkV2, valid.checkSpread, if_neg plain, legs,
      validateBarrier_iff.mpr valid.barrier, append_nil, nil_append]
    cases moving : p.move with
    | none => rfl
    | some m => exact validateRamp_iff.mpr (valid.moves m moving).ramp

theorem validateSpread_used (spread : p.spread)
    (ok : (p.validateSpread clusters k pk used).1 = []) :
    (p.validateSpread clusters k pk used).2 = used ++ p.buckets.map fun b => (b, pk) := by
  obtain ⟨v2, -, -, -, legs⟩ := validateSpread_parts ok
  have held : p.buckets = p.legs.toList.map fun e => (e.2.cluster, e.2.bucket) := if_pos spread
  simp only [Placement.validateSpread, v2, claimLegs_used legs, held, List.map_map]
  rfl

end

section

variable {clusters : StrMap Cluster} {p : Placement} {k pk : String} {used : Used}

theorem validateTarget_iff : p.validateTarget clusters k = [] ↔
    (p.target ≠ "" → p.state = .active ∧ p.target ≠ p.primary ∧ p.target ∈ clusters ∧
      p.target ∈ p.names) := by
  unfold Placement.validateTarget
  by_cases unset : p.target = ""
  · simp [unset]
  rw [if_neg unset]
  by_cases active : p.state = .active
  · rw [if_neg (not_not.mpr active)]
    by_cases eq : p.target = p.primary
    · rw [if_pos eq]
      exact ⟨nofun, fun sound => absurd eq (sound unset).2.1⟩
    rw [if_neg eq]
    by_cases configured : p.target ∈ clusters
    · rw [if_neg (not_not.mpr configured)]
      by_cases named : p.target ∈ p.names
      · simp [unset, active, eq, configured, named]
      · simp [unset, named]
    rw [if_pos configured]
    refine ⟨fun ok => absurd (refErrors_nil ok).2 configured, fun sound => ?_⟩
    exact absurd (sound unset).2.2.1 configured
  · simp [active, unset]

theorem validateSource_iff : p.validateSource clusters k = [] ↔
    (p.state = .active ↔ p.source = "") ∧
      (p.source ≠ "" → p.source ∈ clusters ∧ p.source ≠ p.primary) := by
  unfold Placement.validateSource
  by_cases active : p.state = .active <;> by_cases unset : p.source = ""
  · simp [active, unset]
  · simp [active, unset]
  · simp [active, unset]
  · simp only [active, unset, ne_eq, not_false_eq_true, and_false, if_false, false_and, if_true,
      append_eq_nil_iff, ite_nil, refErrors_iff, true_and, forall_const]

theorem validateNames_iff (tier : TierOk clusters p)
    (primary : p.primary ≠ "" ∧ p.primary ∈ clusters)
    (source : p.source ≠ "" → p.source ∈ clusters) :
    p.validateNames clusters k = [] ↔ p.primary ∈ p.names ∧
      (p.source ≠ "" → p.source ∈ p.names) ∧ (p.cold ≠ "" → p.cold ∈ p.names) := by
  have cold : p.cold ≠ "" → p.cold ∈ clusters := by
    intro given
    rcases tier.mode with plain | has
    · exact absurd (tier.untiered plain).1 given
    have modes : p.tier = "native" ∨ p.tier = "emulated" := by simpa [tierModes] using has
    rcases modes with native | emulated
    · exact absurd (tier.native native).1 given
    · exact (tier.emulated emulated).2.1
  have each : ∀ cl : String, (cl ≠ "" → cl ∈ clusters) →
      ((if cl = "" ∨ cl ∉ clusters ∨ cl ∈ p.names then []
        else [(⟨k ++ ".names", "missing backend bucket name for cluster " ++
          Config.quoted cl⟩ : Config.FieldError)]) = [] ↔ (cl ≠ "" → cl ∈ p.names)) := by
    intro cl has
    by_cases empty : cl = ""
    · simp [empty]
    · simp [empty, has empty]
  simp only [Placement.validateNames, flatMap_eq_nil_iff, forall_mem_cons]
  rw [each p.primary fun _ => primary.2, each p.source source, each p.cold cold]
  simp [primary.1]

theorem validatePlain_iff (plain : p.spread = false) (roles : p.legClusters = ∅) :
    (p.validatePlain clusters k pk used).1 = [] ↔
      PlainValid clusters p ∧ ∀ b ∈ p.buckets, used.lookup b = none := by
  have held : p.buckets = p.names.toList := if_neg (by simp [plain])
  rw [held]
  constructor
  · intro ok
    have form := plainForm_of_validated plain roles ok
    simp only [Placement.validatePlain, append_eq_nil_iff] at ok
    obtain ⟨⟨⟨⟨⟨⟨⟨⟨has, target⟩, cutover⟩, barrier⟩, source⟩, ramp⟩, names⟩, roles_⟩, tier⟩ := ok
    have primary := refErrors_iff.mp has
    have sources := validateSource_iff.mp source
    have tiered := validateTier_iff.mp tier
    obtain ⟨primaryNamed, sourceNamed, coldNamed⟩ :=
      (validateNames_iff tiered primary fun given => (sources.2 given).1).mp roles_
    obtain ⟨holdable, free, -⟩ := claimNames_iff.mp names
    refine ⟨{
      toPlainForm := form
      primaryKnown := primary.2
      sourceKnown := fun given => (sources.2 given).1
      targetKnown := fun given => (validateTarget_iff.mp target given).2.2
      evidence := ?_
      barrier := validateBarrier_iff.mp barrier
      ramp := validateRamp_iff.mp ramp
      held := ?_
      primaryNamed := primaryNamed
      sourceNamed := sourceNamed
      coldNamed := coldNamed
      tier := tiered }, free⟩
    · rw [ite_nil] at cutover
      intro given
      exact not_not.mp fun other => cutover ⟨given, other⟩
    · intro cl name got
      exact holdable (cl, name) (mem_toList_iff_getElem?_eq_some.mpr got)
  · rintro ⟨valid, free⟩
    have target : p.validateTarget clusters k = [] := by
      rw [validateTarget_iff]
      intro given
      refine ⟨?_, valid.away, valid.targetKnown given⟩
      exact not_not.mp fun moving => given (valid.idle moving)
    have source : p.validateSource clusters k = [] :=
      validateSource_iff.mpr ⟨valid.rest, fun given => ⟨valid.sourceKnown given, valid.apart⟩⟩
    have names : (claimNames clusters k pk p.names.toList used).1 = [] := by
      refine claimNames_iff.mpr ⟨?_, free, ?_⟩
      · rintro ⟨cl, name⟩ mem
        exact valid.held cl name (mem_toList_iff_getElem?_eq_some.mp mem)
      · refine p.names.distinct_keys_toList.imp fun differ eq => ?_
        exact differ (Std.compare_eq_iff_eq.mpr (congrArg Prod.fst eq))
    have roles_ : p.validateNames clusters k = [] :=
      (validateNames_iff valid.tier ⟨valid.primary, valid.primaryKnown⟩ valid.sourceKnown).mpr
        ⟨valid.primaryNamed, valid.sourceNamed, valid.coldNamed⟩
    have cutover : ¬ (p.cutover ≠ none ∧ p.state ≠ .cutover) := by
      rintro ⟨given, other⟩
      exact other (valid.evidence given)
    simp only [Placement.validatePlain, refErrors_iff.mpr ⟨valid.primary, valid.primaryKnown⟩,
      target, if_neg cutover, validateBarrier_iff.mpr valid.barrier, source,
      validateRamp_iff.mpr valid.ramp, names, roles_, validateTier_iff.mpr valid.tier, append_nil]

theorem validatePlain_used (plain : p.spread = false)
    (ok : (p.validatePlain clusters k pk used).1 = []) :
    (p.validatePlain clusters k pk used).2 = used ++ p.buckets.map fun b => (b, pk) := by
  have held : p.buckets = p.names.toList := if_neg (by simp [plain])
  simp only [Placement.validatePlain, append_eq_nil_iff] at ok
  simp only [Placement.validatePlain, claimNames_used ok.1.1.2, held]

end

def Placement.Sound (clusters : StrMap Cluster) (p : Placement) : Prop :=
  PlainValid clusters p ∨ SpreadValid clusters p

section

variable {f g : File} {p : Placement} {k : String} {used : Used}

theorem Placement.Sound.roles {clusters : StrMap Cluster} (sound : p.Sound clusters) :
    p.legClusters = ∅ := by
  rcases sound with plain | spread
  · exact plain.roles
  · exact spread.roles

theorem Placement.Sound.formed {clusters : StrMap Cluster} (sound : p.Sound clusters) :
    Formed p := sound.imp (·.toPlainForm) (·.toSpreadForm)

theorem validatePlacement_iff (roles : p.legClusters = ∅) :
    (validatePlacement f k p used).1 = [] ↔ validateKey f.tenants ("placements." ++ k) k = [] ∧
      p.Sound f.clusters ∧ ∀ b ∈ p.buckets, used.lookup b = none := by
  simp only [validatePlacement, append_eq_nil_iff, Placement.Sound]
  by_cases spread : p.spread
  · have notPlain : ¬ PlainValid f.clusters p := fun valid => by
      rw [valid.plain] at spread
      cases spread
    rw [if_pos spread, validateSpread_iff spread roles]
    simp only [notPlain, false_or]
  have plain : p.spread = false := by simpa using spread
  have notSpread : ¬ SpreadValid f.clusters p := fun valid => spread valid.spread
  rw [if_neg spread, validatePlain_iff plain roles]
  simp only [notSpread, or_false]

theorem Placement.Valid.sound (valid : p.Valid) : ∃ clusters, p.Sound clusters := by
  obtain ⟨f, key, used, ok⟩ := valid.checked
  exact ⟨f.clusters, ((validatePlacement_iff valid.1).mp ok).2.1⟩

theorem validatePlacement_used (ok : (validatePlacement f k p used).1 = []) :
    (validatePlacement f k p used).2 = used ++ p.buckets.map fun b => (b, k) := by
  simp only [validatePlacement, append_eq_nil_iff] at ok ⊢
  by_cases spread : p.spread
  · rw [if_pos spread] at ok ⊢
    exact validateSpread_used spread ok.2
  · rw [if_neg spread] at ok ⊢
    exact validatePlain_used (by simpa using spread) ok.2

theorem lookup_held {b : String × String} {held : List (String × String)} :
    (used ++ held.map fun b => (b, k)).lookup b = none ↔ used.lookup b = none ∧ b ∉ held := by
  rw [lookup_append]
  have gone : (held.map fun b => (b, k)).lookup b = none ↔ b ∉ held := by
    rw [lookup_eq_none_iff, List.forall_mem_map]
    simp only [bne_iff_ne]
    exact ⟨fun differ mem => differ b mem rfl, fun away c mem eq => away (eq ▸ mem)⟩
  cases used.lookup b with
  | some => simp
  | none => simpa using gone

def Apart (entries : List (String × Placement)) : Prop :=
  entries.Pairwise fun left right => ∀ b ∈ left.2.buckets, b ∉ right.2.buckets

theorem validatePlacements_iff {entries : List (String × Placement)}
    (roles : ∀ e ∈ entries, e.2.legClusters = ∅) : validatePlacements f entries used = [] ↔
      (∀ e ∈ entries, validateKey f.tenants ("placements." ++ e.1) e.1 = [] ∧
        e.2.Sound f.clusters) ∧
      (∀ e ∈ entries, ∀ b ∈ e.2.buckets, used.lookup b = none) ∧ Apart entries := by
  induction entries generalizing used with
  | nil => simp [validatePlacements, Apart]
  | cons head rest ih =>
    obtain ⟨key, p⟩ := head
    obtain ⟨rolesHere, rolesRest⟩ := forall_mem_cons.mp roles
    simp only [validatePlacements, append_eq_nil_iff, Apart, pairwise_cons, forall_mem_cons]
    constructor
    · rintro ⟨here, later⟩
      rw [validatePlacement_used here, ih rolesRest] at later
      obtain ⟨sound, free, apart⟩ := later
      obtain ⟨keyed, soundHere, freeHere⟩ := (validatePlacement_iff rolesHere).mp here
      refine ⟨⟨⟨keyed, soundHere⟩, sound⟩, ⟨freeHere, ?_⟩, ?_, apart⟩
      · exact fun e mem b isIn => (lookup_held.mp (free e mem b isIn)).1
      · intro e mem b isIn again
        exact (lookup_held.mp (free e mem b again)).2 isIn
    rintro ⟨⟨⟨keyed, soundHere⟩, sound⟩, ⟨freeHere, free⟩, others, apart⟩
    have here : (validatePlacement f key p used).1 = [] :=
      (validatePlacement_iff rolesHere).mpr ⟨keyed, soundHere, freeHere⟩
    refine ⟨here, ?_⟩
    rw [validatePlacement_used here, ih rolesRest]
    refine ⟨sound, ?_, apart⟩
    intro e mem b isIn
    exact lookup_held.mpr ⟨free e mem b isIn, fun again => others e mem b again isIn⟩

def File.frameErrors (f : File) : List Config.FieldError :=
  (if f.version < 0 then [⟨"version", "must not be negative"⟩] else []) ++
  validateLineage f ++ Config.validateClusters "clusters" f.clusters ++ validateTenants f

theorem validate_iff (roles : ∀ (k : String) (p : Placement), f.placements[k]? = some p →
      p.legClusters = ∅) : f.validate = [] ↔ f.frameErrors = [] ∧
    (∀ (k : String) (p : Placement), f.placements[k]? = some p →
      validateKey f.tenants ("placements." ++ k) k = [] ∧ p.Sound f.clusters) ∧
    ∀ (k k' : String) (p q : Placement), f.placements[k]? = some p →
      f.placements[k']? = some q → k ≠ k' → ∀ b ∈ p.buckets, b ∉ q.buckets := by
  have entry : ∀ {e : String × Placement}, e ∈ f.placements.toList ↔
      f.placements[e.1]? = some e.2 := mem_toList_iff_getElem?_eq_some
  have apart : Apart f.placements.toList ↔
      ∀ (k k' : String) (p q : Placement), f.placements[k]? = some p →
        f.placements[k']? = some q → k ≠ k' → ∀ b ∈ p.buckets, b ∉ q.buckets := by
    have symmetric : Std.Symm fun left right : String × Placement =>
        ∀ b ∈ left.2.buckets, b ∉ right.2.buckets :=
      ⟨fun left right disjoint b isIn again => disjoint b again isIn⟩
    constructor
    · intro pairwise k k' p q atK atK' differ
      exact pairwise.forall (entry (e := (k, p)).mpr atK) (entry (e := (k', q)).mpr atK')
        fun eq => differ (congrArg Prod.fst eq)
    intro each
    refine f.placements.distinct_keys_toList.imp_of_mem fun {a b} memberA memberB differ => ?_
    exact each a.1 b.1 a.2 b.2 (entry.mp memberA) (entry.mp memberB)
      fun eq => differ (Std.compare_eq_iff_eq.mpr eq)
  have checked := @validatePlacements_iff f [] f.placements.toList
    fun e mem => roles e.1 e.2 (entry.mp mem)
  rw [File.validate, ← File.frameErrors, append_eq_nil_iff, checked, apart]
  refine and_congr_right fun _ => ⟨?_, ?_⟩
  · rintro ⟨sound, -, disjoint⟩
    exact ⟨fun k p got => sound (k, p) (entry.mpr got), disjoint⟩
  · rintro ⟨sound, disjoint⟩
    exact ⟨fun e mem => sound e.1 e.2 (entry.mp mem), fun _ _ _ _ => rfl, disjoint⟩

end

end Shunt.Directory
