/-
The two round trips of a placement: through its JSON encoding, as every reader of the
directory decodes it, and through schema v2.
-/

import Shunt.Directory.Encoding
import Shunt.Directory.Stored
import Shunt.Library.MapFold

namespace Shunt.Directory

open Library List Option Std.ExtTreeMap

variable {p q : Placement}
variable {clusters : StrMap Config.Cluster}

def legOf (cluster bucket : String) : Leg := ⟨cluster, bucket⟩

def Placement.holder (p : Placement) : String :=
  if p.state = .active then p.primary else p.source

/-- A placement in schema v2: every backend bucket a leg named after its cluster. -/
def Placement.toV2 (p : Placement) : Placement :=
  if p.spread then p
  else
    { p with
      primary := "", source := "", names := ∅, ramp := none, cutover := none
      legs := p.names.map legOf
      owners := [⟨fullRange.lo, fullRange.hi, p.holder⟩]
      move :=
        if p.state = .active then p.move
        else some ⟨[], fullRange, p.source, p.primary, p.ramp, p.cutover⟩ }

structure PlainNames (p : Placement) : Prop where
  primary : p.primary ∈ p.names
  source : p.source ≠ "" → p.source ∈ p.names
  target : p.target ≠ "" → p.target ∈ p.names
  cold : p.cold ≠ "" → p.cold ∈ p.names
  clusters : ∀ cl ∈ p.names, cl ≠ ""
  buckets : ∀ (cl bucket : String), p.names[cl]? = some bucket → bucket ≠ ""
  cutover : p.state = .active → p.cutover = none

theorem claimNames_accepted {k pk : String} {entries : List (String × String)} {used : Used}
    (ok : (claimNames clusters k pk entries used).1 = []) :
    ∀ entry ∈ entries, entry.1 ≠ "" ∧ entry.2 ≠ "" := by
  induction entries generalizing used with
  | nil => exact fun entry mem => (nomatch mem)
  | cons head rest ih =>
    obtain ⟨cl, name⟩ := head
    simp only [claimNames, append_eq_nil_iff] at ok
    obtain ⟨⟨has, claimed⟩, later⟩ := ok
    intro entry mem
    rcases mem_cons.mp mem with rfl | post
    · refine ⟨(refErrors_nil has).1, ?_⟩
      intro empty
      simp only at empty
      rw [if_pos empty] at claimed
      cases claimed
    · exact ih later entry post

theorem validateNames_named {k cl : String}
    (ok : p.validateNames clusters k = []) (role : cl ∈ [p.primary, p.source, p.cold])
    (given : cl ≠ "") (has : cl ∈ clusters) : cl ∈ p.names := by
  simp only [Placement.validateNames, flatMap_eq_nil_iff] at ok
  have checked := ok cl role
  split at checked
  · rename_i allowed
    rcases allowed with empty | unknown | named
    · exact absurd empty given
    · exact absurd has unknown
    · exact named
  · cases checked

theorem validateTier_cold {k : String}
    (ok : p.validateTier clusters k = []) (given : p.cold ≠ "") : p.cold ∈ clusters := by
  unfold Placement.validateTier at ok
  split at ok
  · rename_i other
    simp [Config.oneOf, other.1, other.2] at ok
  split at ok
  · simp at ok
  split at ok
  · simp at ok
  split at ok
  · rename_i unknown
    exact absurd (refErrors_nil ok).2 unknown
  · rename_i has
    exact not_not.mp has

theorem Placement.Valid.plainNames (valid : p.Valid) (plain : p.spread = false) : PlainNames p := by
  obtain ⟨f, key, used, ok⟩ := valid.checked
  simp only [validatePlacement, plain, Bool.false_eq_true, if_false, append_eq_nil_iff,
    Placement.validatePlain] at ok
  obtain ⟨-, ⟨⟨⟨⟨⟨⟨⟨has, target⟩, cutover⟩, -⟩, source⟩, -⟩, names⟩, roles⟩, tier⟩ := ok
  have entries := claimNames_accepted names
  have primary := refErrors_nil has
  refine ⟨?_, ?_, ?_, ?_, ?_, ?_, ?_⟩
  · exact validateNames_named roles (by simp) primary.1 primary.2
  · intro given
    refine validateNames_named roles (by simp) given ?_
    unfold Placement.validateSource at source
    iterate 2
      split at source
      · cases source
    · rw [append_eq_nil_iff] at source
      exact (refErrors_nil source.1).2
  · intro given
    unfold Placement.validateTarget at target
    rw [if_neg given] at target
    iterate 2
      split at target
      · cases target
    split at target
    · rename_i unknown
      exact absurd (refErrors_nil target).2 unknown
    split at target
    · cases target
    · rename_i named
      exact not_not.mp named
  · intro given
    exact validateNames_named roles (by simp) given (validateTier_cold tier given)
  · intro cl mem
    obtain ⟨bucket, got⟩ := isSome_iff_exists.mp (isSome_getElem?_iff_mem.mpr mem)
    exact (entries (cl, bucket) (mem_toList_iff_getElem?_eq_some.mpr got)).1
  · intro cl bucket got
    exact (entries (cl, bucket) (mem_toList_iff_getElem?_eq_some.mpr got)).2
  intro active
  by_contra there
  rw [if_pos ⟨there, by rw [active]; decide⟩] at cutover
  cases cutover

section

variable (plain : p.spread = false) (names : PlainNames p)

theorem toV2_legs (plain : p.spread = false) : p.toV2.legs = p.names.map legOf := by
  rw [Placement.toV2, if_neg (by simp [plain])]

include plain in
theorem mem_toV2_legs {cl : String} : cl ∈ p.toV2.legs ↔ cl ∈ p.names := by
  rw [toV2_legs plain]
  exact Std.ExtTreeMap.mem_map

include plain in
theorem toV2_cluster {cl : String} (mem : cl ∈ p.names) : (legIn p.toV2.legs cl).cluster = cl := by
  obtain ⟨bucket, got⟩ := isSome_iff_exists.mp (isSome_getElem?_iff_mem.mpr mem)
  rw [toV2_legs plain, legIn, Std.ExtTreeMap.getElem?_map, got]
  rfl

theorem plainNames_fold {entries : List (String × Leg)} {names : StrMap String}
    (fresh : ∀ e ∈ entries, e.2.cluster ∉ names)
    (apart : entries.Pairwise fun a b => a.2.cluster ≠ b.2.cluster) : plainNames entries names =
      .ok (entries.foldl (fun kept e => kept.insert e.2.cluster e.2.bucket) names) := by
  induction entries generalizing names with
  | nil => rfl
  | cons head rest ih =>
    obtain ⟨others, later⟩ := pairwise_cons.mp apart
    rw [plainNames, if_neg (fresh head mem_cons_self), foldl_cons]
    refine ih ?_ later
    intro e mem isIn
    rcases mem_insert.mp isIn with eq | prev
    · exact others e mem (Std.compare_eq_iff_eq.mp eq)
    · exact fresh e (mem_cons_of_mem head mem) prev

include plain in
theorem plainNames_toV2 : plainNames p.toV2.legs.toList ∅ = .ok p.names := by
  rw [toV2_legs plain, Std.ExtTreeMap.toList_map]
  have uniq := p.names.distinct_keys_toList
  have apart : (p.names.toList.map fun e => (e.1, legOf e.1 e.2)).Pairwise
      fun a b => a.2.cluster ≠ b.2.cluster := by
    rw [pairwise_map]
    exact uniq.imp fun differ eq => differ (Std.compare_eq_iff_eq.mpr eq)
  rw [plainNames_fold (fun e _ => not_mem_empty) apart, foldl_map]
  congr 1
  exact ofList_eq_foldl.symm.trans (ofList_toList p.names)

theorem toV2_eq (plain : p.spread = false) : p.toV2 =
    { p with
      primary := "", source := "", names := ∅, ramp := none, cutover := none
      legs := p.names.map legOf
      owners := [⟨fullRange.lo, fullRange.hi, p.holder⟩]
      move :=
        if p.state = .active then p.move
        else some ⟨[], fullRange, p.source, p.primary, p.ramp, p.cutover⟩ } := by
  rw [Placement.toV2, if_neg (by simp [plain])]

theorem checkV2_size (ok : q.checkV2 = none) : q.legs.size ≤ maxLegs := by
  unfold Placement.checkV2 at ok
  iterate 2
    split at ok
    · cases ok
  · omega

include plain names in
theorem checkV2_toV2 (form : PlainForm p) (ids : ∀ cl ∈ p.names, legID cl)
    (unhashed : p.keyHash = "") (few : p.names.size ≤ maxLegs) : p.toV2.checkV2 = none := by
  have size : p.toV2.legs.size = p.names.size := by rw [toV2_legs plain, size_map]
  have some_ : p.names.size ≠ 0 := by
    intro none
    have empty : p.names.isEmpty := by
      rw [isEmpty_eq_size_beq_zero, none]
      rfl
    have mem := names.primary
    rw [Std.ExtTreeMap.isEmpty_iff.mp empty] at mem
    exact not_mem_empty mem
  have legs : ∀ (id : String) (l : Leg), p.toV2.legs[id]? = some l → checkLeg id l = none := by
    intro id l held
    rw [toV2_legs plain, Std.ExtTreeMap.getElem?_map] at held
    obtain ⟨bucket, got, rfl⟩ := Option.map_eq_some_iff.mp held
    have has : id ∈ p.names := isSome_getElem?_iff_mem.mp (by rw [got]; rfl)
    simp only [checkLeg, legOf, ids id has, names.clusters id has,
      names.buckets id bucket got, if_false, Bool.true_eq_false]
  have holder : p.holder ∈ p.toV2.legs := by
    rw [mem_toV2_legs plain, Placement.holder]
    split
    · exact names.primary
    · rename_i moving
      exact names.source fun empty => moving (form.rest.mpr empty)
  have owners : checkOwners p.toV2.owners p.toV2.legs = none := by
    have table : p.toV2.owners = [⟨fullRange.lo, fullRange.hi, p.holder⟩] := by
      rw [toV2_eq plain]
    rw [table]
    simp [checkOwners, checkOwnersFrom, holder, fullRange, lastHash]
  have rules : p.toV2.checkPrefixes = none := by
    have eq : p.toV2.prefixes = [] := by
      rw [toV2_eq plain]
      exact (noRules plain).1
    rw [Placement.checkPrefixes, if_pos eq]
  have move : p.toV2.checkMoveLegs = none := by
    have shape : p.toV2.move = if p.state = .active then none
        else some ⟨[], fullRange, p.source, p.primary, p.ramp, p.cutover⟩ := by
      rw [toV2_eq plain]
      simp only [(noRules plain).2]
    unfold Placement.checkMoveLegs
    rw [shape]
    by_cases active : p.state = .active
    · rw [if_pos active]
    have source := names.source fun empty => active (form.rest.mpr empty)
    rw [if_neg active]
    simp [mem_toV2_legs plain, source, names.primary, form.apart, fullRange]
  have target : p.toV2.target ≠ "" → p.toV2.target ∈ p.toV2.legs := by
    intro given
    rw [mem_toV2_legs plain]
    rw [toV2_eq plain] at given ⊢
    exact names.target given
  have cold : p.toV2.cold ≠ "" → p.toV2.cold ∈ p.toV2.legs := by
    intro given
    rw [mem_toV2_legs plain]
    rw [toV2_eq plain] at given ⊢
    exact names.cold given
  have hash : p.toV2.keyHash = "" := by
    rw [toV2_eq plain]
    exact unhashed
  have single : p.toV2.owners.length = 1 := by rw [toV2_eq plain]; rfl
  refine checkV2_iff.mpr ⟨by rwa [size], by rwa [size], legs, absurd hash, ?_,
    (checkOwners_accepts _ _).mp owners, rules, move, target, cold⟩
  omega

include plain names in
theorem keepsLegs_toV2 (form : PlainForm p) : p.toV2.keepsLegs = false := by
  have source : p.state ≠ .active → p.toV2.sameClusterMove
      ⟨[], fullRange, p.source, p.primary, p.ramp, p.cutover⟩ = false := by
    intro moving
    have mem := names.source fun empty => moving (form.rest.mpr empty)
    obtain ⟨from_, atSource⟩ := isSome_iff_exists.mp (isSome_getElem?_iff_mem.mpr mem)
    obtain ⟨to_, atPrimary⟩ := isSome_iff_exists.mp (isSome_getElem?_iff_mem.mpr names.primary)
    simp [Placement.sameClusterMove, toV2_legs plain, Std.ExtTreeMap.getElem?_map, atSource,
      atPrimary, legOf, form.apart]
  by_cases active : p.state = .active
  · simp [Placement.keepsLegs, toV2_eq plain, active, (noRules plain).1, (noRules plain).2]
  have moves := source active
  rw [toV2_eq plain] at moves ⊢
  simp only [if_neg active] at moves ⊢
  simp only [Placement.keepsLegs, moves]
  simp [(noRules plain).1]

include plain names in
theorem plainRoles_toV2 (form : PlainForm p) : p.toV2.plainRoles p.names =
    .ok { p with legs := ∅, owners := [], keyHash := "" } := by
  have role : ∀ r : String, (r ≠ "" → r ∈ p.names) →
      (if r ≠ "" then (legIn p.toV2.legs r).cluster else r) = r := by
    intro r named
    split
    · rename_i given
      exact toV2_cluster plain (named given)
    · rfl
  have target := role _ names.target
  have cold := role _ names.cold
  have primary := toV2_cluster plain names.primary
  have ruled := noRules plain
  rw [toV2_eq plain] at target cold primary ⊢
  by_cases active : p.state = .active
  · have source := form.rest.mp active
    have ramp := form.ramped.noRamp (by rw [active]; decide)
    have cutover := names.cutover active
    simp only [Placement.plainRoles, Placement.holder, active, if_true, ruled.2, target, cold,
      head?_cons, map_some, getD_some, primary]
    obtain ⟨⟩ := p
    simp_all
  have moved := toV2_cluster plain (names.source fun empty => active (form.rest.mpr empty))
  rw [toV2_eq plain] at moved
  simp only [Placement.plainRoles, Placement.holder, if_neg active, target, cold, head?_cons,
    map_some, getD_some, primary, moved, ne_eq, not_true, if_false]
  obtain ⟨⟩ := p
  simp_all

end

theorem fromV2_toV2 (valid : p.Valid) (plain : p.spread = false)
    (ids : ∀ cl ∈ p.names, legID cl) : p.toV2.fromV2 = .ok p ↔
      p.keyHash = "" ∧ p.legs = ∅ ∧ p.owners = [] ∧ p.names.size ≤ maxLegs := by
  have names := valid.plainNames plain
  have form := valid.formed.plainForm plain
  have v2 : p.toV2.isV2 := by
    rw [toV2_eq plain]
    simp [Placement.isV2]
  have single : ¬ (p.toV2.primary ≠ "" ∨ p.toV2.source ≠ "" ∨ p.toV2.names ≠ ∅ ∨
      p.toV2.ramp ≠ none ∨ p.toV2.cutover ≠ none) := by
    rw [toV2_eq plain]
    simp
  have read : p.toV2.checkV2 = none →
      p.toV2.fromV2 = .ok { p with legs := ∅, owners := [], keyHash := "" } := by
    intro checked
    rw [Placement.fromV2, if_neg (by simp [v2]), if_neg single, checked,
      keepsLegs_toV2 plain names form, plainNames_toV2 plain]
    exact plainRoles_toV2 plain names form
  constructor
  · intro eq
    cases checked : p.toV2.checkV2 with
    | some =>
      rw [Placement.fromV2, if_neg (by simp [v2]), if_neg single, checked] at eq
      cases eq
    | none =>
      have size := checkV2_size checked
      rw [toV2_legs plain, size_map] at size
      rw [read checked, Except.ok.injEq] at eq
      exact ⟨by rw [← eq], by rw [← eq], by rw [← eq], size⟩
  · rintro ⟨hash, legs, owners, few⟩
    rw [read (checkV2_toV2 plain names form ids hash few)]
    simp only [← hash, ← legs, ← owners]

def rampKeys (ramp : Option Ramp) : List Key :=
  match ramp with
  | none => []
  | some r => r.prefixes ++ ((r.hold.map RampHold.prefixes).getD [])

def Placement.storedKeys (p : Placement) : List Key :=
  rampKeys p.ramp ++
  (match p.move with
    | none => []
    | some m => m.scope :: rampKeys m.ramp) ++
  p.prefixes.map PrefixRule.pre

theorem coerced_iff {k : Key} : coerced k = k ↔ Utf8 k := bytesOf_textOf_iff

theorem map_fixed {α : Type} {f : α → α} {items : List α} :
    items.map f = items ↔ ∀ a ∈ items, f a = a := by
  induction items with
  | nil => simp
  | cons a rest ih => simp [ih]

theorem coercedKeys_iff {keys : List Key} : keys.map coerced = keys ↔ ∀ k ∈ keys, Utf8 k := by
  rw [map_fixed]
  exact forall₂_congr fun _ _ => coerced_iff

theorem coercedRamp_iff {ramp : Option Ramp} :
    ramp.map Ramp.coerced = ramp ↔ ∀ k ∈ rampKeys ramp, Utf8 k := by
  cases ramp with
  | none => simp [rampKeys]
  | some r =>
    obtain ⟨hash, ratio, prefixes, range, hold⟩ := r
    cases hold with
    | none => simp [rampKeys, Ramp.coerced, coercedKeys_iff]
    | some h =>
      obtain ⟨step, held⟩ := h
      simp [rampKeys, Ramp.coerced, RampHold.coerced, coercedKeys_iff, or_imp, forall_and]

theorem coercedMove_iff {move : Option Move} : move.map Move.coerced = move ↔
    ∀ m, move = some m → Utf8 m.scope ∧ ∀ k ∈ rampKeys m.ramp, Utf8 k := by
  cases move with
  | none => simp
  | some m =>
    obtain ⟨scope, range, source, dest, ramp, cutover⟩ := m
    simp [Move.coerced, coerced_iff, coercedRamp_iff]

theorem coercedRules_iff {rules : List PrefixRule} :
    rules.map PrefixRule.coerced = rules ↔ ∀ k ∈ rules.map PrefixRule.pre, Utf8 k := by
  rw [map_fixed, List.forall_mem_map]
  refine forall₂_congr fun rule _ => ?_
  obtain ⟨pre, owners⟩ := rule
  simp [PrefixRule.coerced, coerced_iff]

theorem coerced_eq_iff (roles : p.legClusters = ∅) :
    p.coerced = p ↔ ∀ k ∈ p.storedKeys, Utf8 k := by
  have parts : p.coerced = p ↔ p.ramp.map Ramp.coerced = p.ramp ∧
      p.move.map Move.coerced = p.move ∧ p.prefixes.map PrefixRule.coerced = p.prefixes := by
    constructor
    · intro eq
      have ramp := congrArg Placement.ramp eq
      have move := congrArg Placement.move eq
      have rules := congrArg Placement.prefixes eq
      exact ⟨ramp, move, rules⟩
    · rintro ⟨ramp, move, rules⟩
      rw [Placement.coerced, ramp, move, rules, ← roles]
  rw [parts, coercedRamp_iff, coercedMove_iff, coercedRules_iff]
  cases moving : p.move with
  | none => simp [Placement.storedKeys, moving, or_imp, forall_and]
  | some => simp [Placement.storedKeys, moving, or_imp, forall_and, and_assoc]

theorem plainRoles_plain {names : StrMap String} (read : q.plainRoles names = .ok p) :
    p.legs = ∅ ∧ p.owners = [] ∧ p.move = none ∧ p.prefixes = q.prefixes ∧
      p.legClusters = q.legClusters := by
  cases moving : q.move with
  | none =>
    by_cases active : q.state = .active
    · simp only [Placement.plainRoles, moving, if_pos active, Except.ok.injEq] at read
      subst read
      exact ⟨rfl, rfl, rfl, rfl, rfl⟩
    · simp only [Placement.plainRoles, moving, if_neg active, reduceCtorEq] at read
  | some m =>
    by_cases active : q.state = .active
    · simp only [Placement.plainRoles, moving, if_pos active, reduceCtorEq] at read
    by_cases all : m.range ≠ fullRange
    · simp only [Placement.plainRoles, moving, if_neg active, if_pos all, reduceCtorEq] at read
    by_cases other : m.source ≠ (q.owners.head?.map Owner.leg).getD ""
    · simp only [Placement.plainRoles, moving, if_neg active, if_neg all, if_pos other,
        reduceCtorEq] at read
    simp only [Placement.plainRoles, moving, if_neg active, if_neg all, if_neg other,
      Except.ok.injEq] at read
    subst read
    exact ⟨rfl, rfl, rfl, rfl, rfl⟩

inductive Converted (q p : Placement) : Prop where
  | plain (v1 : q.isV2 = false) (eq : p = q)
  | kept (keeps : q.keepsLegs = true) (eq : p = q)
  | folded (drops : q.keepsLegs = false) (legs : p.legs = ∅) (owners : p.owners = [])
      (move : p.move = none) (prefixes : p.prefixes = q.prefixes)
      (roles : p.legClusters = q.legClusters) (v2 : q.isV2 = true)

theorem fromV2_converted (read : q.fromV2 = .ok p) : Converted q p := by
  unfold Placement.fromV2 at read
  split at read
  · rename_i v1
    cases read
    exact .plain v1 rfl
  rename_i v2
  split at read
  · cases read
  cases checked : q.checkV2 with
  | some =>
    rw [checked] at read
    cases read
  | none =>
    simp only [checked] at read
    split at read
    · rename_i keeps
      cases spread : q.checkSpread with
      | some =>
        rw [spread] at read
        cases read
      | none =>
        simp only [spread] at read
        cases read
        exact .kept keeps rfl
    · rename_i drops
      cases folded : plainNames q.legs.toList ∅ with
      | error =>
        rw [folded] at read
        cases read
      | ok =>
        simp only [folded] at read
        obtain ⟨legs, owners, move, prefixes, roles⟩ := plainRoles_plain read
        exact .folded (by simpa using drops) legs owners move prefixes roles (by simpa using v2)

theorem keepsLegs_rules (drops : q.keepsLegs = false) : q.prefixes = [] := by
  simp only [Placement.keepsLegs, Bool.or_eq_false_iff] at drops
  simpa using drops.1.2

theorem fromV2_storable (roles : q.legClusters = ∅) (read : q.fromV2 = .ok p) : Storable p := by
  cases fromV2_converted read with
  | plain v1 eq =>
    subst eq
    simp only [Placement.isV2, Bool.or_eq_false_iff, Bool.not_eq_false', List.isEmpty_iff,
      Std.ExtTreeMap.isEmpty_iff] at v1
    refine ⟨roles, fun _ => ⟨v1.1.1.1, v1.1.1.2⟩, fun spread => ?_⟩
    simp only [Placement.spread, v1.1.1.2, v1.2] at spread
    simp [v1.1.2] at spread
  | kept keeps eq =>
    subst eq
    refine ⟨roles, fun plain => ?_, fun _ => keeps⟩
    simp only [Placement.spread, Bool.or_eq_false_iff] at plain
    simp only [Placement.keepsLegs, plain.1.1, plain.2, Bool.false_or] at keeps
    have still : p.move = none := by simpa using plain.1.2
    simp [still] at keeps
  | folded drops legs owners move prefixes kept =>
    refine ⟨kept.trans roles, fun _ => ⟨legs, owners⟩, fun spread => ?_⟩
    simp [Placement.spread, owners, move, prefixes, keepsLegs_rules drops] at spread

theorem fromV2_same (read : q.fromV2 = .ok p) (schema : p.isV2 = q.isV2) : p = q := by
  cases fromV2_converted read with
  | plain v1 eq | kept keeps eq => exact eq
  | folded drops legs owners move prefixes kept v2 =>
    rw [v2] at schema
    simp [Placement.isV2, legs, owners, move, prefixes, keepsLegs_rules drops] at schema

theorem coerced_isV2 (p : Placement) : p.coerced.isV2 = p.isV2 := by
  simp [Placement.isV2, Placement.coerced]

theorem Storable.decodes_tree (storable : Storable p) (valid : p.Valid) :
    Placement.unmarshalJSON p.tree = .ok p ↔ p.coerced = p := by
  rw [unmarshalJSON_tree]
  constructor
  · intro read
    exact (fromV2_same read (coerced_isV2 p).symm).symm
  intro eq
  rw [eq]
  exact storable.fromV2 valid

theorem Storable.decodes (storable : Storable p) (valid : p.Valid) :
    p.encode.bind Placement.unmarshalJSON = .ok p ↔
      (∀ key ∈ p.storedKeys, Utf8 key) ∧ ∀ x ∈ p.numbers, x.isNum := by
  rw [Placement.encode, ← List.all_eq_true]
  split
  · rename_i numbers
    rw [numbers, ← coerced_eq_iff storable.roles, and_iff_left rfl]
    exact storable.decodes_tree valid
  · rename_i nan
    exact iff_of_false (nomatch ·) fun both => nan both.2

/-- A directory made from decoded placements by changes the validator accepts. -/
inductive Reached : File → Prop where
  | loaded {f : File} (ok : f.validate = [])
      (decoded : ∀ (k : String) (p : Placement), f.placements[k]? = some p →
        ∃ w : Placement, w.legClusters = ∅ ∧ w.fromV2 = .ok p) : Reached f
  | step {f g : File} {m : Mutation} {now : Int} (prev : Reached f)
      (res : m.run now f = .ok g) (ok : g.validate = []) : Reached g

section

variable {f : File} {k : String}

theorem Reached.accepted (reached : Reached f) : f.validate = [] := by
  cases reached with
  | loaded ok | step _ _ ok => exact ok

theorem Reached.stored (reached : Reached f) : f.Stored := by
  induction reached with
  | loaded ok decoded =>
    intro k p got
    obtain ⟨w, roles, read⟩ := decoded k p got
    exact fromV2_storable roles read
  | step prev res ok ih =>
    refine Mutation.stored (fun k p got => ?_) ih res
    exact Placement.Valid.formed ⟨(ih k p got).roles, _, k, prev.accepted, got⟩

theorem Reached.decodes (reached : Reached f) (got : f.placements[k]? = some p) :
    p.encode.bind Placement.unmarshalJSON = .ok p ↔
      (∀ key ∈ p.storedKeys, Utf8 key) ∧ ∀ x ∈ p.numbers, x.isNum := by
  have storable := reached.stored k p got
  exact storable.decodes ⟨storable.roles, f, k, reached.accepted, got⟩

end

def eastStore : Config.Cluster :=
  { type := "minio", scheme := "http", region := "us-east-1", endpointMode := "static"
    endpoints := ["east:9000"], credentials := ⟨"AKIA", "env:EAST"⟩ }

def eastFile : File :=
  { clusters := (∅ : StrMap Config.Cluster).insert "east" eastStore
    tenants := (∅ : StrMap Tenant).insert "acme" ⟨"east"⟩ }

def photos : Placement := newPlacement "east" "acme-photos" 0

def photosFile : File := eastFile.putPlacement "acme/photos" photos

theorem photosFile_reached : Reached photosFile := by
  have start : Reached eastFile := by
    refine .loaded (by decide) fun k p got => ?_
    simp [eastFile] at got
  have created : (Mutation.create "acme" "photos" "east" "acme-photos").run 0 eastFile =
      .ok photosFile := by decide
  exact start.step created (by decide)

theorem photos_ids : ∀ cl ∈ photos.names, legID cl = true := by
  intro cl mem
  simp only [photos, newPlacement, mem_insert, Std.compare_eq_iff_eq, not_mem_empty,
    or_false] at mem
  rw [← mem]
  decide

def bytePhotos : Placement := photos.carved [0xff]

def bytePhotosFile : File := photosFile.putPlacement "acme/photos" bytePhotos

theorem bytePhotosFile_reached : Reached bytePhotosFile := by
  have carved : (Mutation.carve "acme" "photos" [0xff]).run 0 photosFile =
      .ok bytePhotosFile := by decide
  exact photosFile_reached.step carved (by decide)

def hashedPhotos : Placement := { photos with keyHash := rampHash }

theorem hashedPhotos_valid : hashedPhotos.Valid :=
  ⟨rfl, eastFile.putPlacement "acme/photos" hashedPhotos, "acme/photos", by decide,
    by decide⟩

end Shunt.Directory
