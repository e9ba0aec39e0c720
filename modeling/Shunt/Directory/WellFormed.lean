/-
The two forms of a placement and what holds of each: the facts the validator
establishes, kept by every transition, and read by every routing proof.
-/

import Shunt.Directory.Owners
import Shunt.Directory.Validate

namespace Shunt.Directory

open List Std.ExtTreeMap

variable {p : Placement} {used : Used} {clusters : StrMap Config.Cluster}

/-- A ramp stands exactly in RAMPING, and one in force moves something. -/
structure Ramped (state : State) (ramp : Option Ramp) : Prop where
  present : state = .ramping ↔ ramp ≠ none
  moves : ∀ r, ramp = some r → r.hold = none → r.ratio ≠ 0 ∨ r.prefixes ≠ []

structure PlainForm (p : Placement) : Prop where
  plain : p.spread = false
  roles : p.legClusters = ∅
  ramped : Ramped p.state p.ramp
  primary : p.primary ≠ ""
  rest : p.state = .active ↔ p.source = ""
  apart : p.source ≠ p.primary
  away : p.target ≠ p.primary
  idle : p.state ≠ .active → p.target = ""

def TableOver (legs : StrMap Leg) (owners : List Owner) : Prop :=
  Tiled owners ∧ ∀ o ∈ owners, o.leg ∈ legs

structure Tables (p : Placement) : Prop where
  own : TableOver p.legs p.owners
  named : ∀ rule ∈ p.prefixes, rule.pre ≠ []
  rules : ∀ rule ∈ p.prefixes, TableOver p.legs rule.owners
  distinct : p.prefixes.Pairwise fun left right => left.pre ≠ right.pre

/-- A move between two legs, of a range its source owns in one entry. -/
structure MoveForm (p : Placement) (m : Move) : Prop where
  ordered : m.range.lo ≤ m.range.hi
  source : m.source ∈ p.legs
  dest : m.dest ∈ p.legs
  different : m.source ≠ m.dest
  owned : ∃ table, p.scopeTable m.scope = some table ∧
    ∃ o ∈ table, o.leg = m.source ∧ o.lo ≤ m.range.lo ∧ m.range.hi ≤ o.hi
  ramped : Ramped p.state m.ramp

structure SpreadCore (p : Placement) : Prop where
  roles : p.legClusters = ∅
  source : p.source = ""
  ramp : p.ramp = none
  target : p.target = ""
  tables : Tables p
  ids : ∀ id ∈ p.legs, id ≠ ""
  clusters : ∀ (id : String) (l : Leg), p.legs[id]? = some l → l.cluster ≠ ""
  apart : ∀ (a b : String) (l : Leg), p.legs[a]? = some l → p.legs[b]? = some l → a = b

/-- Several legs own the keys, at rest or with one move in flight. -/
structure SpreadForm (p : Placement) : Prop extends SpreadCore p where
  spread : p.spread = true
  rest : p.state = .active ↔ p.move = none
  moving : ∀ m, p.move = some m → MoveForm p m

def Formed (p : Placement) : Prop := PlainForm p ∨ SpreadForm p

theorem Formed.spreadForm {m : Move} (formed : Formed p) (moving : p.move = some m) :
    SpreadForm p := by
  rcases formed with plain | spread
  · have noMove := plain.plain
    simp [Placement.spread, moving] at noMove
  · exact spread

theorem Formed.spreading (formed : Formed p) (spread : p.spread) : SpreadForm p := by
  rcases formed with plain | form
  · rw [plain.plain] at spread
    cases spread
  · exact form

theorem SpreadForm.away {p : Placement} {m : Move} (form : SpreadForm p)
    (moving : p.move = some m) : p.state ≠ .active := fun active => by
  rw [form.rest.mp active] at moving
  cases moving

theorem Formed.plainForm (formed : Formed p) (plain : p.spread = false) : PlainForm p := by
  rcases formed with form | spread
  · exact form
  · rw [spread.spread] at plain
    cases plain

theorem PlainForm.noMove (form : PlainForm p) : p.move = none := (noRules form.plain).2

theorem Ramped.noRamp {state : State} {ramp : Option Ramp} (ramped : Ramped state ramp)
    (other : state ≠ .ramping) : ramp = none := by
  by_contra stands
  exact other (ramped.present.mpr stands)

/-- A placement of a directory the validator accepts.  Only the view of a move
has a cluster for each role, and a view is never stored. -/
def Placement.Valid (p : Placement) : Prop :=
  p.legClusters = ∅ ∧ ∃ (f : File) (key : String), f.validate = [] ∧ f.placements[key]? = some p

theorem validated_of_mem (f : File) {entries : List (String × Placement)}
    (ok : validatePlacements f entries used = []) {entry : String × Placement}
    (mem : entry ∈ entries) : ∃ prev, (validatePlacement f entry.1 entry.2 prev).1 = [] := by
  induction entries generalizing used with
  | nil => cases mem
  | cons head rest ih =>
    simp only [validatePlacements, append_eq_nil_iff] at ok
    rcases mem_cons.mp mem with eq | later
    · subst eq
      exact ⟨used, ok.1⟩
    · exact ih ok.2 later

theorem Placement.Valid.checked (valid : p.Valid) :
    ∃ (f : File) (key : String) (used : Used), (validatePlacement f key p used).1 = [] := by
  obtain ⟨-, f, key, ok, got⟩ := valid
  simp only [File.validate, append_eq_nil_iff] at ok
  have mem : (key, p) ∈ f.placements.toList := mem_toList_iff_getElem?_eq_some.mpr got
  obtain ⟨used, checked⟩ := validated_of_mem f ok.2 mem
  exact ⟨f, key, used, checked⟩

theorem refErrors_nil {key name : String}
    (ok : refErrors clusters key name = []) : name ≠ "" ∧ name ∈ clusters := by
  unfold refErrors at ok
  by_cases empty : name = ""
  · simp [empty] at ok
  by_cases has : name ∈ clusters
  · exact ⟨empty, has⟩
  · simp [empty, has] at ok

theorem validateRamp_ramped {k : String} {state : State} {ramp : Option Ramp}
    (ok : validateRamp k state ramp = []) : Ramped state ramp := by
  cases ramp with
  | none =>
    have other : state ≠ .ramping := by
      intro eq
      simp [validateRamp, eq] at ok
    exact ⟨by simp [other], by intro r no; cases no⟩
  | some =>
    simp only [validateRamp, append_eq_nil_iff] at ok
    obtain ⟨⟨⟨⟨⟨inState, -⟩, -⟩, nonempty⟩, -⟩, -⟩ := ok
    refine ⟨?_, ?_⟩
    · by_cases eq : state = .ramping
      · simp [eq]
      · simp [eq] at inState
    intro r' eq unheld
    cases eq
    by_contra empty
    push Not at empty
    simp [empty, unheld] at nonempty

theorem plainForm_of_validated {k pk : String} (plain : p.spread = false)
    (roles : p.legClusters = ∅)
    (ok : (p.validatePlain clusters k pk used).1 = []) : PlainForm p := by
  simp only [Placement.validatePlain, append_eq_nil_iff] at ok
  obtain ⟨⟨⟨⟨⟨⟨⟨⟨primaryKnown, target⟩, -⟩, -⟩, source⟩, ramp⟩, -⟩, -⟩, -⟩ := ok
  have named := (refErrors_nil primaryKnown).1
  unfold Placement.validateSource at source
  unfold Placement.validateTarget at target
  have rest : p.state = .active ↔ p.source = "" := by
    by_cases active : p.state = .active <;> by_cases empty : p.source = "" <;>
      simp [active, empty] at source ⊢
  have apart : p.source ≠ p.primary := by
    intro eq
    have moving : p.source ≠ "" := by
      rw [eq]
      exact named
    have state : p.state ≠ .active := fun active => moving (rest.mp active)
    simp [moving, state] at source
    exact source.2 eq
  have away : p.target ≠ p.primary := by
    intro eq
    have given : p.target ≠ "" := by
      rw [eq]
      exact named
    simp only [if_neg given, if_pos eq] at target
    split at target <;> cases target
  have idle : p.state ≠ .active → p.target = "" := by
    intro moving
    by_contra given
    simp [given, moving] at target
  exact ⟨plain, roles, validateRamp_ramped ramp, named, rest, apart, away, idle⟩

theorem claimLegs_apart {k pk : String}
    {entries : List (String × Leg)} (ok : (claimLegs clusters k pk entries used).1 = []) :
    (∀ entry ∈ entries, used.lookup (entry.2.cluster, entry.2.bucket) = none) ∧
      entries.Pairwise fun left right => left.2 ≠ right.2 := by
  induction entries generalizing used with
  | nil => exact ⟨fun entry mem => (nomatch mem), List.Pairwise.nil⟩
  | cons head rest ih =>
    obtain ⟨id, l⟩ := head
    simp only [claimLegs, append_eq_nil_iff] at ok
    obtain ⟨claimed, later⟩ := ok
    split at claimed
    · rename_i unknown
      exact absurd claimed unknown
    rename_i has
    rw [if_neg has] at later
    unfold claimBucket at claimed later
    by_cases wellNamed : validBucketName l.bucket = false
    · simp [wellNamed] at claimed
    simp only [if_neg wellNamed] at claimed later
    cases free : used.lookup (l.cluster, l.bucket) with
    | some => simp [free] at claimed
    | none =>
      simp only [free] at later
      obtain ⟨fresh, different⟩ := ih later
      have newcomer : ∀ entry ∈ rest, entry.2 ≠ l ∧
          used.lookup (entry.2.cluster, entry.2.bucket) = none := by
        intro entry mem
        have gone := fresh entry mem
        rw [lookup_append] at gone
        simp only [Option.or_eq_none_iff] at gone
        refine ⟨?_, gone.1⟩
        intro eq
        rw [eq] at gone
        simp at gone
      refine ⟨?_, List.Pairwise.cons ?_ different⟩
      · intro entry mem
        rcases mem_cons.mp mem with eq | post
        · rw [eq]
          exact free
        · exact (newcomer entry post).2
      · intro entry mem eq
        exact (newcomer entry mem).1 eq.symm

theorem checkPrefixesFrom_rules {legs : StrMap Leg} {rules : List PrefixRule} :
    ∀ {index : Nat} {last : Option Key}, checkPrefixesFrom legs index last rules = none →
      (∀ rule ∈ rules, rule.pre ≠ [] ∧ TableOver legs rule.owners) ∧
        rules.Pairwise (fun left right => left.pre < right.pre) ∧
        ∀ prev, last = some prev → ∀ rule ∈ rules, prev < rule.pre := by
  induction rules with
  | nil =>
    intro index last _
    exact ⟨fun rule mem => (nomatch mem), List.Pairwise.nil, fun prev _ rule mem => (nomatch mem)⟩
  | cons rule rest ih =>
    intro index last ok
    simp only [checkPrefixesFrom] at ok
    split at ok
    · cases ok
    rename_i named
    iterate 2
      split at ok
      · cases ok
    rename_i ordered
    cases table : checkOwners rule.owners legs with
    | some => simp [table] at ok
    | none =>
      simp only [table] at ok
      obtain ⟨formed, sorted, above⟩ := ih ok
      have later : ∀ other ∈ rest, rule.pre < other.pre := above rule.pre rfl
      refine ⟨?_, List.Pairwise.cons later sorted, ?_⟩
      · intro other mem
        rcases mem_cons.mp mem with eq | post
        · rw [eq]
          exact ⟨named, (checkOwners_accepts rule.owners legs).mp table⟩
        · exact formed other post
      intro prev eq other mem
      have first : prev < rule.pre := by
        subst eq
        simpa using ordered
      rcases mem_cons.mp mem with here | post
      · rw [here]
        exact first
      · exact List.lt_trans first (later other post)

theorem checkPrefixes_rules (ok : p.checkPrefixes = none) :
    (∀ rule ∈ p.prefixes, rule.pre ≠ [] ∧ TableOver p.legs rule.owners) ∧
      p.prefixes.Pairwise (fun left right => left.pre ≠ right.pre) := by
  unfold Placement.checkPrefixes at ok
  split at ok
  · rename_i empty
    rw [empty]
    exact ⟨fun rule mem => (nomatch mem), List.Pairwise.nil⟩
  iterate 2
    split at ok
    · cases ok
  obtain ⟨formed, sorted, -⟩ := checkPrefixesFrom_rules ok
  refine ⟨formed, sorted.imp ?_⟩
  intro left right prev eq
  rw [eq] at prev
  exact List.lt_irrefl _ prev

structure V2Ok (p : Placement) : Prop where
  some_ : p.legs.size ≠ 0
  few : p.legs.size ≤ maxLegs
  legs : ∀ (id : String) (l : Leg), p.legs[id]? = some l → checkLeg id l = none
  hash : p.keyHash ≠ "" → validRampHashName p.keyHash = true
  split : 1 < p.owners.length → p.keyHash ≠ ""
  owners : TableOver p.legs p.owners
  prefixes : p.checkPrefixes = none
  move : p.checkMoveLegs = none
  target : p.target ≠ "" → p.target ∈ p.legs
  cold : p.cold ≠ "" → p.cold ∈ p.legs

theorem checkV2_iff {p : Placement} : p.checkV2 = none ↔ V2Ok p := by
  have table : checkOwners p.owners p.legs = none ↔ TableOver p.legs p.owners :=
    checkOwners_accepts p.owners p.legs
  have legs : (p.legs.toList.findSome? fun e => checkLeg e.1 e.2) = none ↔
      ∀ (id : String) (l : Leg), p.legs[id]? = some l → checkLeg id l = none := by
    rw [findSome?_eq_none_iff]
    constructor
    · intro each id l got
      exact each (id, l) (mem_toList_iff_getElem?_eq_some.mpr got)
    · rintro each ⟨id, l⟩ mem
      exact each id l (mem_toList_iff_getElem?_eq_some.mp mem)
  unfold Placement.checkV2
  constructor
  · intro ok
    split at ok
    · cases ok
    rename_i some_
    split at ok
    · cases ok
    rename_i few
    cases checked : p.legs.toList.findSome? fun e => checkLeg e.1 e.2 with
    | some => simp [checked] at ok
    | none =>
      simp only [checked] at ok
      split at ok
      · cases ok
      rename_i hash
      split at ok
      · cases ok
      rename_i split_
      cases owners : checkOwners p.owners p.legs with
      | some => simp [owners] at ok
      | none =>
        simp only [owners] at ok
        cases prefixes : p.checkPrefixes with
        | some => simp [prefixes] at ok
        | none =>
          simp only [prefixes] at ok
          cases move : p.checkMoveLegs with
          | some => simp [move] at ok
          | none =>
            simp only [move] at ok
            split at ok
            · cases ok
            rename_i target
            split at ok
            · cases ok
            rename_i cold
            exact ⟨some_, Nat.not_lt.mp few, legs.mp checked, by simpa using hash,
              by simpa using split_, table.mp owners, prefixes, move,
              by simpa using target, by simpa using cold⟩
  · intro sound
    have hash : ¬ (p.keyHash ≠ "" ∧ validRampHashName p.keyHash = false) := by
      simpa using sound.hash
    have split_ : ¬ (1 < p.owners.length ∧ p.keyHash = "") := by simpa using sound.split
    have target : ¬ (p.target ≠ "" ∧ p.target ∉ p.legs) := by simpa using sound.target
    have cold : ¬ (p.cold ≠ "" ∧ p.cold ∉ p.legs) := by simpa using sound.cold
    rw [if_neg sound.some_, if_neg (Nat.not_lt.mpr sound.few), legs.mpr sound.legs]
    simp only [if_neg hash, if_neg split_, table.mpr sound.owners, sound.prefixes, sound.move,
      if_neg target, if_neg cold]

structure V2Facts (p : Placement) : Prop where
  legs : ∀ entry ∈ p.legs.toList, checkLeg entry.1 entry.2 = none
  owners : checkOwners p.owners p.legs = none
  prefixes : p.checkPrefixes = none
  move : p.checkMoveLegs = none

theorem checkV2_facts (ok : p.checkV2 = none) : V2Facts p := by
  have sound := checkV2_iff.mp ok
  refine ⟨fun entry mem => ?_, ?_, sound.prefixes, sound.move⟩
  · exact sound.legs _ _ (mem_toList_iff_getElem?_eq_some.mp mem)
  · exact (checkOwners_accepts _ _).mpr sound.owners

theorem checkLeg_none {id : String} {l : Leg} (ok : checkLeg id l = none) :
    legID id ∧ l.cluster ≠ "" ∧ l.bucket ≠ "" := by
  unfold checkLeg at ok
  iterate 3
    split at ok
    · cases ok
  · rename_i idOk clusterOk bucketOk
    exact ⟨by simpa using idOk, clusterOk, bucketOk⟩

theorem legID_ne_empty {id : String} (wellNamed : legID id) : id ≠ "" := by
  intro empty
  subst empty
  exact absurd wellNamed (by decide)

theorem ownsAll_iff {table : List Owner} {leg : String} {rg : HashRange} : ownsAll table leg rg ↔
      ∃ o ∈ table, o.leg = leg ∧ o.lo ≤ rg.lo ∧ rg.hi ≤ o.hi := by
  simp only [ownsAll, List.any_eq_true, Bool.and_eq_true, decide_eq_true_eq, and_assoc]

theorem checkMoveLegs_none {m : Move} (moving : p.move = some m) (ok : p.checkMoveLegs = none) :
    m.range.lo ≤ m.range.hi ∧ m.source ∈ p.legs ∧ m.dest ∈ p.legs ∧ m.source ≠ m.dest := by
  simp only [Placement.checkMoveLegs, moving] at ok
  iterate 4
    split at ok
    · cases ok
  · rename_i ordered source dest different
    exact ⟨UInt64.not_lt.mp ordered, not_not.mp source, not_not.mp dest, different⟩

theorem checkMoveState_none {m : Move} (ok : p.checkMoveState m = none) :
    ∃ table, p.scopeTable m.scope = some table ∧ ownsAll table m.source m.range = true := by
  unfold Placement.checkMoveState at ok
  cases got : p.scopeTable m.scope with
  | none => simp [got] at ok
  | some table =>
    simp only [got] at ok
    split at ok
    · cases ok
    · rename_i owned
      exact ⟨table, rfl, by simpa using owned⟩

theorem validateSpread_parts {k pk : String} (ok : (p.validateSpread clusters k pk used).1 = []) :
    p.checkV2 = none ∧ p.checkSpread = none ∧
      (∀ m, p.move = some m → validateRamp (k ++ ".move") p.state m.ramp = []) ∧
      (p.primary = "" ∧ p.source = "" ∧ p.names = ∅ ∧ p.ramp = none ∧ p.cutover = none) ∧
      (claimLegs clusters k pk p.legs.toList used).1 = [] := by
  unfold Placement.validateSpread at ok
  cases v2 : p.checkV2 with
  | some => simp [v2] at ok
  | none =>
    simp only [v2, append_eq_nil_iff] at ok
    obtain ⟨⟨⟨⟨checked, ramp⟩, -⟩, v1⟩, legs⟩ := ok
    refine ⟨rfl, ?_, ?_, ?_, legs⟩
    · cases got : p.checkSpread with
      | none => rfl
      | some => simp [got] at checked
    · intro m moving
      simpa [moving] using ramp
    by_contra given
    rw [if_pos (by tauto)] at v1
    cases v1

theorem spreadForm_of_validated {k pk : String} (spread : p.spread) (roles : p.legClusters = ∅)
    (ok : (p.validateSpread clusters k pk used).1 = []) : SpreadForm p := by
  obtain ⟨v2, sent, ramp, unset, legs⟩ := validateSpread_parts ok
  have facts := checkV2_facts v2
  have legFacts : ∀ (id : String) (l : Leg), p.legs[id]? = some l →
      legID id ∧ l.cluster ≠ "" ∧ l.bucket ≠ "" := by
    intro id l got
    exact checkLeg_none (facts.legs (id, l) (mem_toList_iff_getElem?_eq_some.mpr got))
  have rules := checkPrefixes_rules facts.prefixes
  have tables : Tables p :=
    ⟨(checkOwners_accepts p.owners p.legs).mp facts.owners, fun rule mem =>
      (rules.1 rule mem).1, fun rule mem => (rules.1 rule mem).2, rules.2⟩
  unfold Placement.checkSpread at sent
  split at sent
  · cases sent
  rename_i plainFields
  push Not at plainFields
  refine ⟨⟨roles, unset.2.1, unset.2.2.2.1, plainFields.1, tables, ?_, ?_, ?_⟩, spread, ?_, ?_⟩
  · intro id mem
    obtain ⟨l, got⟩ := Option.isSome_iff_exists.mp (isSome_getElem?_iff_mem.mpr mem)
    exact legID_ne_empty (legFacts id l got).1
  · intro id l got
    exact (legFacts id l got).2.1
  · intro a b l atA atB
    by_contra different
    have apart := (claimLegs_apart legs).2
    have memberA := mem_toList_iff_getElem?_eq_some.mpr atA
    have memberB := mem_toList_iff_getElem?_eq_some.mpr atB
    have symmetric : Std.Symm fun left right : String × Leg => left.2 ≠ right.2 :=
      ⟨fun left right => Ne.symm⟩
    have distinct := apart.forall memberA memberB (fun eq => different (congrArg Prod.fst eq))
    exact distinct rfl
  · cases moving : p.move with
    | none =>
      simp only [moving] at sent
      split at sent
      · rename_i active
        simp [active]
      · cases sent
    | some =>
      simp only [moving] at sent
      split at sent
      · cases sent
      · rename_i away
        simp [away]
  · intro m moving
    simp only [moving] at sent ramp
    split at sent
    · cases sent
    obtain ⟨ordered, source, dest, different⟩ := checkMoveLegs_none moving facts.move
    obtain ⟨table, got, owned⟩ := checkMoveState_none sent
    exact ⟨ordered, source, dest, different, ⟨table, got, ownsAll_iff.mp owned⟩,
      validateRamp_ramped (ramp m rfl)⟩

theorem Placement.Valid.formed (valid : p.Valid) : Formed p := by
  obtain ⟨f, key, used, ok⟩ := valid.checked
  simp only [validatePlacement, append_eq_nil_iff] at ok
  by_cases spread : p.spread
  · rw [if_pos spread] at ok
    exact .inr (spreadForm_of_validated spread valid.1 ok.2)
  · rw [if_neg spread] at ok
    exact .inl (plainForm_of_validated (by simpa using spread) valid.1 ok.2)

end Shunt.Directory
