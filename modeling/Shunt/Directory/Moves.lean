/-
Moves of part of a bucket, and the transition function over both forms of a
placement.
-/

import Shunt.Directory.Transition

namespace Shunt.Directory

open Config (quoted)

def maxLegs : Nat := 32

def HashRange.limit (rg : HashRange) (ramp : Option Ramp) : Option Ramp :=
  ramp.map fun r => { r with range := some rg }

def roleMap {V : Type} (m : Move) (ofSource ofDest : V) : StrMap V :=
  ((∅ : StrMap V).insert m.source ofSource).insert m.dest ofDest

def Placement.moveView (p : Placement) (m : Move) : Placement :=
  { state := p.state, source := m.source, primary := m.dest
    names := roleMap m (legIn p.legs m.source).bucket (legIn p.legs m.dest).bucket
    legClusters := roleMap m (legIn p.legs m.source).cluster (legIn p.legs m.dest).cluster
    ramp := m.range.limit m.ramp, cutover := m.cutover, created := p.created
    readOnly := p.readOnly, rejectWrites := p.rejectWrites, barrier := p.barrier }

def legHead (c : Char) : Bool :=
  (decide ('a' ≤ c) && decide (c ≤ 'z')) || (decide ('0' ≤ c) && decide (c ≤ '9'))

def legChar (c : Char) : Bool := legHead c || c == '_' || c == '-'

def legID (id : String) : Bool :=
  match id.toList with
  | [] => false
  | c :: rest => legHead c && rest.all legChar && decide (rest.length ≤ 62)

/-- The text of the search's counter, a Go int: after 2^63 - 1 it goes on from -2^63. -/
def counterText (n : Nat) : List Char :=
  let word := n % 2 ^ 64
  if word < 2 ^ 63 then Nat.toDigits 10 word else '-' :: Nat.toDigits 10 (2 ^ 64 - word)

def numberedLegID (cluster : String) (n : Nat) : String :=
  let digits := counterText n
  let all := cluster.toList ++ '-' :: digits
  if 63 < all.length then
    String.ofList (cluster.toList.take (63 - digits.length - 1) ++ '-' :: digits)
  else String.ofList all

def newLegIDWithin (legs : StrMap Leg) (cluster : String) : Nat → Nat → String → Option String
  | 0, _, _ => none
  | rounds + 1, n, id =>
    if id ∉ legs ∧ legID id = true then some id
    else newLegIDWithin legs cluster rounds (n + 1) (numberedLegID cluster n)

/-- The cluster's name, then every value of the counter; after that the candidates repeat, so
`none` is a search that never ends. -/
def newLegID (legs : StrMap Leg) (cluster : String) : Option String :=
  newLegIDWithin legs cluster (2 ^ 64 + 1) 2 cluster

def addOwner (out : List Owner) (o : Owner) : List Owner :=
  match out.getLast? with
  | some last =>
    if last.leg = o.leg ∧ last.hi + 1 = o.lo then out.dropLast ++ [{ last with hi := o.hi }]
    else out ++ [o]
  | none => out ++ [o]

def cutOwner (rg : HashRange) (leg : String) (o : Owner) : List Owner :=
  if o.hi < rg.lo ∨ rg.hi < o.lo then [o]
  else
    (if o.lo < rg.lo then [⟨o.lo, rg.lo - 1, o.leg⟩] else []) ++
    (if o.lo ≤ rg.lo then [⟨rg.lo, rg.hi, leg⟩] else []) ++
    (if rg.hi < o.hi then [⟨rg.hi + 1, o.hi, o.leg⟩] else [])

def reassign (owners : List Owner) (rg : HashRange) (leg : String) : List Owner :=
  (owners.flatMap (cutOwner rg leg)).foldl addOwner []

def settledNames (legs : List (String × Leg)) (names : StrMap String) : StrMap String :=
  legs.foldl (fun kept (_, l) =>
    if l.cluster ∈ kept then kept else kept.insert l.cluster l.bucket) names

def settledTarget (legs : List (String × Leg)) (primary target : String) : String :=
  if target ≠ "" then target
  else
    match legs.find? fun (_, l) => l.cluster ≠ primary with
    | some (_, l) => l.cluster
    | none => ""

/-- A placement whose one leg owns every key, with nothing moving, in its plain
form again. -/
def Placement.settle (p : Placement) : Placement :=
  match p.owners with
  | [o] =>
    if p.move.isSome ∨ p.prefixes ≠ [] then p
    else
      let l := legIn p.legs o.leg
      { p with
        legs := ∅, owners := [], keyHash := "", primary := l.cluster
        names := settledNames p.legs.toList ((∅ : StrMap String).insert l.cluster l.bucket)
        target := settledTarget p.legs.toList l.cluster p.target }
  | _ => p

def Placement.sameShare (p : Placement) (m : Move) (share : ℚ) : Bool :=
  match ((p.scopeTable m.scope).getD []).find? fun o =>
      decide (o.leg = m.source) && decide (o.lo ≤ m.range.lo) && decide (m.range.hi ≤ o.hi) with
  | some o => decide (leadingShare ⟨o.lo, o.hi⟩ share = m.range)
  | none => false

def Placement.checkRepeat (p : Placement) (m : Move) (t : Transition) :
    Except TransitionError Unit :=
  let v := p.moveView m
  if t.range ≠ none ∧ t.range ≠ some m.range then
    p.fail t ("a move of range " ++ m.range.text ++
      " is in progress; finish it before moving another")
  else if t.leg ≠ "" ∧ t.leg ≠ m.source then
    p.fail t ("a move of leg " ++ m.source ++
      "'s keys is in progress; finish it before moving another leg's")
  else if t.scope ≠ [] ∧ t.scope ≠ m.scope then
    p.fail t ("a move of the keys under " ++ quoted (keyText m.scope) ++
      " is in progress; finish it before moving another prefix's")
  else if t.share ≠ 0 ∧ p.sameShare m t.share = false then
    p.fail t ("a move of range " ++ m.range.text ++
      " is in progress; a later step may repeat only the share its first step gave")
  else if m.scope ≠ [] ∧ t.prefixes ≠ [] then
    p.fail t "a move within a prefix rule ramps by ratio only (ADR-0020)"
  else if t.target ≠ "" ∧ t.target ≠ v.clusterOf v.primary then
    p.fail t ("the move goes to " ++ v.clusterOf v.primary ++
      "; a later step may only repeat that target")
  else .ok ()

def Transition.forRoles (t : Transition) : Transition :=
  { t with range := none, leg := "", scope := [], target := "", name := "", share := 0 }

def Placement.stepped (p : Placement) (m : Move) (nv : Placement) : Placement :=
  { p with
    barrier := nv.barrier, state := nv.state
    move := some { m with ramp := m.range.limit nv.ramp, cutover := nv.cutover } }

def Placement.rested (p : Placement) (nv : Placement) : Placement :=
  { p with barrier := nv.barrier, state := .active, move := none }

def Placement.endMove (p : Placement) (m : Move) (nv : Placement) : Placement :=
  let given := (p.rested nv).setScopeTable m.scope
    (reassign ((p.scopeTable m.scope).getD []) m.range m.dest)
  if given.ownsKeys m.source then given.settle
  else { given with legs := given.legs.erase m.source }.settle

def Placement.stepMove (p : Placement) (m : Move) (t : Transition) :
    Except TransitionError Placement :=
  match p.checkRepeat m t with
  | .error e => .error e
  | .ok _ =>
    match (p.moveView m).applyRoles t.forRoles with
    | .error e => .error e
    | .ok nv =>
      if nv.state = .active then
        if t.release then
          -- the first step never reached every proxy: nothing was routed to the destination
          .ok (p.rested nv).settle
        else .ok (p.endMove m nv)
      else .ok (p.stepped m nv)

def Placement.asSpread (p : Placement) : Placement :=
  { p with
    legs := (∅ : StrMap Leg).insert p.primary ⟨p.primary, nameIn p.names p.primary⟩
    owners := [⟨fullRange.lo, fullRange.hi, p.primary⟩]
    keyHash := rampHash, primary := "", names := ∅, target := "" }

/-- The checks on what a first step names, before its target is known. -/
def Placement.checkStart (p : Placement) (t : Transition) : Except TransitionError Unit :=
  if p.state ≠ .active then p.fail t "a move of part of a bucket starts from ACTIVE"
  else if t.scope ≠ [] ∧ (p.prefixes.any fun rule => rule.pre == t.scope) = false then
    p.fail t ("the bucket has no prefix rule " ++ quoted (keyText t.scope) ++
      "; carve it first (shunt expand --carve)")
  else if t.scope ≠ [] ∧ t.prefixes ≠ [] then
    p.fail t "a move within a prefix rule ramps by ratio only (ADR-0020)"
  else if t.range = none ∧ t.leg = "" ∧ t.scope = [] then
    p.fail t ("name the range of keys to move, or the leg whose keys move: " ++
      "the bucket is spread over legs")
  else if (t.range.any fun rg => decide (rg.hi < rg.lo)) = true then
    p.fail t "the range's start is after its end"
  else .ok ()

/-- The placement in spread form, and the step with the target a plain one recorded. -/
def Placement.prepareStart (p : Placement) (t : Transition) :
    Except TransitionError (Placement × Transition) :=
  if p.spread then .ok (p, t)
  else if p.cold ≠ "" ∨ p.tier ≠ "" then
    p.fail t "a tiered bucket moves whole; moving part of it is not supported"
  else if p.target = "" then .ok (p.asSpread, t)
  else if t.target ≠ "" ∧ t.target ≠ p.target then
    p.fail t (p.primary ++ " was expanded to " ++ p.target ++
      "; a different target needs expand first")
  else
    .ok (p.asSpread, { t with
      target := p.target
      name := if t.name = "" then nameIn p.names p.target else t.name })

def Placement.moveLeg (p : Placement) (t : Transition) (table : List Owner) :
    Except TransitionError String :=
  if t.range = none ∧ t.leg = "" then
    match table with
    | [o] => .ok o.leg
    | _ => p.fail t ("the keys under " ++ quoted (keyText t.scope) ++ " are split over " ++
        toString table.length ++ " ranges; name the leg (or range) to move")
  else .ok t.leg

/-- The range a first step names whole: its own, or the first one the leg owns.  A
leg that owns several moves them one at a time. -/
def Placement.namedRange (p np : Placement) (t : Transition) (leg : String)
    (table : List Owner) : Except TransitionError HashRange :=
  match t.range with
  | some rg => .ok rg
  | none =>
    if leg ∉ np.legs then
      p.fail t ("the bucket has no leg " ++ leg ++ "; its legs are " ++ listText np.legs.keys)
    else
      match table.find? fun o => o.leg = leg with
      | none => p.fail t ("leg " ++ leg ++ " owns no keys" ++ scopeText t.scope ++
          "; there is nothing of it to move")
      | some o => .ok ⟨o.lo, o.hi⟩

def Transition.shareOf (t : Transition) (rg : HashRange) : HashRange :=
  if 0 < t.share ∧ t.share < 1 then leadingShare rg t.share else rg

def rangeOwner (table : List Owner) (rg : HashRange) : String :=
  table.foldl (fun src o => if o.lo ≤ rg.lo ∧ rg.hi ≤ o.hi then o.leg else src) ""

def destLegs (legs : StrMap Leg) (cluster name : String) : List String :=
  (legs.toList.filter fun (_, l) =>
    decide (l.cluster = cluster) && (decide (name = "") || decide (name = l.bucket))).map Prod.fst

def legsOn (legs : StrMap Leg) (cluster : String) : Nat :=
  (legs.toList.filter fun (_, l) => decide (l.cluster = cluster)).length

/-- The destination: the leg holding the named bucket, or the one leg on the
target cluster when no bucket is named, or a new leg. -/
def Placement.moveDest (p np : Placement) (t : Transition) (src : String) :
    Except TransitionError (Placement × String) :=
  let dst := (destLegs np.legs t.target t.name).getLast?.getD ""
  if t.name = "" ∧ 1 < legsOn np.legs t.target then
    p.fail t ("cluster " ++ t.target ++ " holds " ++ toString (legsOn np.legs t.target) ++
      " legs of the bucket; name the bucket the range moves to")
  else if dst = src then
    p.fail t ("the range is on " ++ t.target ++ "/" ++ (legIn np.legs src).bucket ++ " already")
  else if dst = "" ∧ t.name = "" then
    p.fail t ("name the bucket on " ++ t.target ++ " that the range moves to")
  else if dst = "" then
    match newLegID np.legs t.target with
    | none => p.fail t "the search for a leg id does not end"
    | some id => .ok ({ np with legs := np.legs.insert id ⟨t.target, t.name⟩ }, id)
  else .ok (np, dst)

def firstView (legs : StrMap Leg) (src : String) : Placement :=
  { state := .active, primary := src
    names := (∅ : StrMap String).insert src (legIn legs src).bucket }

/-- What a first step resolves to: the placement in spread form with the
destination among its legs, and the range moving from one leg to another. -/
structure MovePlan where
  base : Placement
  range : HashRange
  source : String
  dest : String

def Placement.planMove (p : Placement) (t : Transition) : Except TransitionError MovePlan :=
  match p.checkStart t with
  | .error e => .error e
  | .ok _ =>
  match p.prepareStart t with
  | .error e => .error e
  | .ok (np, t) =>
  if t.target = "" then p.fail t "the target cluster is required"
  else
  let table := (np.scopeTable t.scope).getD []
  match p.moveLeg t table with
  | .error e => .error e
  | .ok leg =>
  match p.namedRange np t leg table with
  | .error e => .error e
  | .ok all =>
  let rg := t.shareOf all
  let src := rangeOwner table rg
  if src = "" then
    p.fail t ("the range " ++ rg.text ++ scopeText t.scope ++
      " spans more than one leg; move one leg's keys at a time")
  else if leg ≠ "" ∧ src ≠ leg then
    p.fail t ("the range " ++ rg.text ++ " is leg " ++ src ++ "'s, not leg " ++ leg ++ "'s")
  else
  match p.moveDest np t src with
  | .error e => .error e
  | .ok (np, dst) =>
  if maxLegs < np.legs.size then
    p.fail t ("a placement has at most " ++ toString maxLegs ++ " legs")
  else .ok ⟨np, rg, src, dst⟩

def MovePlan.roleStep (plan : MovePlan) (t : Transition) : Transition :=
  { t.forRoles with target := plan.dest, name := (legIn plan.base.legs plan.dest).bucket }

def MovePlan.move (plan : MovePlan) (t : Transition) (nv : Placement) : Move :=
  { scope := t.scope, range := plan.range, source := plan.source, dest := plan.dest
    ramp := plan.range.limit nv.ramp, cutover := nv.cutover }

def MovePlan.started (plan : MovePlan) (t : Transition) (nv : Placement) : Placement :=
  { plan.base with state := nv.state, barrier := nv.barrier, move := some (plan.move t nv) }

def Placement.startMove (p : Placement) (t : Transition) : Except TransitionError Placement :=
  match p.planMove t with
  | .error e => .error e
  | .ok plan =>
    match (firstView plan.base.legs plan.source).applyRoles (plan.roleStep t) with
    | .error e => .error e
    | .ok nv => .ok (plan.started t nv)

def Placement.applyMove (p : Placement) (t : Transition) : Except TransitionError Placement :=
  match p.move with
  | none => p.startMove t
  | some m => p.stepMove m t

/-- What a share names: part of a plain bucket's key space, on a first step. -/
def Placement.resolveShare (p : Placement) (t : Transition) : Except TransitionError Transition :=
  if t.share = 0 then .ok t
  else if t.share < 0 ∨ 1 < t.share then
    p.fail t ("share " ++ toString t.share ++ " is outside 0..1")
  else if t.range ≠ none then
    p.fail t "a range names the keys to move already; a share is of the range a leg holds"
  else if p.spread then .ok t
  else if p.state ≠ .active then
    p.fail t "a share names part of a bucket to move, on the move's first step"
  else .ok { t with range := some (leadingShare fullRange t.share), share := 0 }

def Placement.resolveRange (p : Placement) (t : Transition) : Transition :=
  let t :=
    if p.spread = false ∧ p.state = .active ∧ t.target ≠ "" ∧ t.target = p.primary ∧
        t.name ≠ "" ∧ t.name ≠ nameIn p.names p.primary then
      { t with range := some fullRange }
    else t
  if t.range = some fullRange ∧ p.spread = false ∧ t.target ≠ p.primary then
    { t with range := none }
  else t

def Placement.resolveLeg (p : Placement) (t : Transition) : Except TransitionError Transition :=
  if t.leg ≠ "" ∧ p.spread = false then
    if t.leg ≠ p.primary then
      p.fail t (nameIn p.names p.primary ++ " is one bucket on " ++ p.primary ++
        "; it has no leg " ++ t.leg)
    else .ok { t with leg := "" }
  else .ok t

def Placement.resolve (p : Placement) (t : Transition) : Except TransitionError Transition :=
  match p.resolveShare t with
  | .error e => .error e
  | .ok t => p.resolveLeg (p.resolveRange t)

def Placement.apply (p : Placement) (t : Transition) : Except TransitionError Placement :=
  match p.resolve t with
  | .error e => .error e
  | .ok t =>
    if p.spread = true ∨ t.range ≠ none ∨ t.scope ≠ [] then p.applyMove t
    else p.applyRoles t

/-- What an accepted transition ran, once what it names is resolved. -/
inductive Ran (p : Placement) (t : Transition) : Placement → Prop where
  | roles {q} (plain : p.spread = false) (view : p.applyRoles t = .ok q) : Ran p t q
  | starts {plan nv} (plans : p.planMove t = .ok plan)
      (view : (firstView plan.base.legs plan.source).applyRoles (plan.roleStep t) = .ok nv) :
      Ran p t (plan.started t nv)
  | steps {m nv} (moves : p.move = some m) (repeats : p.checkRepeat m t = .ok ())
      (view : (p.moveView m).applyRoles t.forRoles = .ok nv) (still : nv.state ≠ .active) :
      Ran p t (p.stepped m nv)
  | unwinds {m nv} (moves : p.move = some m) (repeats : p.checkRepeat m t = .ok ())
      (view : (p.moveView m).applyRoles t.forRoles = .ok nv) (active : nv.state = .active)
      (freed : t.release = true) : Ran p t (p.rested nv).settle
  | ends {m nv} (moves : p.move = some m) (repeats : p.checkRepeat m t = .ok ())
      (view : (p.moveView m).applyRoles t.forRoles = .ok nv) (active : nv.state = .active)
      (inForce : t.release = false) : Ran p t (p.endMove m nv)

theorem stepMove_ran {p q : Placement} {m : Move} {t : Transition} (moves : p.move = some m)
    (res : p.stepMove m t = .ok q) : Ran p t q := by
  unfold Placement.stepMove at res
  cases repeats : p.checkRepeat m t with
  | error => simp [repeats] at res
  | ok =>
    simp only [repeats] at res
    cases view : (p.moveView m).applyRoles t.forRoles with
    | error => simp [view] at res
    | ok =>
      simp only [view] at res
      split at res
      · rename_i active
        split at res
        · rename_i freed
          cases res
          exact .unwinds moves repeats view active freed
        rename_i inForce
        cases res
        exact .ends moves repeats view active (by simpa using inForce)
      rename_i still
      cases res
      exact .steps moves repeats view still

theorem startMove_ran {p q : Placement} {t : Transition} (res : p.startMove t = .ok q) :
    Ran p t q := by
  unfold Placement.startMove at res
  cases plans : p.planMove t with
  | error => simp [plans] at res
  | ok plan =>
    simp only [plans] at res
    cases view : (firstView plan.base.legs plan.source).applyRoles (plan.roleStep t) with
    | error => simp [view] at res
    | ok =>
      simp only [view] at res
      cases res
      exact .starts plans view

theorem apply_ran {p q : Placement} {t : Transition} (res : p.apply t = .ok q) :
    ∃ u, p.resolve t = .ok u ∧ Ran p u q := by
  unfold Placement.apply at res
  cases solved : p.resolve t with
  | error => simp [solved] at res
  | ok u =>
    simp only [solved] at res
    refine ⟨u, rfl, ?_⟩
    split at res
    · unfold Placement.applyMove at res
      cases moves : p.move with
      | none =>
        simp only [moves] at res
        exact startMove_ran res
      | some =>
        simp only [moves] at res
        exact stepMove_ran moves res
    · rename_i all
      exact .roles (Bool.eq_false_iff.mpr fun spread => all (.inl spread)) res

end Shunt.Directory
