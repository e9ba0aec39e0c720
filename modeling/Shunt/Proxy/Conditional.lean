/-
Conditional writes.

A write with a precondition is judged by the bucket it goes to.  While a placement's objects
are split over two buckets shunt asks the other bucket too.  The module says when that judges
the object a read of the key would return.
-/

import Shunt.Proxy.Forward

namespace Shunt.Proxy

open Directory Option
open Migrate

/-- The values of If-Match and If-None-Match; empty for a header that is not sent. -/
structure CondHeaders where
  ifMatch : Key
  ifNoneMatch : Key
  deriving DecidableEq

def isBlank (c : UInt8) : Bool := c == 32 || (9 ≤ c && c ≤ 13)

def trimBoth (drop : UInt8 → Bool) (s : Key) : Key :=
  ((s.dropWhile drop).reverse.dropWhile drop).reverse

def normalizeETag (v : Key) : Key :=
  let bare := trimBoth isBlank v
  trimBoth (· == 34) (if bare.take 2 = [87, 47] then bare.drop 2 else bare)

def etagMatches (header etag : Key) : Bool :=
  let bare := trimBoth isBlank header
  decide (bare = [42]) ||
    (bare.splitOn 44).any fun want =>
      decide (normalizeETag want = normalizeETag etag) && decide (etag ≠ [])

def CondHeaders.present (h : CondHeaders) : Bool :=
  decide (h.ifNoneMatch ≠ []) || decide (h.ifMatch ≠ [])

def honours (h : CondHeaders) (object : Option Key) : Bool :=
  (decide (h.ifMatch = []) || object.any (etagMatches h.ifMatch)) &&
    (decide (h.ifNoneMatch = []) || !object.any (etagMatches h.ifNoneMatch))

structure CondAction where
  dropIfMatch : Bool := false
  createOnly : Bool := false
  deriving DecidableEq

inductive CondRefusal where
  | preconditionFailed
  | unavailable
  deriving DecidableEq

abbrev HeadAnswer := Except Unit (Option Key)

def checkCreate (inm : Key) (judges : Bool) (onOther : Option Key) (dest : HeadAnswer) :
    Option CondRefusal :=
  if inm = [] then none
  else if onOther.any (etagMatches inm) then some .preconditionFailed
  else if judges then none
  else
    match dest with
    | .error _ => some .unavailable
    | .ok object => if object.any (etagMatches inm) then some .preconditionFailed else none

def checkUpdate (im : Key) (judges : Bool) (onOther : Option Key) (dest : HeadAnswer) :
    Except CondRefusal CondAction :=
  match dest with
  | .error _ => .error .unavailable
  | .ok (some _) => .ok {}
  | .ok none =>
    if onOther.any (etagMatches im) then .ok { dropIfMatch := true, createOnly := judges }
    else .error .preconditionFailed

/-- What is left of a write's preconditions for the destination, or the refusal.  The other
bucket is given when the placement has one to consider. -/
def conditionalWrite (op : Op) (h : CondHeaders) (judges : Bool) (other : Option HeadAnswer)
    (dest : HeadAnswer) : Except CondRefusal CondAction :=
  if h.present = false then .ok {}
  else if op ≠ .putObject ∧ op ≠ .completeMultipartUpload ∧ op ≠ .copyObject then .ok {}
  else
    match other with
    | none =>
      if judges then .ok {}
      else
        match checkCreate h.ifNoneMatch judges none dest with
        | some refusal => .error refusal
        | none => .ok {}
    | some (.error _) => .error .unavailable
    | some (.ok onOther) =>
      match checkCreate h.ifNoneMatch judges onOther dest with
      | some refusal => .error refusal
      | none =>
        if h.ifMatch = [] then .ok {}
        else checkUpdate h.ifMatch judges onOther dest

def CondAction.apply (act : CondAction) (h : CondHeaders) : CondHeaders :=
  if act.dropIfMatch then { ifMatch := [], ifNoneMatch := if act.createOnly then [42] else [] }
  else h

def otherRole (linked : List String) (v : Placement) (role : String) : Option String :=
  let other := if role = v.source then v.primary else v.source
  if (v.state = .ramping ∨ v.state = .migrating) ∧ v.clusterOf other ∈ linked ∧
      other ≠ role ∧ nameIn v.names other ≠ "" then
    some other
  else none

def accepted (linked : List String) (v : Placement) (op : Op) (h : CondHeaders) (judges : Bool)
    (role : String) (objects : String → Option Key) : Bool :=
  match conditionalWrite op h judges ((otherRole linked v role).map fun r => .ok (objects r))
      (.ok (objects role)) with
  | .error _ => false
  | .ok act => honours (act.apply h) (objects role)

def visible (v : Placement) (route : Route) (objects : String → Option Key) : Option Key :=
  match route.cluster with
  | .source => objects v.source
  | .primary =>
    match objects v.primary with
    | some etag => some etag
    | none => if route.fallback then objects v.source else none

def judgedBoth (h : CondHeaders) (own other : Option Key) : Bool :=
  (decide (h.ifNoneMatch = []) || !other.any (etagMatches h.ifNoneMatch)) &&
    (if h.ifMatch = [] then honours h own
     else
       match own with
       | some _ => honours h own
       | none => other.any (etagMatches h.ifMatch))

def Judged (op : Op) : Prop := op = .putObject ∨ op = .completeMultipartUpload ∨ op = .copyObject

variable {linked : List String} {v : Placement} {op : Op} {h : CondHeaders} {judges : Bool}
  {role : String} {objects : String → Option Key}

theorem absent_headers (gone : h.present = false) : h.ifMatch = [] ∧ h.ifNoneMatch = [] := by
  simpa [CondHeaders.present, and_comm] using gone

theorem not_skipped (judged : Judged op) :
    ¬(op ≠ .putObject ∧ op ≠ .completeMultipartUpload ∧ op ≠ .copyObject) := by
  rintro ⟨put, complete, copy⟩
  rcases judged with eq | eq | eq
  · exact put eq
  · exact complete eq
  · exact copy eq

theorem honours_blank (object : Option Key) : honours ⟨[], []⟩ object = true := by
  simp [honours]

theorem honours_star_none : honours ⟨[], [42]⟩ none = true := by simp [honours]

theorem accepted_alone (judged : Judged op) (alone : otherRole linked v role = none) :
    accepted linked v op h judges role objects = honours h (objects role) := by
  unfold accepted conditionalWrite
  rw [alone]
  by_cases gone : h.present = false
  · rw [if_pos gone]
    rfl
  rw [if_neg gone, if_neg (not_skipped judged)]
  cases judges with
  | true => rfl
  | false =>
    -- the check repeats what the bucket would say
    simp only [map_none, checkCreate, any_none, Bool.false_eq_true, if_false]
    by_cases create : h.ifNoneMatch = []
    · simp [create, CondAction.apply]
    by_cases got : (objects role).any (etagMatches h.ifNoneMatch)
    · simp [create, got, honours]
    · simp [create, got, CondAction.apply]

theorem accepted_both (judged : Judged op) {other : String}
    (split : otherRole linked v role = some other) : accepted linked v op h judges role objects =
      judgedBoth h (objects role) (objects other) := by
  unfold accepted conditionalWrite
  rw [split]
  by_cases gone : h.present = false
  · obtain ⟨update, create⟩ := absent_headers gone
    rw [if_pos gone]
    simp [judgedBoth, update, create, CondAction.apply]
  rw [if_neg gone, if_neg (not_skipped judged)]
  simp only [map_some, checkCreate]
  by_cases create : h.ifNoneMatch = []
  · simp only [create, if_true, judgedBoth, decide_true, Bool.true_or, Bool.true_and]
    by_cases update : h.ifMatch = []
    · simp [update, CondAction.apply]
    simp only [update, if_false, checkUpdate]
    cases own : objects role with
    | some => simp [CondAction.apply]
    | none =>
      by_cases current : (objects other).any (etagMatches h.ifMatch)
      · simp only [current, if_true, CondAction.apply]
        cases judges with
        | true => exact honours_star_none
        | false => exact honours_blank none
      · simp [current]
  · by_cases got : (objects other).any (etagMatches h.ifNoneMatch) = true
    · simp [create, got, judgedBoth]
    have passes : (decide (h.ifNoneMatch = []) ||
        !(objects other).any (etagMatches h.ifNoneMatch)) = true := by simp [got]
    simp only [judgedBoth, passes, Bool.true_and, if_neg create, if_neg got]
    cases own : objects role with
    | some etag =>
      -- a destination that does not judge the header is asked for its object
      by_cases refused : etagMatches h.ifNoneMatch etag
      · have fails : honours h (some etag) = false := by simp [honours, create, refused]
        cases judges with
        | true =>
          by_cases update : h.ifMatch = []
          · simp [update, CondAction.apply]
          · simp [update, checkUpdate, CondAction.apply]
        | false => simp [refused, fails]
      cases judges with
      | true =>
        by_cases update : h.ifMatch = []
        · simp [update, CondAction.apply]
        · simp [update, checkUpdate, CondAction.apply]
      | false =>
        by_cases update : h.ifMatch = []
        · simp [refused, update, CondAction.apply]
        · simp [refused, update, checkUpdate, CondAction.apply]
    | none =>
      have asked : (if judges = true then none
          else match (Except.ok none : HeadAnswer) with
            | .error _ => some CondRefusal.unavailable
            | .ok object =>
              if object.any (etagMatches h.ifNoneMatch) = true then
                some .preconditionFailed
              else none) = none := by
        cases judges <;> simp
      rw [asked]
      by_cases update : h.ifMatch = []
      · simp [update, CondAction.apply]
      simp only [update, if_false, checkUpdate]
      by_cases current : (objects other).any (etagMatches h.ifMatch)
      · simp only [current, if_true, CondAction.apply]
        cases judges with
        | true => exact honours_star_none
        | false => exact honours_blank none
      · simp [current]

/-- No object passes the headers while If-None-Match names some object. -/
def Exclusive (h : CondHeaders) : Prop :=
  ∀ e x, honours h (some e) = true → h.ifNoneMatch ≠ [] → etagMatches h.ifNoneMatch x = false

/-- An object that If-None-Match lets pass is judged like every other object. -/
def Uniform (h : CondHeaders) : Prop :=
  ∀ e x, h.ifNoneMatch = [] ∨ etagMatches h.ifNoneMatch e = false →
    honours h (some x) = honours h (some e)

def Indifferent (h : CondHeaders) : Prop := ∀ e, honours h (some e) = honours h none

theorem judgedBoth_none (other : Option Key) : judgedBoth h none other = honours h other := by
  unfold judgedBoth honours
  by_cases update : h.ifMatch = []
  · simp [update]
  · simp [update, Bool.and_comm]

theorem judgedBoth_alone (own : Option Key) : judgedBoth h own none = honours h own := by
  unfold judgedBoth
  by_cases update : h.ifMatch = []
  · simp [update]
  cases own with
  | none => simp [update, honours]
  | some => simp [update]

theorem judgedBoth_some (e x : Key) : judgedBoth h (some x) (some e) =
      ((decide (h.ifNoneMatch = []) || !etagMatches h.ifNoneMatch e) && honours h (some x)) := by
  simp [judgedBoth]

theorem passes_iff (e : Key) : (decide (h.ifNoneMatch = []) || !etagMatches h.ifNoneMatch e) ↔
      h.ifNoneMatch = [] ∨ etagMatches h.ifNoneMatch e = false := by
  simp

theorem judged_first_iff :
    (∀ own other, judgedBoth h own other = honours h (own.or other)) ↔ Exclusive h := by
  constructor
  · intro eq e x allowed named
    have both := eq (some e) (some x)
    rw [judgedBoth_some, some_or, allowed, Bool.and_true] at both
    exact ((passes_iff x).mp both).resolve_left named
  intro exclusive own other
  cases own with
  | none => rw [judgedBoth_none, none_or]
  | some e =>
    rw [some_or]
    cases other with
    | none => exact judgedBoth_alone _
    | some x =>
      rw [judgedBoth_some]
      cases allowed : honours h (some e) with
      | false => rw [Bool.and_false]
      | true =>
        rw [Bool.and_true, passes_iff]
        by_cases create : h.ifNoneMatch = []
        · exact .inl create
        · exact .inr (exclusive e x allowed create)

theorem judged_second_iff :
    (∀ own other, judgedBoth h own other = honours h (other.or own)) ↔ Uniform h := by
  constructor
  · intro eq e x passes
    have both := eq (some x) (some e)
    rwa [judgedBoth_some, some_or, (passes_iff e).mpr passes, Bool.true_and] at both
  intro uniform own other
  cases other with
  | none => rw [judgedBoth_alone, none_or]
  | some e =>
    rw [some_or]
    cases own with
    | none => exact judgedBoth_none _
    | some x =>
      rw [judgedBoth_some]
      cases passes : decide (h.ifNoneMatch = []) || !etagMatches h.ifNoneMatch e with
      | true => rw [Bool.true_and, uniform e x ((passes_iff e).mp passes)]
      | false =>
        rw [Bool.false_and, honours]
        simp only [any_some, passes, Bool.and_false]

theorem honours_indifferent (indifferent : Indifferent h) (object : Option Key) :
    honours h object = honours h none := by
  cases object with
  | none => rfl
  | some e => exact indifferent e

theorem judgedBoth_indifferent (indifferent : Indifferent h) (own other : Option Key) :
    judgedBoth h own other = honours h none := by
  cases own with
  | none => rw [judgedBoth_none, honours_indifferent indifferent]
  | some x =>
    cases other with
    | none => rw [judgedBoth_alone, honours_indifferent indifferent]
    | some e =>
      rw [judgedBoth_some, indifferent x]
      have judged := indifferent e
      unfold honours at judged ⊢
      cases passes : decide (h.ifNoneMatch = []) || !etagMatches h.ifNoneMatch e with
      | true => rw [Bool.true_and]
      | false =>
        simp only [any_some, passes, Bool.and_false] at judged
        rw [Bool.false_and, judged]

theorem judged_only_iff :
    (∀ own other, judgedBoth h own other = honours h own) ↔ Indifferent h := by
  constructor
  · intro eq e
    rw [← eq none (some e), judgedBoth_none]
  · intro indifferent own other
    rw [judgedBoth_indifferent indifferent, honours_indifferent indifferent own]

theorem judged_unread_iff :
    (∀ own other, judgedBoth h own other = honours h other) ↔ Indifferent h := by
  constructor
  · intro eq e
    rw [← eq (some e) none, judgedBoth_alone]
  · intro indifferent own other
    rw [judgedBoth_indifferent indifferent, honours_indifferent indifferent other]

section

variable (hash : Key → Hash)

/-- The role a write lands on: a PUT on the role its key is routed to, a completion on the role
of its upload. -/
def LandsOn (v : Placement) (key : Key) (op : Op) (role : String) : Prop :=
  (op = .putObject ∧ ∃ route, decideRoute hash v .write key = .ok route ∧
      route.held = false ∧
      role = match route.cluster with
        | .primary => v.primary
        | .source => v.source) ∨
    (op = .completeMultipartUpload ∧ (role = v.primary ∨ v.source ≠ "" ∧ role = v.source))

structure Reachable (linked : List String) (v : Placement) : Prop where
  migrates : v.state ≠ .active → v.source ≠ ""
  distinct : v.source ≠ v.primary
  primary : v.clusterOf v.primary ∈ linked ∧ nameIn v.names v.primary ≠ ""
  source : v.source ≠ "" → v.clusterOf v.source ∈ linked ∧ nameIn v.names v.source ≠ ""

def JudgedAlike (v : Placement) (read : Route) (h : CondHeaders) (role : String) : Prop :=
  if v.state = .ramping ∨ v.state = .migrating then
    if read.cluster = .primary then
      if role = v.primary then Exclusive h else Uniform h
    else Indifferent h
  else role = v.primary ∨ Indifferent h

variable {hash} {key : Key} {read : Route}

theorem landsOn_role (lands : LandsOn hash v key op role) :
    Judged op ∧ (role = v.primary ∨ v.source ≠ "" ∧ role = v.source) := by
  rcases lands with ⟨put, route, decided, _, side⟩ | ⟨complete, side⟩
  · refine ⟨.inl put, ?_⟩
    cases first : route.cluster with
    | primary =>
      rw [first] at side
      exact .inl side
    | source =>
      rw [first] at side
      refine .inr ⟨?_, side⟩
      intro none
      rw [decideRoute, if_pos (.inl none)] at decided
      rw [← Except.ok.inj decided] at first
      cases first
  · exact ⟨.inr (.inl complete), side⟩

theorem read_split (moves : v.state = .ramping ∨ v.state = .migrating) (source : v.source ≠ "")
    (decided : decideRoute hash v .read key = .ok read) (stale : Bool) :
    (staleRead stale .read read).cluster = .primary ∧ (staleRead stale .read read).fallback ∨
      (staleRead stale .read read).cluster = .source := by
  have has : read = { cluster := .primary, fallback := true } ∨ read = { cluster := .source } := by
    have forced : inForce .read = { cluster := .primary, fallback := true } := by decide
    unfold decideRoute at decided
    rcases moves with ramping | migrating
    · rw [if_neg (by simp [source, ramping]), if_neg (by simp [ramping]), if_pos (by simp),
        if_pos ramping] at decided
      split at decided
      · cases decided
      · exact .inl (by rw [← Except.ok.inj decided, forced])
      unfold outOfRamp at decided
      split at decided
      · cases decided
      rw [if_neg (by simp)] at decided
      split at decided
      · exact .inl (Except.ok.inj decided).symm
      · exact .inr (Except.ok.inj decided).symm
    · rw [if_neg (by simp [source, migrating]), if_neg (by simp [migrating]), if_pos (by simp),
        if_neg (by simp [migrating])] at decided
      exact .inl (by rw [← Except.ok.inj decided, forced])
  rcases has with rfl | rfl
  · exact .inl (by simp [staleRead])
  cases stale with
  | true => exact .inl (by simp [staleRead])
  | false => exact .inr (by simp [staleRead])

theorem read_settled (rests : ¬(v.state = .ramping ∨ v.state = .migrating))
    (decided : decideRoute hash v .read key = .ok read) (stale : Bool) :
    staleRead stale .read read = { cluster := .primary } := by
  have has : read = { cluster := .primary } := by
    unfold decideRoute at decided
    split at decided
    · exact (Except.ok.inj decided).symm
    rename_i moves
    have cutover : v.state = .cutover := by
      cases state : v.state with
      | active => exact absurd (.inr state) moves
      | ramping => exact absurd (.inl state) rests
      | migrating => exact absurd (.inr state) rests
      | cutover => rfl
    rw [if_pos cutover, if_neg (by simp)] at decided
    exact (Except.ok.inj decided).symm
  rw [has]
  simp [staleRead]

theorem forall_objects {first second : String} (distinct : first ≠ second)
    {f : Option Key → Option Key → Prop} :
    (∀ objects : String → Option Key, f (objects first) (objects second)) ↔ ∀ x y, f x y := by
  constructor
  · intro all x y
    have here := all fun r => if r = first then x else y
    simpa [Ne.symm distinct] using here
  · intro all objects
    exact all _ _

theorem otherRole_primary (reach : Reachable linked v)
    (moves : v.state = .ramping ∨ v.state = .migrating) (source : v.source ≠ "") :
    otherRole linked v v.primary = some v.source := by
  obtain ⟨cluster, name⟩ := reach.source source
  simp [otherRole, Ne.symm reach.distinct, moves, cluster, reach.distinct, name]

theorem otherRole_source (reach : Reachable linked v)
    (moves : v.state = .ramping ∨ v.state = .migrating) :
    otherRole linked v v.source = some v.primary := by
  simp [otherRole, moves, reach.primary.1, Ne.symm reach.distinct, reach.primary.2]

theorem visible_fallback {route : Route} (first : route.cluster = .primary)
    (fallback : route.fallback) (objects : String → Option Key) :
    visible v route objects = (objects v.primary).or (objects v.source) := by
  simp only [visible, first, fallback, if_true]
  cases objects v.primary <;> rfl

theorem visible_source {route : Route} (first : route.cluster = .source)
    (objects : String → Option Key) : visible v route objects = objects v.source := by
  simp [visible, first]

/-- A conditional write is accepted, on every content of the two buckets, exactly when the object
a read would return meets its precondition, for the placements, routes and headers that are
judged alike and for no others. -/
theorem conditional_write_judged_iff (reach : Reachable linked v)
    (decided : decideRoute hash v .read key = .ok read)
    (lands : LandsOn hash v key op role) (stale judges : Bool) (h : CondHeaders) :
    (∀ objects, accepted linked v op h judges role objects = true ↔
        honours h (visible v (staleRead stale .read read) objects) = true) ↔
      JudgedAlike v (staleRead stale .read read) h role := by
  obtain ⟨judged, side⟩ := landsOn_role lands
  simp only [← Bool.eq_iff_iff]
  unfold JudgedAlike
  by_cases moves : v.state = .ramping ∨ v.state = .migrating
  · rw [if_pos moves]
    have source : v.source ≠ "" := reach.migrates (by rcases moves with s | s <;> simp [s])
    rcases read_split moves source decided stale with ⟨first, fallback⟩ | first
    · rw [if_pos first]
      simp only [visible_fallback first fallback]
      rcases side with rfl | ⟨_, rfl⟩
      · simp only [accepted_both judged (otherRole_primary reach moves source), if_true]
        rw [← judged_first_iff, ← forall_objects (Ne.symm reach.distinct)]
      · simp only [accepted_both judged (otherRole_source reach moves), if_neg reach.distinct]
        rw [← judged_second_iff, ← forall_objects reach.distinct]
    rw [if_neg (by simp [first])]
    simp only [visible_source first]
    rcases side with rfl | ⟨_, rfl⟩
    · simp only [accepted_both judged (otherRole_primary reach moves source)]
      rw [← judged_unread_iff, ← forall_objects (Ne.symm reach.distinct)]
    · simp only [accepted_both judged (otherRole_source reach moves)]
      rw [← judged_only_iff, ← forall_objects reach.distinct]
  · rw [if_neg moves, read_settled moves decided stale]
    have alone : otherRole linked v role = none := by
      unfold otherRole
      simp only
      rw [if_neg fun all => moves all.1]
    have shown (objects : String → Option Key) :
        visible v { cluster := .primary } objects = objects v.primary := by
      simp only [visible]
      cases objects v.primary <;> rfl
    simp only [accepted_alone judged alone, shown]
    rcases side with rfl | ⟨_, rfl⟩
    · simp
    rw [or_iff_right reach.distinct, forall_objects
      (f := fun x y => honours h x = honours h y) reach.distinct]
    constructor
    · intro eq e
      exact eq (some e) none
    · intro indifferent x y
      rw [honours_indifferent indifferent x, honours_indifferent indifferent y]

end

def splitBucket : Placement :=
  { state := .migrating, primary := "B", source := "A"
    names := ((∅ : StrMap String).insert "A" "y").insert "B" "z" }

theorem splitBucket_reachable : Reachable ["A", "B"] splitBucket :=
  ⟨by decide, by decide, by decide, by decide⟩

/-- Create-once on a bucket that moves. -/
theorem create_once_judged : Reachable ["A", "B"] splitBucket ∧
    ∀ objects, accepted ["A", "B"] splitBucket .putObject ⟨[], [42]⟩ true "B" objects = true ↔
      honours ⟨[], [42]⟩ (visible splitBucket { cluster := .primary, fallback := true } objects) =
        true := by
  have exclusive : Exclusive ⟨[], [42]⟩ := by
    intro e x allowed
    simp [honours, etagMatches, trimBoth, isBlank] at allowed
  exact ⟨splitBucket_reachable,
    (@conditional_write_judged_iff _ _ _ _ (fun _ => 0) [] _ splitBucket_reachable rfl
      (.inl ⟨rfl, _, rfl, rfl, rfl⟩) false true ⟨[], [42]⟩).mpr exclusive⟩

/-- A completion on the source of a bucket that moves, with the tag `a` of the old version there:
accepted, while a read returns the newer version `b` of the target. -/
theorem old_version_matched :
    accepted ["A", "B"] splitBucket .completeMultipartUpload ⟨[97], []⟩ true "A"
        (fun role => if role = "A" then some [97] else some [98]) = true ∧
      visible splitBucket { cluster := .primary, fallback := true }
        (fun role => if role = "A" then some [97] else some [98]) = some [98] ∧
      honours ⟨[97], []⟩ (some [98]) = false := by
  refine ⟨?_, rfl, by decide⟩
  decide

end Shunt.Proxy
