/-
When a move's source may go: the question purge and the last step of a move ask
about the keys a leg owns outside the move, decided over every scope and the
whole hash space.
-/

import Shunt.Directory.MoveValid
import Shunt.Migrate.Order

namespace Shunt.Migrate

open Directory List Option Std.ExtTreeMap

variable {p q : Placement} {m : Move} {leg : String} {scope : Key} {rg : HashRange}
variable {table : List Owner}

def ownsBeyond (p : Placement) (leg : String) (scope : Key) (rg : HashRange) : Bool :=
  (decide (scope ≠ [] ∨ p.prefixes ≠ []) &&
      ([] :: p.prefixes.map PrefixRule.pre).any fun s =>
        decide (s ≠ scope) && ((p.scopeTable s).getD []).any fun o => decide (o.leg = leg)) ||
    ((p.scopeTable scope).getD []).any fun o =>
      decide (o.leg = leg) && (decide (o.lo < rg.lo) || decide (rg.hi < o.hi))

/-- The table of a scope gives a hash to a leg. -/
def OwnsHash (p : Placement) (leg : String) (scope : Key) (h : Hash) : Prop :=
  ∃ table, p.scopeTable scope = some table ∧ ownerIn table h = leg

theorem OwnsHash.entry {h : Hash} (tables : Tables p) (owns : OwnsHash p leg scope h) :
    ∃ table, p.scopeTable scope = some table ∧ ∃ o ∈ table, o.has h ∧ o.leg = leg := by
  obtain ⟨table, got, owner⟩ := owns
  obtain ⟨o, mem, isIn, eq⟩ := ownerIn_mem (scopeTable_over tables got).1 h
  exact ⟨table, got, o, mem, isIn, eq.symm.trans owner⟩

theorem ownsHash_ends {table : List Owner} {o : Owner} (tables : Tables p)
    (got : p.scopeTable scope = some table) (mem : o ∈ table) :
    OwnsHash p o.leg scope o.lo ∧ OwnsHash p o.leg scope o.hi := by
  have tiled := (scopeTable_over tables got).1
  have ordered : o.lo ≤ o.hi := UInt64.le_iff_toNat_le.mpr (tiled.bounds mem).2.1
  exact ⟨⟨table, got, ownerIn_of_mem tiled mem ⟨UInt64.le_refl _, ordered⟩⟩,
    ⟨table, got, ownerIn_of_mem tiled mem ⟨ordered, UInt64.le_refl _⟩⟩⟩

theorem getD_table {o : Owner} {s : Key} (mem : o ∈ (p.scopeTable s).getD []) :
    ∃ table, p.scopeTable s = some table ∧ o ∈ table := by
  cases got : p.scopeTable s with
  | none => simp [got] at mem
  | some table => exact ⟨table, rfl, by rwa [got] at mem⟩

theorem scope_listed {s : Key} (got : p.scopeTable s = some table) :
    s ∈ [] :: p.prefixes.map PrefixRule.pre := by
  unfold Placement.scopeTable at got
  split at got
  · rename_i own
    exact own ▸ mem_cons_self
  obtain ⟨rule, at_, -⟩ := map_eq_some_iff.mp got
  have eq : rule.pre = s := by simpa using find?_some at_
  exact mem_cons_of_mem _ (List.mem_map.mpr ⟨rule, mem_of_find?_eq_some at_, eq⟩)

theorem ownsBeyond_iff (tables : Tables p) : ownsBeyond p leg scope rg ↔
      ∃ s h, OwnsHash p leg s h ∧ ¬ (s = scope ∧ rg.contains h = true) := by
  simp only [ownsBeyond, Bool.or_eq_true, Bool.and_eq_true, List.any_eq_true, decide_eq_true_eq,
    HashRange.contains_iff]
  constructor
  · rintro (⟨-, s, -, other, o, mem, rfl⟩ | ⟨o, mem, rfl, outside⟩)
    · obtain ⟨table, got, there⟩ := getD_table mem
      exact ⟨s, o.lo, (ownsHash_ends tables got there).1, fun isIn => other isIn.1⟩
    obtain ⟨table, got, there⟩ := getD_table mem
    have ends := ownsHash_ends tables got there
    rcases outside with prev | post
    · exact ⟨scope, o.lo, ends.1, fun isIn => UInt64.not_le.mpr prev isIn.2.1⟩
    · exact ⟨scope, o.hi, ends.2, fun isIn => UInt64.not_le.mpr post isIn.2.2⟩
  rintro ⟨s, h, owns, outside⟩
  obtain ⟨table, got, o, mem, isIn, eq⟩ := owns.entry tables
  by_cases own : s = scope
  · subst own
    refine .inr ⟨o, by rw [got]; exact mem, eq, ?_⟩
    by_cases low : rg.lo ≤ h
    · have high : rg.hi < h := UInt64.not_le.mp fun high => outside ⟨rfl, low, high⟩
      exact .inr (UInt64.lt_of_lt_of_le high isIn.2)
    · exact .inl (UInt64.lt_of_le_of_lt isIn.1 (UInt64.not_le.mp low))
  refine .inl ⟨?_, s, scope_listed got, own, o, by rw [got]; exact mem, eq⟩
  by_contra bare
  obtain ⟨all, noRules⟩ := not_or.mp bare
  have listed := scope_listed got
  rw [not_not.mp noRules] at listed
  exact own ((mem_singleton.mp listed).trans (not_not.mp all).symm)

theorem ownsKeys_iff (tables : Tables p) : p.ownsKeys leg ↔ ∃ s h, OwnsHash p leg s h := by
  simp only [Placement.ownsKeys, Bool.or_eq_true, List.any_eq_true, beq_iff_eq]
  constructor
  · rintro (⟨o, mem, rfl⟩ | ⟨rule, there, o, mem, rfl⟩)
    · exact ⟨[], o.lo, (ownsHash_ends tables rfl mem).1⟩
    · exact ⟨rule.pre, o.lo, (ownsHash_ends tables (scopeTable_of_mem tables there) mem).1⟩
  rintro ⟨s, h, owns⟩
  obtain ⟨table, got, o, mem, -, eq⟩ := owns.entry tables
  unfold Placement.scopeTable at got
  split at got
  · cases got
    exact .inl ⟨o, mem, eq⟩
  obtain ⟨rule, at_, owners⟩ := map_eq_some_iff.mp got
  subst owners
  exact .inr ⟨rule, mem_of_find?_eq_some at_, o, mem, eq⟩

theorem scopeTable_setScopeTable {owners : List Owner}
    (got : p.scopeTable scope = some table) (s : Key) :
    (p.setScopeTable scope owners).scopeTable s =
      if s = scope then some owners else p.scopeTable s := by
  by_cases all : scope = []
  · subst all
    simp only [Placement.setScopeTable, if_true, Placement.scopeTable]
    split <;> rfl
  have rules := setScopeTable_prefixes p scope owners all
  have own : (p.setScopeTable scope owners).owners = p.owners := by
    simp [Placement.setScopeTable, all]
  unfold Placement.scopeTable at got ⊢
  rw [if_neg all] at got
  rw [rules, own, find?_map]
  have samePre : ((fun rule : PrefixRule => decide (rule.pre = s)) ∘
      PrefixRule.replaced scope owners) = fun rule => decide (rule.pre = s) := by
    funext rule
    simp
  rw [samePre]
  by_cases bare : s = []
  · subst bare
    rw [if_pos rfl, if_pos rfl, if_neg fun eq => all eq.symm]
  rw [if_neg bare, if_neg bare]
  by_cases own : s = scope
  · subst own
    obtain ⟨rule, at_, -⟩ := map_eq_some_iff.mp got
    have eq : rule.pre = s := by simpa using find?_some at_
    simp [at_, PrefixRule.replaced, eq]
  rw [if_neg own]
  cases at_ : p.prefixes.find? fun rule => decide (rule.pre = s) with
  | none => rfl
  | some rule =>
    have eq : rule.pre = s := by simpa using find?_some at_
    simp [PrefixRule.replaced, eq, own]

section

variable (nv : Placement)

theorem ownsHash_ended (form : SpreadForm p) (moves : p.move = some m) (s : Key) (h : Hash) :
    OwnsHash (p.ended m nv) leg s h ↔
      if s = m.scope ∧ m.range.contains h = true then leg = m.dest else OwnsHash p leg s h := by
  have prev := form.moving m moves
  obtain ⟨table, got, -⟩ := prev.owned
  have tiled := (scopeTable_over form.tables got).1
  have here : (p.ended m nv).scopeTable s =
      if s = m.scope then some (reassign table m.range m.dest) else p.scopeTable s := by
    unfold Placement.ended
    rw [got, getD_some]
    exact scopeTable_setScopeTable (p := p.rested nv) got s
  unfold OwnsHash
  rw [here]
  by_cases own : s = m.scope
  · subst own
    simp only [if_true, Option.some.injEq, exists_eq_left', true_and, got,
      ownerIn_reassign tiled prev.ordered]
    split
    · exact eq_comm
    · rfl
  · simp [own]

theorem ended_tables (form : SpreadForm p) (moves : p.move = some m) : Tables (p.ended m nv) := by
  have prev := form.moving m moves
  obtain ⟨table, got, -⟩ := prev.owned
  unfold Placement.ended
  rw [got, getD_some]
  exact (form.toSpreadCore.rested nv).tables.setScopeTable
    (reassign_over (scopeTable_over form.tables got) prev.ordered prev.dest)

theorem ended_ownsKeys (form : SpreadForm p) (moves : p.move = some m) :
    (p.ended m nv).ownsKeys m.source = ownsBeyond p m.source m.scope m.range := by
  rw [Bool.eq_iff_iff, ownsKeys_iff (ended_tables nv form moves), ownsBeyond_iff form.tables]
  refine exists_congr fun s => exists_congr fun h => ?_
  rw [ownsHash_ended nv form moves]
  split
  · rename_i isIn
    simp [isIn, (form.moving m moves).different]
  · rename_i outside
    simp [outside]

theorem ended_dest (form : SpreadForm p) (moves : p.move = some m) :
    OwnsHash (p.ended m nv) m.dest m.scope m.range.lo := by
  have ordered := (form.moving m moves).ordered
  rw [ownsHash_ended nv form moves,
    if_pos ⟨rfl, (m.range.contains_iff _).mpr ⟨UInt64.le_refl _, ordered⟩⟩]

theorem sole_owner {o : Owner} {s : Key} {h : Hash} (tables : Tables p) (alone : p.owners = [o])
    (noRules : p.prefixes = []) (owns : OwnsHash p leg s h) : leg = o.leg := by
  obtain ⟨table, got, e, mem, -, eq⟩ := owns.entry tables
  have listed := scope_listed got
  rw [noRules] at listed
  rw [mem_singleton.mp listed] at got
  have owners : p.owners = table := by simpa [Placement.scopeTable] using got
  rw [← owners, alone] at mem
  rw [← eq, mem_singleton.mp mem]

/-- What is left of the legs once a move's source has gone.  A bucket still
spread keeps every other leg.  A bucket one leg owns alone is plain again: it
names the destination as primary, a bucket of each cluster that is left, and
nothing but the legs that are left. -/
structure LeftWithout (p : Placement) (m : Move) (q : Placement) : Prop where
  spread : q.spread = true → q.legs = p.legs.erase m.source
  primary : q.spread = false → q.primary = (legIn p.legs m.dest).cluster
  only : q.spread = false → ∀ cluster bucket, q.names[cluster]? = some bucket →
    ∃ id ∈ p.legs.erase m.source, legIn p.legs id = ⟨cluster, bucket⟩
  named : q.spread = false → ∀ id ∈ p.legs.erase m.source, (legIn p.legs id).cluster ∈ q.names
  dest : q.spread = false →
    q.names[(legIn p.legs m.dest).cluster]? = some (legIn p.legs m.dest).bucket

theorem getElem?_without {legs : StrMap Leg} {source id : String}
    (mem : id ∈ legs.erase source) : (legs.erase source)[id]? = some (legIn legs id) := by
  obtain ⟨l, got⟩ := exists_leg mem
  have other := (mem_erase.mp mem).1
  rw [getElem?_erase, if_neg other] at got
  rw [getElem?_erase, if_neg other, got, legIn_of_getElem? got]

theorem endMove_leftWithout (form : SpreadForm p) (moves : p.move = some m)
    (idle : ownsBeyond p m.source m.scope m.range = false) : LeftWithout p m (p.endMove m nv) := by
  have prev := form.moving m moves
  have legs : p.endedLegs m nv = p.legs.erase m.source := by
    rw [Placement.endedLegs, ended_ownsKeys nv form moves, idle, if_neg Bool.false_ne_true]
  have core := ended_core nv form moves
  have rests : (p.ended m nv).move = none := setScopeTable_move _ _ _
  rw [endMove_eq]
  rw [legs] at core ⊢
  rcases settle_shape core rests with ⟨eq, spread⟩ | ⟨o, alone, noRules, settled⟩
  · rw [eq]
    refine ⟨fun _ => rfl, ?_, ?_, ?_, ?_⟩
    all_goals exact fun plain => absurd (spread.symm.trans plain) Bool.true_eq_false.mp
  have owner : m.dest = o.leg :=
    sole_owner (ended_tables nv form moves) alone noRules (ended_dest nv form moves)
  have destLeft : m.dest ∈ p.legs.erase m.source := by
    rw [mem_erase, ne_eq, Std.compare_eq_iff_eq]
    exact ⟨prev.different, prev.dest⟩
  have home : legIn (p.legs.erase m.source) o.leg = legIn p.legs m.dest := by
    rw [← owner]
    exact legIn_of_getElem? (getElem?_without destLeft)
  have plain :
      ({ p.ended m nv with legs := p.legs.erase m.source }.settledOn o).spread = false := by
    simp [Placement.spread, Placement.settledOn, rests, noRules]
  have entry : ∀ id ∈ p.legs.erase m.source,
      (id, legIn p.legs id) ∈ (p.legs.erase m.source).toList := fun id mem =>
    mem_toList_iff_getElem?_eq_some.mpr (getElem?_without mem)
  rw [settled]
  refine ⟨fun spread => absurd (spread.symm.trans plain) Bool.true_eq_false.mp,
    fun _ => congrArg Leg.cluster home, fun _ cluster bucket got => ?_,
    fun _ id mem => settledNames_keeps.2 _ (entry id mem), fun _ => ?_⟩
  · rcases settledNames_found got with first | ⟨e, mem, sameCluster, sameBucket⟩
    · rw [home, Std.ExtTreeMap.getElem?_insert] at first
      split at first
      · rename_i eq
        cases first
        exact ⟨m.dest, destLeft, by rw [← Std.compare_eq_iff_eq.mp eq]⟩
      · simp at first
    have there := mem_toList_iff_getElem?_eq_some.mp mem
    have left : e.1 ∈ p.legs.erase m.source := isSome_getElem?_iff_mem.mp (by rw [there]; rfl)
    have eq := (getElem?_without left).symm.trans there
    exact ⟨e.1, left, by rw [some.inj eq, ← sameCluster, ← sameBucket]⟩
  · change (settledNames _ _)[_]? = _
    rw [home, settledNames_given _ _ _ Std.ExtTreeMap.mem_insert_self, getElem?_insert_self]

theorem endMove_kept (form : SpreadForm p) (moves : p.move = some m)
    (beyond : ownsBeyond p m.source m.scope m.range) : (p.endMove m nv).legs = p.legs := by
  have owns : (p.ended m nv).ownsKeys m.source := by
    rw [ended_ownsKeys nv form moves, beyond]
  have legs : p.endedLegs m nv = p.legs := by rw [Placement.endedLegs, if_pos owns]
  have core := ended_core nv form moves
  rw [endMove_eq]
  rcases settle_shape core (setScopeTable_move _ _ _) with ⟨eq, -⟩ | ⟨o, alone, noRules, -⟩
  · rw [eq, legs]
  -- one table of one entry cannot give keys to both ends of the move
  have tables := ended_tables nv form moves
  obtain ⟨s, h, still⟩ := (ownsKeys_iff tables).mp owns
  have source := sole_owner tables alone noRules still
  have dest := sole_owner tables alone noRules (ended_dest nv form moves)
  exact absurd (source.trans dest.symm) (form.moving m moves).different

end

theorem apply_ended {t : Transition} (form : SpreadForm p) (moves : p.move = some m)
    (res : p.apply t = .ok q) (active : q.state = .active) (inForce : t.release = false) :
    ∃ nv, q = p.endMove m nv := by
  obtain ⟨t', solved, step⟩ := apply_step (.inr form) res
  cases resolve_spread form.spread solved
  cases step with
  | plain plain => rw [form.spread] at plain; cases plain
  | start plans =>
    rw [form.rest.mp plans.active] at moves
    cases moves
  | step _ _ still => exact absurd active still
  | unwind _ _ _ freed => rw [inForce] at freed; cases freed
  | @finish m' nv movingNow =>
    rw [moves] at movingNow
    cases movingNow
    exact ⟨nv, rfl⟩

/-- A leg said to own nothing beyond its move owns only keys of the move, and
the step that ends the move takes it away.  A leg said to own more owns a hash
of some scope outside the move, and that step takes no leg away. -/
theorem source_dropped_safely (valid : p.Valid) (moves : p.move = some m) :
    (ownsBeyond p m.source m.scope m.range = false →
      (∀ hash key, ownerOf hash p key = .ok m.source → inMove hash p key = true) ∧
      ∀ t q, p.apply t = .ok q → q.state = .active → t.release = false → LeftWithout p m q) ∧
    (ownsBeyond p m.source m.scope m.range = true →
      (∃ scope table h, p.scopeTable scope = some table ∧ ownerIn table h = m.source ∧
        ¬ (scope = m.scope ∧ m.range.contains h = true)) ∧
      ∀ t q, p.apply t = .ok q → q.state = .active → t.release = false → q.legs = p.legs) := by
  have form := valid.formed.spreadForm moves
  refine ⟨fun idle => ⟨fun hash key owner => ?_, fun t q res active inForce => ?_⟩,
    fun beyond => ⟨?_, fun t q res active inForce => ?_⟩⟩
  · have owns : OwnsHash p m.source (p.scope key).1 (hash key) := by
      refine ⟨_, scopeTable_scope form.tables key, ?_⟩
      unfold ownerOf at owner
      split at owner
      · cases owner
      dsimp only at owner
      split at owner
      · cases owner
      · exact Except.ok.inj owner
    by_contra outside
    refine absurd ((ownsBeyond_iff form.tables).mpr ⟨_, _, owns, ?_⟩) (by rw [idle]; simp)
    rintro ⟨scope, isIn⟩
    exact outside (by simp [inMove, moves, isIn, scope])
  · obtain ⟨nv, ended⟩ := apply_ended form moves res active inForce
    rw [ended]
    exact endMove_leftWithout nv form moves idle
  · obtain ⟨s, h, ⟨table, got, owner⟩, outside⟩ := (ownsBeyond_iff form.tables).mp beyond
    exact ⟨s, table, h, got, owner, outside⟩
  obtain ⟨nv, ended⟩ := apply_ended form moves res active inForce
  rw [ended]
  exact endMove_kept nv form moves beyond

def photosLeave : Move :=
  { scope := [], range := fullRange, source := "a", dest := "b", ramp := none, cutover := none }

def photosLeaving : Placement :=
  { state := .cutover, keyHash := rampHash
    legs := (((∅ : StrMap Leg).insert "a" ⟨"east", "acme-photos"⟩).insert "b"
      ⟨"west", "acme-photos"⟩).insert "c" ⟨"west", "acme-photos-2"⟩
    owners := [⟨0, 0xffffffffffffffff, "a"⟩]
    move := some photosLeave }

def photosInWest : Placement :=
  { state := .active, primary := "west"
    names := (∅ : StrMap String).insert "west" "acme-photos" }

theorem photosLeaving_valid : photosLeaving.Valid := valid_of_directory rfl (by decide)

theorem photosLeaving_dropped : LeftWithout photosLeaving photosLeave photosInWest :=
  ((source_dropped_safely photosLeaving_valid rfl).1 (by decide)).2 { toState := some .active }
    photosInWest (by decide) rfl rfl

/-- The end of that move forgets the idle leg along with the source. -/
theorem idle_leg_forgotten :
    photosLeaving.Valid ∧ ownsBeyond photosLeaving "a" [] fullRange = false ∧
      photosLeaving.apply { toState := some .active } = .ok photosInWest ∧
      photosLeaving.legs["c"]? = some ⟨"west", "acme-photos-2"⟩ ∧
      photosInWest.legs["c"]? = none ∧ photosInWest.names["west"]? ≠ some "acme-photos-2" :=
  ⟨photosLeaving_valid, by decide, by decide, by decide, by decide, by decide⟩

end Shunt.Migrate
