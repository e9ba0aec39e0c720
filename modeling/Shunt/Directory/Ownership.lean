/-
Which leg owns a key: the scope a key falls in, its table, and what replacing
one scope's table changes for every key.
-/

import Shunt.Directory.WellFormed

namespace Shunt.Directory

open List Option

variable {key : Key} {p : Placement}

/-- One step of the search takes the head, or stays with a rule no shorter. -/
theorem longerRule_cases (key : Key) (best : Option PrefixRule) (head : PrefixRule) :
    (longerRule key best head = some head ∧ hasPrefix key head.pre = true ∧
      ∀ prev, best = some prev → prev.pre.length ≤ head.pre.length) ∨
    longerRule key best head = best ∧ (hasPrefix key head.pre →
      ∃ prev, best = some prev ∧ head.pre.length ≤ prev.pre.length) := by
  cases best with
  | none => by_cases starts : hasPrefix key head.pre <;> simp [longerRule, starts]
  | some prev =>
    by_cases longer : prev.pre.length < head.pre.length ∧ hasPrefix key head.pre
    · simp [longerRule, longer, longer.1.le]
    · refine .inr ⟨if_neg longer, fun starts => ⟨prev, rfl, ?_⟩⟩
      exact not_lt.mp fun shorter => longer ⟨shorter, starts⟩

theorem foldl_longerRule {rules : List PrefixRule} :
    ∀ {best : Option PrefixRule} {rule : PrefixRule},
      rules.foldl (longerRule key) best = some rule →
      (best = some rule ∨ rule ∈ rules ∧ hasPrefix key rule.pre = true) ∧
      (∀ other ∈ rules, hasPrefix key other.pre → other.pre.length ≤ rule.pre.length) ∧
      (∀ prev, best = some prev → prev.pre.length ≤ rule.pre.length) := by
  induction rules with
  | nil =>
    intro best rule res
    rw [foldl_nil] at res
    refine ⟨.inl res, by simp, fun prev eq => ?_⟩
    rw [eq] at res
    cases res
    exact Nat.le_refl _
  | cons head rest ih =>
    intro best rule res
    obtain ⟨got, longest, kept⟩ := ih res
    have later : rule ∈ rest ∧ hasPrefix key rule.pre →
        rule ∈ head :: rest ∧ hasPrefix key rule.pre = true :=
      fun post => ⟨mem_cons_of_mem head post.1, post.2⟩
    rcases longerRule_cases key best head with ⟨taken, starts, longer⟩ | ⟨stays, covered⟩
    · rw [taken] at got kept
      have bound := kept head rfl
      refine ⟨.inr ?_, forall_mem_cons.mpr ⟨fun _ => bound, longest⟩,
        fun prev eq => (longer prev eq).trans bound⟩
      rcases got with eq | post
      · cases eq
        exact ⟨mem_cons_self, starts⟩
      · exact later post
    · rw [stays] at got kept
      refine ⟨got.imp_right later, forall_mem_cons.mpr ⟨fun starts => ?_, longest⟩, kept⟩
      obtain ⟨prev, eq, shorter⟩ := covered starts
      exact shorter.trans (kept prev eq)

theorem ruleOf_longest {rule : PrefixRule} (got : p.ruleOf key = some rule) :
    rule ∈ p.prefixes ∧ hasPrefix key rule.pre ∧ ∀ other ∈ p.prefixes, hasPrefix key other.pre →
        other.pre.length ≤ rule.pre.length := by
  obtain ⟨no | ⟨mem, starts⟩, longest, -⟩ := foldl_longerRule got
  · cases no
  · exact ⟨mem, starts, longest⟩

theorem ruleOf_mem {rule : PrefixRule}
    (got : p.ruleOf key = some rule) : rule ∈ p.prefixes := (ruleOf_longest got).1

theorem foldl_longerRule_none {rules : List PrefixRule} :
    ∀ {best : Option PrefixRule}, rules.foldl (longerRule key) best = none →
      best = none ∧ ∀ rule ∈ rules, hasPrefix key rule.pre = false := by
  induction rules with
  | nil => intro best res; exact ⟨res, by simp⟩
  | cons head rest ih =>
    intro best res
    obtain ⟨prev, later⟩ := ih res
    rcases longerRule_cases key best head with ⟨taken, -⟩ | ⟨stays, covered⟩
    · rw [taken] at prev
      cases prev
    have none_ := stays.symm.trans prev
    refine ⟨none_, forall_mem_cons.mpr ⟨?_, later⟩⟩
    by_contra starts
    obtain ⟨kept, eq, -⟩ := covered (by simpa using starts)
    rw [none_] at eq
    cases eq

theorem ruleOf_none (missing : p.ruleOf key = none) :
    ∀ rule ∈ p.prefixes, hasPrefix key rule.pre = false :=
  (foldl_longerRule_none missing).2

theorem scopeTable_of_mem (tables : Tables p) {rule : PrefixRule}
    (mem : rule ∈ p.prefixes) : p.scopeTable rule.pre = some rule.owners := by
  unfold Placement.scopeTable
  rw [if_neg (tables.named rule mem)]
  have uniq := tables.distinct
  generalize p.prefixes = rules at mem uniq
  induction rules with
  | nil => cases mem
  | cons head rest ih =>
    rcases mem_cons.mp mem with eq | later
    · subst eq
      simp
    have apart := (pairwise_cons.mp uniq).1 rule later
    rw [find?_cons_of_neg (by simpa using apart)]
    exact ih later (pairwise_cons.mp uniq).2

theorem scopeTable_scope (tables : Tables p) (key : Key) :
    p.scopeTable (p.scope key).1 = some (p.scope key).2 := by
  unfold Placement.scope
  cases got : p.ruleOf key with
  | none => rfl
  | some => exact scopeTable_of_mem tables (ruleOf_mem got)

theorem scopeTable_over (tables : Tables p) {scope : Key} {table : List Owner}
    (got : p.scopeTable scope = some table) : TableOver p.legs table := by
  unfold Placement.scopeTable at got
  split at got
  · cases got
    exact tables.own
  obtain ⟨rule, at_, eq⟩ := map_eq_some_iff.mp got
  subst eq
  exact tables.rules rule (mem_of_find?_eq_some at_)

def PrefixRule.replaced (scope : Key) (owners : List Owner) (rule : PrefixRule) : PrefixRule :=
  if rule.pre = scope then { rule with owners := owners } else rule

@[simp] theorem PrefixRule.replaced_pre (scope : Key) (owners : List Owner) (rule : PrefixRule) :
    (rule.replaced scope owners).pre = rule.pre := by
  unfold PrefixRule.replaced
  split <;> rfl

theorem longerRule_map (scope : Key) (owners : List Owner) (key : Key)
    (best : Option PrefixRule) (rule : PrefixRule) :
    longerRule key (best.map (PrefixRule.replaced scope owners)) (rule.replaced scope owners) =
      (longerRule key best rule).map (PrefixRule.replaced scope owners) := by
  cases best with
  | none =>
    simp only [longerRule, map_none, PrefixRule.replaced_pre]
    split <;> rfl
  | some =>
    simp only [longerRule, map_some, PrefixRule.replaced_pre]
    split <;> rfl

theorem setScopeTable_prefixes (p : Placement) (scope : Key) (owners : List Owner)
    (given : scope ≠ []) : (p.setScopeTable scope owners).prefixes =
      p.prefixes.map (PrefixRule.replaced scope owners) := by
  unfold Placement.setScopeTable
  rw [if_neg given]
  rfl

theorem ruleOf_setScopeTable (p : Placement) (scope : Key) (owners : List Owner)
    (key : Key) (given : scope ≠ []) : (p.setScopeTable scope owners).ruleOf key =
      (p.ruleOf key).map (PrefixRule.replaced scope owners) := by
  unfold Placement.ruleOf
  rw [setScopeTable_prefixes p scope owners given]
  suffices general : ∀ (rules : List PrefixRule) (best : Option PrefixRule),
      (rules.map (PrefixRule.replaced scope owners)).foldl (longerRule key)
          (best.map (PrefixRule.replaced scope owners)) =
        (rules.foldl (longerRule key) best).map (PrefixRule.replaced scope owners) from
    general p.prefixes none
  intro rules
  induction rules with
  | nil => intro best; rfl
  | cons rule rest ih =>
    intro best
    rw [map_cons, foldl_cons, foldl_cons, longerRule_map, ih]

theorem scope_setScopeTable (tables : Tables p) (scope : Key) (owners : List Owner) (key : Key) :
    (p.setScopeTable scope owners).scope key =
      ((p.scope key).1, if (p.scope key).1 = scope then owners else (p.scope key).2) := by
  by_cases given : scope = []
  · subst given
    have sameRule : (p.setScopeTable [] owners).ruleOf key = p.ruleOf key := by
      simp [Placement.setScopeTable, Placement.ruleOf]
    unfold Placement.scope
    rw [sameRule]
    cases got : p.ruleOf key with
    | none => simp [Placement.setScopeTable]
    | some rule => simp [tables.named rule (ruleOf_mem got)]
  unfold Placement.scope
  rw [ruleOf_setScopeTable p scope owners key given]
  cases got : p.ruleOf key with
  | none =>
    have ne : ([] : Key) ≠ scope := fun eq => given eq.symm
    simp [Placement.setScopeTable, given, ne]
  | some =>
    simp only [map_some, PrefixRule.replaced_pre]
    unfold PrefixRule.replaced
    split <;> rfl

theorem mem_foldl_insert (ids : List String) (id : String) :
    ∀ set : StrMap Unit, id ∈ ids.foldl (fun (set : StrMap Unit) id => set.insert id ()) set ↔
      id ∈ set ∨ id ∈ ids := by
  induction ids with
  | nil => intro set; simp
  | cons head rest ih =>
    intro set
    rw [foldl_cons, ih, Std.ExtTreeMap.mem_insert, Std.compare_eq_iff_eq, mem_cons]
    constructor
    · rintro ((eq | prev) | later)
      · exact .inr (.inl eq.symm)
      · exact .inl prev
      · exact .inr (.inr later)
    rintro (prev | eq | later)
    · exact .inl (.inr prev)
    · exact .inl (.inl eq.symm)
    · exact .inr later

theorem mem_listingLegs {pre : Key} {id : String} :
    id ∈ p.listingLegs pre ↔ (∃ o ∈ (p.scope pre).2, o.leg = id) ∨
      (∃ rule ∈ p.prefixes, hasPrefix rule.pre pre ∧ ∃ o ∈ rule.owners, o.leg = id) ∨
      ∃ m, p.move = some m ∧ (id = m.source ∨ id = m.dest) := by
  unfold Placement.listingLegs
  rw [Std.ExtTreeMap.mem_keys, mem_foldl_insert]
  cases moves : p.move <;> simp [ownerLegs, and_assoc]

theorem scope_unruled (free : ∀ rule ∈ p.prefixes, hasPrefix key rule.pre = false) :
    (p.scope key).2 = p.owners := by
  unfold Placement.scope
  cases got : p.ruleOf key with
  | none => rfl
  | some rule =>
    obtain ⟨mem, starts, -⟩ := ruleOf_longest got
    rw [free rule mem] at starts
    cases starts

/-- The longest rule that a key falls under is the key's: rules of one length that do are one. -/
theorem scope_longest (tables : Tables p) {rule : PrefixRule} (mem : rule ∈ p.prefixes)
    (starts : hasPrefix key rule.pre)
    (longest : ∀ other ∈ p.prefixes, hasPrefix key other.pre → other.pre.length ≤ rule.pre.length) :
    (p.scope key).2 = rule.owners := by
  unfold Placement.scope
  cases got : p.ruleOf key with
  | none =>
    rw [ruleOf_none got rule mem] at starts
    cases starts
  | some other =>
    obtain ⟨isIn, first, most⟩ := ruleOf_longest got
    have atMost := longest other isIn first
    have eq : other.pre = rule.pre :=
      (List.prefix_of_prefix_length_le (List.isPrefixOf_iff_prefix.mp first)
        (List.isPrefixOf_iff_prefix.mp starts) atMost).eq_of_length
        (Nat.le_antisymm atMost (most rule mem starts))
    have table := scopeTable_of_mem tables isIn
    rw [eq, scopeTable_of_mem tables mem] at table
    exact (some.inj table).symm

theorem hasPrefix_trans {a b c : Key} (ab : hasPrefix b a) (bc : hasPrefix c b) : hasPrefix c a :=
  List.isPrefixOf_iff_prefix.mpr
    ((List.isPrefixOf_iff_prefix.mp ab).trans (List.isPrefixOf_iff_prefix.mp bc))

theorem hasPrefix_within {a b c : Key} (ac : hasPrefix c a) (bc : hasPrefix c b)
    (short : a.length ≤ b.length) : hasPrefix b a :=
  List.isPrefixOf_iff_prefix.mpr (List.prefix_of_prefix_length_le
    (List.isPrefixOf_iff_prefix.mp ac) (List.isPrefixOf_iff_prefix.mp bc) short)

/-- A key under a prefix is owned by the prefix's table, or by a rule beyond the prefix. -/
theorem scope_under (tables : Tables p) {pre : Key} (under : hasPrefix key pre) :
    (p.scope key).2 = (p.scope pre).2 ∨
      ∃ rule ∈ p.prefixes, (hasPrefix rule.pre pre ∧ hasPrefix key rule.pre ∧
        pre.length < rule.pre.length) ∧ rule.owners = (p.scope key).2 := by
  cases ofKey : p.ruleOf key with
  | none =>
    have free := ruleOf_none ofKey
    refine .inl ((scope_unruled free).trans (scope_unruled fun rule mem => ?_).symm)
    by_contra first
    have gone := free rule mem
    rw [hasPrefix_trans (Bool.not_eq_false _ ▸ first) under] at gone
    cases gone
  | some rule =>
    obtain ⟨mem, first, longest⟩ := ruleOf_longest ofKey
    have atKey := scope_longest tables mem first longest
    by_cases short : rule.pre.length ≤ pre.length
    · refine .inl (atKey.trans (scope_longest tables mem (hasPrefix_within first under short)
        fun other isIn starts => longest other isIn (hasPrefix_trans starts under)).symm)
    · have beyond := not_le.mp short
      exact .inr ⟨rule, mem, ⟨hasPrefix_within under first beyond.le, first, beyond⟩, atKey.symm⟩

/-- A rule that owns its keys as its scope did changes the owner of no key. -/
theorem scope_ruled {q : Placement} (pre : Key) (prev : Tables p) (post : Tables q)
    (owners : q.owners = p.owners)
    (rules : ∀ rule, rule ∈ q.prefixes ↔ rule = ⟨pre, (p.scope pre).2⟩ ∨ rule ∈ p.prefixes) :
    (q.scope key).2 = (p.scope key).2 := by
  have kept : ∀ rule ∈ p.prefixes, rule ∈ q.prefixes := fun rule old => (rules rule).mpr (.inr old)
  cases ofKey : q.ruleOf key with
  | none =>
    have free := ruleOf_none ofKey
    rw [scope_unruled free, owners, scope_unruled fun rule old => free rule (kept rule old)]
  | some rule =>
    obtain ⟨mem, first, longest⟩ := ruleOf_longest ofKey
    rw [scope_longest post mem first longest]
    rcases (rules rule).mp mem with rfl | old
    · rcases scope_under prev first with eq | ⟨other, isIn, ⟨-, starts, beyond⟩, -⟩
      · exact eq.symm
      · exact absurd (longest other (kept other isIn) starts) (not_le.mpr beyond)
    · exact (scope_longest prev old first fun other isIn => longest other (kept other isIn)).symm

theorem owner_listed (tables : Tables p) {pre : Key}
    (under : hasPrefix key pre) {o : Owner} (mem : o ∈ (p.scope key).2) :
    o.leg ∈ p.listingLegs pre := by
  rw [mem_listingLegs]
  rcases scope_under tables under with eq | ⟨rule, isIn, ⟨nested, -⟩, owners⟩
  · rw [eq] at mem
    exact .inl ⟨o, mem, rfl⟩
  · rw [← owners] at mem
    exact .inr (.inl ⟨rule, isIn, nested, o, mem, rfl⟩)

end Shunt.Directory
