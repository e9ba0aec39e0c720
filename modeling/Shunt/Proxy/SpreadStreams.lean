/-
Where the streams of a spread bucket's legs stand while a page is cut from them.
-/

import Shunt.Proxy.SpreadPages

namespace Shunt.Proxy

open Directory
open List hiding merge mem_merge
open Library
open Migrate

variable {O : Type} {hash : Key → Hash} {p : Placement} {b : Leg → Backend O} {q : Query}
  {c : Contents O} {post last : Key} {legs : List (SpreadLeg O)}

abbrev LegsAnswer (p : Placement) (b : Leg → Backend O) (q : Query) (c : Contents O) :=
  ∀ id, id ∈ p.listingLegs q.pre → Answers (b (legIn p.legs id)) q (some (c (legIn p.legs id)))

section

variable (hash) (serves : LegsAnswer p b q c)

def keptOn (id : String) (last : Key) : List (ListItem O) :=
  if read : id ∈ p.listingLegs q.pre then
    (serves id read).kept (ownItem hash p id) last (.after [])
  else []

def keptOnDest (last : Key) : List (ListItem O) :=
  p.move.elim [] fun m => keptOn hash serves m.dest last

def legsAfter (last : Key) : List (ListItem O) :=
  merge ListItem.name (keptOnDest hash serves last)
    (mergeAll ListItem.name ((p.listingLegs q.pre).map fun id => keptOn hash serves id last))

variable {hash} {id : String}

theorem keptOn_read (read : id ∈ p.listingLegs q.pre) : keptOn hash serves id last =
    (serves id read).kept (ownItem hash p id) last (.after []) := dif_pos read

theorem keptOn_ascending (id : String) (last : Key) :
    Ascending ListItem.name (keptOn hash serves id last) := by
  unfold keptOn
  split
  · exact (serves id _).kept_ascending _ _ ((serves id _).starts [])
  · exact List.Pairwise.nil

theorem above_keptOn {later : Key} (forward : ¬ later < last) :
    above ListItem.name later (keptOn hash serves id last) = keptOn hash serves id later := by
  unfold keptOn
  split
  · exact (serves id _).above_kept forward
  · rfl

variable {x : ListItem O}

theorem mem_keptOn : x ∈ keptOn hash serves id last ↔
    ∃ read, x ∈ (serves id read).rest (.after []) ∧ ownItem hash p id x ∧ last < x.name := by
  unfold keptOn
  split
  · rename_i read
    simp [Answers.kept, read, and_assoc]
  · rename_i unread
    simp [unread]

theorem keptOnDest_ascending (last : Key) :
    Ascending ListItem.name (keptOnDest hash serves last) := by
  unfold keptOnDest
  cases p.move with
  | none => exact List.Pairwise.nil
  | some m => exact keptOn_ascending serves m.dest last

theorem lists_ascending (hash : Key → Hash) (last : Key) (ids : List String) :
    ∀ l ∈ ids.map fun id => keptOn hash serves id last, Ascending ListItem.name l := by
  intro l mem
  obtain ⟨id, -, rfl⟩ := List.mem_map.mp mem
  exact keptOn_ascending serves id last

theorem legsAfter_ascending (hash : Key → Hash) (last : Key) :
    Ascending ListItem.name (legsAfter hash serves last) :=
  merge_ascending (keptOnDest_ascending serves last)
    (mergeAll_ascending (lists_ascending serves hash last _))

theorem legsAfter_parts : x ∈ legsAfter hash serves last ↔ x ∈ keptOnDest hash serves last ∨
      x ∈ mergeAll ListItem.name ((p.listingLegs q.pre).map fun id => keptOn hash serves id last) ∧
      ∀ y ∈ keptOnDest hash serves last, y.name ≠ x.name :=
  mem_merge (keptOnDest_ascending serves last)
    (mergeAll_ascending (lists_ascending serves hash last _))

theorem above_legsAfter {later : Key} (forward : ¬ later < last) :
    above ListItem.name later (legsAfter hash serves last) = legsAfter hash serves later := by
  have dest : above ListItem.name later (keptOnDest hash serves last) =
      keptOnDest hash serves later := by
    unfold keptOnDest
    cases p.move with
    | none => rfl
    | some => exact above_keptOn serves forward
  rw [legsAfter, above_merge (keptOnDest_ascending serves last)
    (mergeAll_ascending (lists_ascending serves hash last _)), dest,
    above_mergeAll (lists_ascending serves hash last _), List.map_map]
  simp only [Function.comp_def, above_keptOn serves forward]
  rfl

theorem mem_legsAfter (mem : x ∈ legsAfter hash serves last) :
    ∃ id, x ∈ keptOn hash serves id last ∧ ∀ m, p.move = some m → id = m.dest ∨
      ∀ y ∈ keptOn hash serves m.dest last, y.name ≠ x.name := by
  rcases (legsAfter_parts serves).mp mem with here | ⟨there, away⟩
  · unfold keptOnDest at here
    cases moves : p.move with
    | none =>
      rw [moves] at here
      cases here
    | some m =>
      rw [moves] at here
      refine ⟨m.dest, here, fun m' eq => .inl ?_⟩
      cases eq
      rfl
  · obtain ⟨l, isIn, got⟩ := exists_of_mem_mergeAll (lists_ascending serves hash last _) there
    obtain ⟨id, -, rfl⟩ := List.mem_map.mp isIn
    refine ⟨id, got, fun m moves => .inr ?_⟩
    simpa only [keptOnDest, moves, Option.elim_some] using away

theorem exists_legsAfter (kept : x ∈ keptOn hash serves id last) :
    ∃ y ∈ legsAfter hash serves last, y.name = x.name := by
  obtain ⟨read, -⟩ := (mem_keptOn serves).mp kept
  obtain ⟨y, got, named⟩ := exists_named_mergeAll (lists_ascending serves hash last _)
    (List.mem_map_of_mem (f := fun id => keptOn hash serves id last) read) kept
  by_cases held : ∃ w ∈ keptOnDest hash serves last, w.name = y.name
  · obtain ⟨w, inDest, eq⟩ := held
    exact ⟨w, (legsAfter_parts serves).mpr (.inl inDest), eq.trans named⟩
  · push Not at held
    exact ⟨y, (legsAfter_parts serves).mpr (.inr ⟨got, held⟩), named⟩

theorem legsAfter_entry (mem : x ∈ legsAfter hash serves last) :
    last < x.name ∧ (∃ key o, q.pre <+: key ∧ x = q.entry key o) ∧ x.name ≠ [] ∧ Utf8 x.name := by
  obtain ⟨id, kept, -⟩ := mem_legsAfter serves mem
  obtain ⟨read, rest, -, later⟩ := (mem_keptOn serves).mp kept
  obtain ⟨key, o, under, eq, -⟩ := (serves id read).entryAfter rest
  exact ⟨later, ⟨key, o, under, eq⟩, (serves id read).named _ ((serves id read).starts []) x rest⟩

theorem legsAfter_tail {rest : List (ListItem O)} (shape : legsAfter hash serves last = x :: rest) :
    last < x.name ∧ legsAfter hash serves x.name = rest := by
  have mem : x ∈ legsAfter hash serves last := by
    rw [shape]
    exact mem_cons_self
  have later := (legsAfter_entry serves mem).1
  have sorted := legsAfter_ascending serves hash last
  rw [shape] at sorted
  exact ⟨later, by rw [← above_legsAfter serves (lt_asymm later), shape, sorted.tail_eq]⟩

end

section

variable (serves : LegsAnswer p b q c)

/-- A leg's stream that has given every entry up to a name. -/
def LegAt (hash : Key → Hash) (post last : Key) (l : SpreadLeg O) : Prop :=
  ∃ read : l.id ∈ p.listingLegs q.pre,
    (serves l.id read).At (ownItem hash p l.id) [] post l.side last

structure AllAt (hash : Key → Hash) (post last : Key) (legs : List (SpreadLeg O)) : Prop where
  ids : legs.map SpreadLeg.id = p.listingLegs q.pre
  stand : ∀ l ∈ legs, LegAt serves hash post last l

def Ready (hash : Key → Hash) (last : Key) (legs : List (SpreadLeg O)) : Prop :=
  ∀ l ∈ legs, l.side.items.head? = (keptOn hash serves l.id last).head?

/-- A head that leaves its leg where it stands, with the leg's next entry. -/
def ReadsLegs (hash : Key → Hash) (post : Key)
    (headOf : SpreadLeg O → Except ListError (SpreadLeg O)) : Prop :=
  ∀ l last, LegAt serves hash post last l → ∃ l', headOf l = .ok l' ∧ l'.id = l.id ∧
    LegAt serves hash post last l' ∧
    l'.side.items.head? = (keptOn hash serves l'.id last).head?

variable {serves} {headOf : SpreadLeg O → Except ListError (SpreadLeg O)}

theorem ReadsLegs.all (reads : ReadsLegs serves hash post headOf)
    (stand : AllAt serves hash post last legs) :
    ∃ legs', legs.mapM headOf = .ok legs' ∧ AllAt serves hash post last legs' ∧
      Ready serves hash last legs' := by
  have each : ∀ legs : List (SpreadLeg O), (∀ l ∈ legs, LegAt serves hash post last l) →
      ∃ legs', legs.mapM headOf = .ok legs' ∧ legs'.map SpreadLeg.id = legs.map SpreadLeg.id ∧
        (∀ l ∈ legs', LegAt serves hash post last l) ∧ Ready serves hash last legs' := by
    intro legs
    induction legs with
    | nil => exact fun _ => ⟨[], rfl, rfl, nofun, nofun⟩
    | cons l rest ih =>
      intro stand
      obtain ⟨first, others⟩ := forall_mem_cons.mp stand
      obtain ⟨l', read, sameID, at_, ready⟩ := reads l last first
      obtain ⟨rest', readRest, sameIDs, atRest, readyRest⟩ := ih others
      refine ⟨l' :: rest', ?_, by simp [sameID, sameIDs],
        forall_mem_cons.mpr ⟨at_, atRest⟩, forall_mem_cons.mpr ⟨ready, readyRest⟩⟩
      simp only [mapM_cons, read, readRest, ok_bind]
      rfl
  obtain ⟨legs', read, ids, at_, ready⟩ := each legs stand.stand
  exact ⟨legs', read, ⟨ids.trans stand.ids, at_⟩, ready⟩

theorem leastHead_ready (ready : Ready serves hash last legs) : leastHead legs =
    (mergeAll ListItem.name (legs.map fun l => keptOn hash serves l.id last)).head? := by
  induction legs with
  | nil => rfl
  | cons l rest ih =>
    obtain ⟨first, others⟩ := forall_mem_cons.mp ready
    change _ = (merge ListItem.name (keptOn hash serves l.id last)
      (mergeAll ListItem.name (rest.map fun l => keptOn hash serves l.id last))).head?
    rw [leastHead, head?_merge, first, ih others]
    cases (keptOn hash serves l.id last).head? with
    | none => rfl
    | some x =>
      cases (mergeAll ListItem.name (rest.map fun l => keptOn hash serves l.id last)).head?
        with
      | none => rfl
      | some y =>
        by_cases less : y.name < x.name
        · simp [less]
        · simp [less]

theorem findDest (ready : Ready serves hash last legs) (dest : String) (name : Key)
    (all : keptOn hash serves dest last ≠ [] → dest ∈ legs.map SpreadLeg.id) :
    (legs.findSome? fun l => if some l.id = some dest then
        l.side.items.head?.filter fun x => decide (x.name = name) else none) =
      (keptOn hash serves dest last).head?.filter fun x => decide (x.name = name) := by
  induction legs with
  | nil =>
    have none : keptOn hash serves dest last = [] := by
      by_contra given
      cases all given
    rw [none]
    rfl
  | cons l rest ih =>
    obtain ⟨first, others⟩ := forall_mem_cons.mp ready
    rw [findSome?_cons]
    by_cases here : l.id = dest
    · subst here
      rw [if_pos rfl, first]
      cases got : (keptOn hash serves l.id last).head?.filter
          fun x => decide (x.name = name) with
      | some => rfl
      | none =>
        refine findSome?_eq_none_iff.mpr fun l' mem => ?_
        split
        · rename_i eq
          rw [others l' mem, Option.some.inj eq, got]
        · rfl
    · rw [if_neg (fun eq => here (Option.some.inj eq))]
      refine ih others fun given => ?_
      rcases mem_cons.mp (all given) with eq | later
      · exact absurd eq.symm here
      · exact later

theorem LegAt.pop {l : SpreadLeg O} (at_ : LegAt serves hash post last l)
    (ready : l.side.items.head? = (keptOn hash serves l.id last).head?) {name : Key}
    (later : last < name) (least : ∀ x ∈ keptOn hash serves l.id last, ¬ x.name < name) :
    LegAt serves hash post name (l.pop name) := by
  obtain ⟨read, stands⟩ := at_
  rw [keptOn_read serves read] at least ready
  have sorted := (serves l.id read).kept_ascending (ownItem hash p l.id) last
    ((serves l.id read).starts [])
  unfold SpreadLeg.pop
  cases items : l.side.items with
  | nil =>
    have none : (serves l.id read).kept (ownItem hash p l.id) last (.after []) = [] := by
      rw [items] at ready
      exact head?_eq_none_iff.mp ready.symm
    exact ⟨read, stands.skip (serves l.id read) later (by simp [none])⟩
  | cons x =>
    by_cases eq : x.name = name
    · simp only [eq, if_true]
      refine ⟨read, ?_⟩
      rw [← eq]
      exact stands.pop (serves l.id read) items
    simp only [eq, if_false]
    refine ⟨read, stands.skip (serves l.id read) later ?_⟩
    have remaining := stands.remaining
    rw [items, cons_append] at remaining
    rw [← remaining] at least sorted ⊢
    have beyond : name < x.name := lt_of_le_of_ne (not_lt.mp (least x mem_cons_self)) (Ne.symm eq)
    exact forall_mem_cons.mpr
      ⟨beyond, fun z mem => beyond.trans ((pairwise_cons.mp sorted).1 z mem)⟩

theorem SpreadLeg.pop_id (name : Key) (l : SpreadLeg O) : (l.pop name).id = l.id := by
  unfold SpreadLeg.pop
  split
  · split
    · rfl
    · rfl
  · rfl

theorem spreadTake_spec (stand : AllAt serves hash post last legs)
    (ready : Ready serves hash last legs) :
    (spreadTake (p.move.map Move.dest) legs = none ∧ legsAfter hash serves last = []) ∨
      ∃ x legs' rest, spreadTake (p.move.map Move.dest) legs = some (x, legs') ∧
        legsAfter hash serves last = x :: rest ∧ AllAt serves hash post x.name legs' := by
  have lists : (p.listingLegs q.pre).map (fun id => keptOn hash serves id last) =
      legs.map fun l => keptOn hash serves l.id last := by
    rw [← stand.ids, List.map_map]
    rfl
  have headOfAll := leastHead_ready ready
  rw [← lists] at headOfAll
  have all : ∀ id, keptOn hash serves id last ≠ [] → id ∈ p.listingLegs q.pre := by
    intro id given
    by_contra unread
    exact given (dif_neg unread)
  unfold spreadTake
  cases least : leastHead legs with
  | none =>
    rw [least] at headOfAll
    have empty := mergeAll_eq_nil.mp (head?_eq_none_iff.mp headOfAll.symm)
    refine .inl ⟨rfl, merge_eq_nil.mpr ⟨?_, mergeAll_eq_nil.mpr empty⟩⟩
    unfold keptOnDest
    cases p.move with
    | none => rfl
    | some m =>
      by_contra given
      exact given (empty _ (List.mem_map_of_mem (all m.dest given)))
  | some y =>
    rw [least] at headOfAll
    obtain ⟨others, shape⟩ := head?_eq_some_iff.mp headOfAll.symm
    have sorted := mergeAll_ascending (lists_ascending serves hash last (p.listingLegs q.pre))
    -- the least head comes before everything any leg keeps
    have first : ∀ id, ∀ x ∈ keptOn hash serves id last, ¬ x.name < y.name := by
      intro id x kept
      obtain ⟨z, got, named⟩ := exists_named_mergeAll
        (lists_ascending serves hash last (p.listingLegs q.pre))
        (List.mem_map_of_mem (all id (ne_nil_of_mem kept))) kept
      rw [shape] at got sorted
      rw [← named]
      rcases mem_cons.mp got with rfl | later
      · exact lt_irrefl _
      · exact lt_asymm ((pairwise_cons.mp sorted).1 z later)
    have later : last < y.name := by
      obtain ⟨l, isIn, got⟩ := exists_of_mem_mergeAll
        (lists_ascending serves hash last (p.listingLegs q.pre)) (x := y)
        (by rw [shape]; exact mem_cons_self)
      obtain ⟨id, -, rfl⟩ := List.mem_map.mp isIn
      obtain ⟨-, -, -, beyond⟩ := (mem_keptOn serves).mp got
      exact beyond
    have ofDest : (legs.findSome? fun l => if some l.id = p.move.map Move.dest then
          l.side.items.head?.filter fun x => decide (x.name = y.name) else none) =
        (keptOnDest hash serves last).head?.filter fun x => decide (x.name = y.name) := by
      unfold keptOnDest
      cases p.move with
      | none => simp
      | some m => exact findDest ready m.dest y.name (by rw [stand.ids]; exact all m.dest)
    have taken : (legsAfter hash serves last).head? = some
          (((keptOnDest hash serves last).head?.filter
            fun x => decide (x.name = y.name)).getD y) ∧
        (((keptOnDest hash serves last).head?.filter
          fun x => decide (x.name = y.name)).getD y).name = y.name := by
      rw [legsAfter, head?_merge, ← headOfAll]
      cases dest : (keptOnDest hash serves last).head? with
      | none => simp
      | some d =>
        have kept : d ∈ keptOnDest hash serves last := mem_of_mem_head? dest
        have notLess : ¬ d.name < y.name := by
          unfold keptOnDest at kept
          cases moves : p.move with
          | none =>
            rw [moves] at kept
            cases kept
          | some m =>
            rw [moves] at kept
            exact first m.dest d kept
        by_cases eq : d.name = y.name
        · simp [Option.filter, eq]
        · have more : y.name < d.name := lt_of_le_of_ne (not_lt.mp notLess) (Ne.symm eq)
          simp [Option.filter, eq, more]
    obtain ⟨rest, split⟩ := head?_eq_some_iff.mp taken.1
    refine .inr ⟨_, _, rest, congrArg (fun got => some (Option.getD got y, _)) ofDest, split,
      ?_, ?_⟩
    · rw [List.map_map, ← stand.ids]
      exact map_congr_left fun l _ => SpreadLeg.pop_id y.name l
    intro l' mem
    obtain ⟨l, isIn, rfl⟩ := List.mem_map.mp mem
    rw [taken.2]
    exact (stand.stand l isIn).pop (ready l isIn) later (first l.id)

theorem spreadEmit_spec (reads : ReadsLegs serves hash post headOf) (n : Nat)
    (stand : AllAt serves hash post last legs) :
    ∃ legs' last', spreadEmit headOf (p.move.map Move.dest) n legs =
        .ok ((legsAfter hash serves last).take n, legs') ∧ AllAt serves hash post last' legs' ∧
      legsAfter hash serves last' = (legsAfter hash serves last).drop n ∧
      last' = lastName last ((legsAfter hash serves last).take n) := by
  induction n generalizing legs last with
  | zero => exact ⟨legs, last, rfl, stand, rfl, rfl⟩
  | succ n ih =>
    obtain ⟨legs₁, read, stand₁, ready⟩ := reads.all stand
    simp only [spreadEmit, read, ok_bind]
    rcases spreadTake_spec stand₁ ready with ⟨none, empty⟩ | ⟨x, legs₂, rest, some, shape, stand₂⟩
    · rw [none, empty]
      exact ⟨legs₁, last, rfl, stand₁, by rw [empty]; rfl, rfl⟩
    obtain ⟨-, tail⟩ := legsAfter_tail serves shape
    obtain ⟨legs', last', emitted, stand', left, ends⟩ := ih stand₂
    rw [tail] at emitted left ends
    rw [some, shape]
    refine ⟨legs', last', ?_, stand', left, ?_⟩
    · simp only [emitted, ok_bind, take_succ_cons]
      rfl
    rw [ends, take_succ_cons, lastName, lastName, getLast?_cons]
    cases (rest.take n).getLast? with
    | none | some => rfl

theorem spreadPage_spec (reads : ReadsLegs serves hash post headOf) (n : Nat)
    (stand : AllAt serves hash post last legs) :
    ∃ truncated done, spreadPage headOf (p.move.map Move.dest) n legs =
        .ok ((legsAfter hash serves last).take n, truncated, done) ∧
      (truncated ↔ n < (legsAfter hash serves last).length) ∧ ∀ id ∈ done, keptOn hash serves id
        (lastName last ((legsAfter hash serves last).take n)) = [] := by
  obtain ⟨legs₁, end_, emitted, stand₁, left, ends⟩ := spreadEmit_spec reads n stand
  obtain ⟨legs₂, read, stand₂, ready⟩ := reads.all stand₁
  simp only [spreadPage, emitted, read, ok_bind]
  refine ⟨_, _, rfl, ?_, ?_⟩
  · have more : n < (legsAfter hash serves last).length ↔
        legsAfter hash serves end_ ≠ [] := by
      rw [left, ne_eq, drop_eq_nil_iff, not_le]
    rw [more, List.any_eq_true]
    constructor
    · rintro ⟨l, isIn, some⟩ none
      have given : keptOn hash serves l.id end_ ≠ [] := by
        intro empty
        have noHead := ready l isIn
        rw [empty] at noHead
        rw [head?_eq_none_iff.mp noHead] at some
        cases some
      obtain ⟨x, kept⟩ := exists_mem_of_ne_nil _ given
      obtain ⟨y, got, -⟩ := exists_legsAfter serves kept
      rw [none] at got
      cases got
    · intro given
      obtain ⟨x, mem⟩ := exists_mem_of_ne_nil _ given
      obtain ⟨id, kept, -⟩ := mem_legsAfter serves mem
      obtain ⟨listed, -⟩ := (mem_keptOn serves).mp kept
      rw [← stand₂.ids] at listed
      obtain ⟨l, isIn, rfl⟩ := List.mem_map.mp listed
      refine ⟨l, isIn, ?_⟩
      cases items : l.side.items with
      | nil =>
        have noHead := ready l isIn
        rw [items] at noHead
        rw [head?_eq_none_iff.mp noHead.symm] at kept
        cases kept
      | cons => rfl
  · intro id listed
    obtain ⟨l, isIn, rfl⟩ := List.mem_map.mp listed
    obtain ⟨mem, empty⟩ := List.mem_filter.mp isIn
    have noHead := ready l mem
    rw [List.isEmpty_iff.mp empty] at noHead
    rw [← ends]
    exact head?_eq_none_iff.mp noHead.symm

end

end Shunt.Proxy
