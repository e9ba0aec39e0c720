/-
The listing of a spread bucket against the listing of one bucket that holds the same
objects.
-/

import Shunt.Proxy.Requests
import Shunt.Proxy.SpreadResume

namespace Shunt.Proxy

open Directory List
open Library
open Migrate

variable {O : Type}

def Shows (q : Query) (bucket : Bucket O) (items : List (ListItem O)) : Prop :=
  Ascending ListItem.name items ∧ ∀ x, x ∈ items ↔ Listed q bucket x

theorem Listed.same {q : Query} {bucket : Bucket O} {x y : ListItem O} (first : Listed q bucket x)
    (second : Listed q bucket y) (named : x.name = y.name) : x = y := by
  obtain ⟨key, o, got, under, rfl⟩ := first
  obtain ⟨key', u, got', under', rfl⟩ := second
  cases rolled : (q.entry key o).isPrefix with
  | true =>
    refine (entry_rolled rolled ?_).symm
    rw [named]
    exact entry_name under'
  | false =>
    cases rolled' : (q.entry key' u).isPrefix with
    | true =>
      refine entry_rolled rolled' ?_
      rw [← named]
      exact entry_name under
    | false =>
      rw [entry_object rolled, entry_object rolled'] at named ⊢
      cases named
      rw [got] at got'
      cases got'
      rfl

section

variable (named : String → Key → Hash) (p : Placement) (c : Contents O)

def spreadBucket : Bucket O := fun key =>
  let owned := c (ownerLeg (named p.keyHash) p key) key
  match p.move with
  | none => owned
  | some m =>
    if inMove (named p.keyHash) p key then (c (legIn p.legs m.dest) key).or owned else owned

/-- Each leg holds keys it owns, and copies of keys of the move to it. -/
def OwnContents : Prop :=
  ∀ id ∈ p.legs, ∀ key, c (legIn p.legs id) key ≠ none →
    id = ownerID (named p.keyHash) p key ∨
      ∃ m, p.move = some m ∧ id = m.dest ∧ inMove (named p.keyHash) p key = true

/-- The keys are split by the hash this build has, or every object to list is on a leg of
the move and, by that hash, in the move. -/
def Evaluable (q : Query) : Prop :=
  p.keyHash = rampHash ∨
    ∀ id ∈ p.legs, ∀ key o, c (legIn p.legs id) key = some o → q.pre <+: key →
      (q.entry key o).isPrefix = false →
      ∃ m, p.move = some m ∧ (id = m.source ∨ id = m.dest) ∧
        inMove (named rampHash) p key = true

variable {named p c} {q : Query} {key : Key} {o : O} {id : String}

theorem listed_leg (form : SpreadForm p) {pre : Key} (listed : id ∈ p.listingLegs pre) :
    id ∈ p.legs := by
  rcases mem_listingLegs.mp listed with ⟨owner, mem, rfl⟩ | ⟨rule, mem, -, owner, owns, rfl⟩ |
      ⟨m, moving, rfl | rfl⟩
  · exact (scope_over form.tables pre).2 owner mem
  · exact (form.tables.rules rule mem).2 owner owns
  · exact (form.moving m moving).source
  · exact (form.moving m moving).dest

theorem spreadBucket_of_leg (held : OwnContents named p c) (mem : id ∈ p.legs)
    (got : c (legIn p.legs id) key = some o)
    (elsewhere : ∀ m, p.move = some m → id = m.dest ∨ c (legIn p.legs m.dest) key = none) :
    spreadBucket named p c key = some o := by
  unfold spreadBucket
  rcases held id mem key (by simp [got]) with rfl | ⟨m, moving, rfl, isIn⟩
  · rw [← ownerLeg] at got
    cases moving : p.move with
    | none => exact got
    | some m =>
      simp only [got]
      split
      · rcases elsewhere m moving with same | none
        · rw [← same, ← ownerLeg, got]
          rfl
        · rw [none]
          rfl
      · rfl
  · simp only [moving, isIn, if_true, got]
    rfl

theorem exists_of_leg (form : SpreadForm p) (held : OwnContents named p c) (mem : id ∈ p.legs)
    (got : c (legIn p.legs id) key = some o) : ∃ u, spreadBucket named p c key = some u := by
  cases moving : p.move with
  | none => exact ⟨o, spreadBucket_of_leg held mem got (by simp [moving])⟩
  | some m =>
    have only : ∀ m', p.move = some m' → m' = m := fun m' moving' =>
      Option.some.inj (moving'.symm.trans moving)
    cases there : c (legIn p.legs m.dest) key with
    | none =>
      refine ⟨o, spreadBucket_of_leg held mem got fun m' moving' => .inr ?_⟩
      rw [only m' moving']
      exact there
    | some u =>
      refine ⟨u, spreadBucket_of_leg held (form.moving m moving).dest there
        fun m' moving' => .inl ?_⟩
      rw [only m' moving']

theorem exists_leg_of_bucket (form : SpreadForm p) (got : spreadBucket named p c key = some o)
    (under : q.pre <+: key) : ∃ id ∈ p.listingLegs q.pre, c (legIn p.legs id) key = some o := by
  have owner : ownerID (named p.keyHash) p key ∈ p.listingLegs q.pre :=
    ownerID_listed form.toSpreadCore (List.isPrefixOf_iff_prefix.mpr under)
  unfold spreadBucket at got
  cases moving : p.move with
  | none =>
    rw [moving] at got
    exact ⟨_, owner, got⟩
  | some m =>
    simp only [moving] at got
    split at got
    · rcases Option.or_eq_some_iff.mp got with atDest | ⟨-, atOwner⟩
      · exact ⟨m.dest, mem_listingLegs.mpr (.inr (.inr ⟨m, moving, .inr rfl⟩)), atDest⟩
      · exact ⟨_, owner, atOwner⟩
    · exact ⟨_, owner, got⟩

theorem ownKey_foreign {hash : Key → Hash} (foreign : p.keyHash ≠ rampHash) :
    ownKey hash p id key ↔ ∃ m, p.move = some m ∧ (id = m.source ∨ id = m.dest) ∧
      inMove hash p key = true := by
  unfold ownKey ownerOf
  rw [if_pos foreign]
  cases p.move with
  | none | some => simp

theorem ownKey_of_held (form : SpreadForm p) (held : OwnContents named p c)
    (has : p.keyHash = rampHash) (mem : id ∈ p.legs)
    (got : c (legIn p.legs id) key ≠ none) : ownKey (named rampHash) p id key = true := by
  rcases held id mem key got with owner | ⟨m, moving, rfl, isIn⟩
  · rw [has] at owner
    unfold ownKey
    rw [ownerOf_known form.toSpreadCore has, owner]
    simp
  · rw [has] at isIn
    simp [ownKey, moving, isIn]

theorem ownKey_dest {m : Move} (form : SpreadForm p) (held : OwnContents named p c)
    (moving : p.move = some m) (there : c (legIn p.legs m.dest) key ≠ none)
    (own : ownKey (named rampHash) p id key) : ownKey (named rampHash) p m.dest key = true := by
  by_cases has : p.keyHash = rampHash
  · exact ownKey_of_held form held has (form.moving m moving).dest there
  obtain ⟨m', moving', -, isIn⟩ := (ownKey_foreign has).mp own
  exact (ownKey_foreign has).mpr ⟨m', moving', by
    rw [moving] at moving'
    cases moving'
    exact .inr rfl, isIn⟩

section

variable {b : Leg → Backend O} (serves : LegsAnswer p b q c)

theorem mem_keptOn_listed {hash : Key → Hash} {x : ListItem O} :
    x ∈ keptOn hash serves id [] ↔ id ∈ p.listingLegs q.pre ∧
      Listed q (c (legIn p.legs id)) x ∧ ownItem hash p id x ∧ x.name ≠ [] := by
  rw [mem_keptOn]
  constructor
  · rintro ⟨read, rest, own, given⟩
    exact ⟨read, ((serves id read).shows _ rfl [] x given).mp rest, own,
      ne_nil_iff_nil_lt.mpr given⟩
  rintro ⟨read, listed, own, given⟩
  have beyond := ne_nil_iff_nil_lt.mp given
  exact ⟨read, ((serves id read).shows _ rfl [] x beyond).mpr listed, own, beyond⟩

theorem listed_of_left (form : SpreadForm p) (held : OwnContents named p c) {x : ListItem O}
    (mem : x ∈ legsAfter (named rampHash) serves []) : Listed q (spreadBucket named p c) x := by
  obtain ⟨id, kept, elsewhere⟩ := mem_legsAfter serves mem
  obtain ⟨read, ⟨key, o, got, under, rfl⟩, own, given⟩ := (mem_keptOn_listed serves).mp kept
  have leg := listed_leg form read
  cases rolled : (q.entry key o).isPrefix with
  | true =>
    -- the entry of a common prefix does not depend on which copy is listed
    obtain ⟨u, copy⟩ := exists_of_leg form held leg got
    exact ⟨key, u, copy, under, (entry_rolled rolled (entry_name under)).symm⟩
  | false =>
    have object := entry_object rolled
    have owns : ownKey (named rampHash) p id key := by
      simpa [ownItem, object] using own
    refine ⟨key, o, spreadBucket_of_leg held leg got fun m moving => ?_, under, rfl⟩
    by_cases same : id = m.dest
    · exact .inl same
    refine .inr ?_
    by_contra there
    obtain ⟨u, copy⟩ := Option.ne_none_iff_exists'.mp there
    have destOwns := ownKey_dest form held moving there owns
    have plain : q.entry key u = ⟨key, false, some u⟩ := entry_object (by rwa [entry_plain u o])
    have named' : key ≠ [] := by
      rw [object] at given
      exact given
    refine ((elsewhere m moving).resolve_left same) (q.entry key u)
      ((mem_keptOn_listed serves).mpr ⟨mem_listingLegs.mpr
        (.inr (.inr ⟨m, moving, .inr rfl⟩)), ⟨key, u, copy, under, rfl⟩, ?_, ?_⟩) ?_
    · simp [ownItem, plain, destOwns]
    · rw [plain]
      exact named'
    · rw [plain, object]

theorem left_of_listed (form : SpreadForm p) (held : OwnContents named p c)
    (evaluable : Evaluable named p c q) (filled : ∀ id ∈ p.legs, c (legIn p.legs id) [] = none)
    {x : ListItem O} (listed : Listed q (spreadBucket named p c) x) :
    x ∈ legsAfter (named rampHash) serves [] := by
  obtain ⟨key, o, got, under, rfl⟩ := id listed
  obtain ⟨leg, read, copy⟩ := exists_leg_of_bucket form got under
  have given : key ≠ [] := by
    rintro rfl
    rw [filled leg (listed_leg form read)] at copy
    cases copy
  have own : ownItem (named rampHash) p leg (q.entry key o) := by
    cases rolled : (q.entry key o).isPrefix with
    | true => simp [ownItem, rolled]
    | false =>
      have owns : ownKey (named rampHash) p leg key := by
        by_cases has : p.keyHash = rampHash
        · exact ownKey_of_held form held has (listed_leg form read) (by simp [copy])
        · exact (ownKey_foreign has).mpr
            (evaluable.resolve_left has leg (listed_leg form read) key o copy under rolled)
      simp [ownItem, entry_object rolled, owns]
  obtain ⟨y, left, named'⟩ := exists_legsAfter serves ((mem_keptOn_listed serves).mpr
    ⟨read, ⟨key, o, copy, under, rfl⟩, own, entry_name_ne_nil given⟩)
  rwa [listed.same (listed_of_left serves form held left) named'.symm]

theorem evaluable_of_left (form : SpreadForm p) (held : OwnContents named p c)
    (left : ∀ x, Listed q (spreadBucket named p c) x →
      x ∈ legsAfter (named rampHash) serves []) : Evaluable named p c q := by
  by_cases has : p.keyHash = rampHash
  · exact .inl has
  refine .inr fun id leg key o got under plain => ?_
  obtain ⟨u, copy⟩ := exists_of_leg form held leg got
  have object : q.entry key u = ⟨key, false, some u⟩ := entry_object (by rwa [entry_plain u o])
  obtain ⟨id', kept, -⟩ := mem_legsAfter serves (left _ ⟨key, u, copy, under, rfl⟩)
  rw [object] at kept
  obtain ⟨read, ⟨key', w, copy', -, same⟩, own, -⟩ := (mem_keptOn_listed serves).mp kept
  have object' : q.entry key' w = ⟨key', false, some w⟩ := entry_object (by rw [← same])
  rw [object'] at same
  cases same
  obtain ⟨m, moving, side, isIn⟩ := (ownKey_foreign has).mp (by simpa [ownItem] using own)
  refine ⟨m, moving, ?_, isIn⟩
  rcases held id leg key (by simp [got]) with owner | ⟨m', moving', rfl, -⟩
  · rcases held id' (listed_leg form read) key (by simp [copy']) with
      owner' | ⟨m', moving', rfl, moves⟩
    · rw [owner, ← owner']
      exact side
    · exact .inl (by
        rw [owner, ownerID_inMove form moving' moves, Option.some.inj (moving.symm.trans moving')])
  · exact .inr (by rw [Option.some.inj (moving.symm.trans moving')])

theorem whole_of_shows {hash : Key → Hash} {available : String → Bool} {rounds maxKeys : Nat}
    {version : ListVersion} {bucket : Bucket O} {pages : List (Page (ListItem O) ListToken)}
    (sound : ∀ x ∈ legsAfter hash serves [], Listed q bucket x)
    (reached : ∀ id ∈ p.listingLegs q.pre, available (legIn p.legs id).cluster)
    (enough : ∀ id read, (serves id read).pages + 1 < rounds) (pos : 1 ≤ maxKeys)
    (followed : Followed (spreadListingPage rounds hash p available b q [] maxKeys version) none
      pages) (shows : Shows q bucket (shown pages)) : shown pages = legsAfter hash serves [] := by
  obtain ⟨first, left⟩ := handedOut_first serves hash version
  have sub := (spreadListing_stretches serves version pos reached enough).sublist
    (pageLimit_pos pos) followed first
  rw [left] at sub
  exact shows.1.ext (legsAfter_ascending serves hash []) fun x =>
    ⟨fun mem => sub.subset mem, fun mem => (shows.2 x).mpr (sound x mem)⟩

end

end

def folder (l : Leg) : List (Key × Nat) :=
  if l = ⟨"east", "acme-photos"⟩ then [([100, 47], 1), ([100, 47, 120], 2)] else []

def inFolder : Query := ⟨[100, 47], [47]⟩

def folderServes : LegsAnswer photosSpread (fun l => listWhole (folder l)) inFolder
    (fun l => bucketOf (folder l)) := fun id _ =>
  listWhole_serves inFolder
    (by unfold folder; split <;> simp [Ascending])
    (by unfold folder; split <;> decide)
    (by unfold folder; split <;> decide)
    (by unfold folder; split <;> decide)

theorem folder_bucket (key : Key) :
    spreadBucket (fun _ _ => 0) photosSpread (fun l => bucketOf (folder l)) key =
      bucketOf (folder ⟨"east", "acme-photos"⟩) key := by
  have owner : ownerLeg (fun _ => 0) photosSpread key = ⟨"east", "acme-photos"⟩ := by
    change legIn photosSpread.legs (ownerIn photosSpread.owners 0) = _
    decide
  change bucketOf (folder (ownerLeg (fun _ => 0) photosSpread key)) key = _
  rw [owner]

theorem folder_held : OwnContents (fun _ _ => 0) photosSpread (fun l => bucketOf (folder l)) := by
  intro id mem key got
  refine .inl ?_
  change id = ownerIn photosSpread.owners 0
  have ids : ∀ id ∈ photosSpread.legs.keys, id = "a" ∨ folder (legIn photosSpread.legs id) =
    [] := by
    decide
  rcases ids id (Std.ExtTreeMap.mem_keys.mpr mem) with rfl | nil
  · decide
  change bucketOf (folder (legIn photosSpread.legs id)) key ≠ none at got
  rw [nil] at got
  exact absurd rfl got

theorem folder_shows : Shows inFolder
    (spreadBucket (fun _ _ => 0) photosSpread fun l => bucketOf (folder l))
    [⟨[100, 47], false, some 1⟩, ⟨[100, 47, 120], false, some 2⟩] := by
  have sorted : Ascending Prod.fst (folder ⟨"east", "acme-photos"⟩) := by
    simp [folder, Ascending]
  refine ⟨by simp [Ascending], fun x => ?_⟩
  simp only [Listed, folder_bucket, bucketOf_eq_some sorted]
  constructor
  · intro mem
    rcases mem_cons.mp mem with rfl | mem
    · exact ⟨[100, 47], 1, by decide, by decide, by decide⟩
    rcases mem_cons.mp mem with rfl | none
    · exact ⟨[100, 47, 120], 2, by decide, by decide, by decide⟩
    · cases none
  rintro ⟨key, o, mem, -, rfl⟩
  rcases mem_cons.mp mem with same | mem
  · cases same
    decide
  rcases mem_cons.mp mem with same | none
  · cases same
    decide
  · cases none

theorem folder_named (l : Leg) : bucketOf (folder l) [] = none := by
  unfold folder
  split
  · rfl
  · rfl

theorem folder_enough (id : String) (read : id ∈ photosSpread.listingLegs inFolder.pre) :
    (folderServes id read).pages + 1 < 2 := Nat.lt_succ_self 1

end Shunt.Proxy
