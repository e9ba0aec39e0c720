/-
What a request, a listing and the mover do to a key, by the phase of the key's
handover.
-/

import Shunt.Library.Cells
import Shunt.Migrate.Order
import Shunt.Proxy.Serve

namespace Shunt.Proxy

open Directory Std.ExtTreeMap
open Option hiding merge
open List hiding merge mem_merge
open Migrate
open Library (Phase Hand HandStep HandKind Cells CellStep)

variable {V : Type} {hash : Key → Hash} {p q : Placement} {t : Transition} {m : Move}
  {c : Contents V} {key pre : Key} {a b : Hand Leg}

theorem handOf_view (got : handOf hash p key = .ok a) : ∃ v phase, routedBy hash p key = .ok v ∧
      phaseOf hash v.state v.ramp key = .ok phase ∧ a = handIn v phase := by
  unfold handOf at got
  cases sent : routedBy hash p key with
  | error => simp [sent] at got
  | ok v =>
    simp only [sent] at got
    cases at_ : phaseOf hash v.state v.ramp key with
    | error => simp [at_] at got
    | ok phase =>
      simp only [at_] at got
      cases got
      exact ⟨v, phase, rfl, at_, rfl⟩

theorem phaseOf_rest {s : State} {ramp : Option Ramp} {phase : Phase}
    (got : phaseOf hash s ramp key = .ok phase) : s = .active ↔ phase = .rest := by
  constructor
  · rintro rfl
    cases got
    rfl
  intro rests
  by_contra away
  exact phaseOf_ne_rest away got rests

theorem get_hand (formed : Formed p) (got : handOf hash p key = .ok a) :
    get hash p c key = .ok (a.reads fun b => c b key) := by
  obtain ⟨v, phase, sent, at_, rfl⟩ := handOf_view got
  unfold get dispatch
  simp only [sent, decideRoute_phase (roled_of_formed formed sent) (.inr rfl) key, at_]
  cases phase <;> rfl

theorem put_hand (formed : Formed p) (got : handOf hash p key = .ok a) (v : V) :
    put hash p c key v = .ok (a.writes.map fun b => c.set b key (some v)) := by
  obtain ⟨view, phase, sent, at_, rfl⟩ := handOf_view got
  unfold put dispatch
  simp only [sent, decideRoute_phase (roled_of_formed formed sent) (.inl rfl) key, at_]
  cases phase <;> rfl

theorem decideRoute_delete {v : Placement} (roled : Roled v) (key : Key) :
    decideRoute hash v .delete key =
      .ok { cluster := .primary, both := decide (v.state ≠ .active) } := by
  unfold decideRoute
  by_cases active : v.state = .active
  · simp [active]
  have named : v.source ≠ "" := fun empty => active (roled.mpr empty)
  by_cases last : v.state = .cutover
  · simp [named, last]
  · simp [named, last, active]

theorem set_same (c : Contents V) (bucket : Leg) (key : Key) (value : Option V) :
    c.set bucket key value bucket key = value := by
  simp [Contents.set]

variable {value : Option V}

theorem set_other {bucket other : Leg} {k : Key} (away : other ≠ bucket ∨ k ≠ key) :
    c.set bucket key value other k = c other k := by
  unfold Contents.set
  rw [if_neg]
  rintro ⟨sameBucket, sameKey⟩
  rcases away with ne | ne
  · exact ne sameBucket
  · exact ne sameKey

theorem set_column (c : Contents V) (bucket : Leg) (key : Key) (value : Option V) :
    (fun b => c.set bucket key value b key) = Function.update (fun b => c b key) bucket value := by
  funext b
  by_cases eq : b = bucket
  · subst eq
    rw [set_same, Function.update_self]
  · rw [set_other (.inl eq), Function.update_of_ne eq]

theorem delete_hand {c' : Contents V} (formed : Formed p) (got : handOf hash p key = .ok a)
    (ok : delete hash p c key = .ok c') :
    c' a.home key = none ∧ (a.phase ≠ .rest → c' a.target key = none) ∧
      (∀ b, a.aside b → c' b key = c b key) ∧ ∀ b k, k ≠ key → c' b k = c b k := by
  obtain ⟨v, phase, sent, at_, rfl⟩ := handOf_view got
  have rests := phaseOf_rest at_
  unfold delete dispatch at ok
  simp only [sent, decideRoute_delete (roled_of_formed formed sent) key, Dispatch.first] at ok
  cases ok
  by_cases active : v.state = .active
  · have atRest := rests.mp active
    simp only [active, ne_eq, not_true_eq_false, decide_false, Bool.false_eq_true, if_false, handIn,
      atRest, if_true]
    refine ⟨set_same _ _ _ _, False.elim, ?_, ?_⟩
    · intro b aside
      exact set_other (.inl aside.1)
    · intro b k away
      exact set_other (.inr away)
  have going : phase ≠ .rest := fun atRest => active (rests.mpr atRest)
  simp only [active, ne_eq, not_false_eq_true, decide_true, if_true, handIn, going, if_false]
  refine ⟨?_, fun _ => set_same _ _ _ _, ?_, ?_⟩
  · by_cases eq : endpoint v .source = endpoint v .primary
    · rw [eq]
      exact set_same _ _ _ _
    · rw [set_other (.inl eq), set_same]
  · intro b aside
    rw [set_other (.inl (aside.2 (by exact going))),
      set_other (.inl (by simpa [handIn, going] using aside.1))]
  · intro b k away
    rw [set_other (.inr away), set_other (.inr away)]

theorem mem_buckets_spread (spread : p.spread) {bucket : Leg} :
    bucket ∈ buckets p ↔ ∃ id : String, p.legs[id]? = some bucket := by
  rw [buckets, if_pos spread, List.mem_map]
  constructor
  · rintro ⟨⟨id, l⟩, mem, rfl⟩
    exact ⟨id, mem_toList_iff_getElem?_eq_some.mp mem⟩
  · rintro ⟨id, got⟩
    exact ⟨(id, bucket), mem_toList_iff_getElem?_eq_some.mpr got, rfl⟩

theorem leg_mem_buckets (spread : p.spread) {id : String} (mem : id ∈ p.legs) :
    legIn p.legs id ∈ buckets p := by
  obtain ⟨l, got⟩ := exists_leg mem
  rw [legIn_of_getElem? got]
  exact (mem_buckets_spread spread).mpr ⟨id, got⟩

theorem primary_mem_buckets (plain : p.spread = false) : endpoint p .primary ∈ buckets p := by
  unfold buckets
  rw [plain]
  by_cases active : p.state = .active <;> simp [active]

theorem source_mem_buckets (plain : p.spread = false) (away : p.state ≠ .active) :
    endpoint p .source ∈ buckets p := by
  simp [buckets, plain, away]

theorem homeLeg_mem_buckets (formed : Formed p) (key : Key) : homeLeg hash p key ∈ buckets p := by
  unfold homeLeg
  rcases formed with plain | spread
  · rw [plain.plain]
    exact primary_mem_buckets plain.plain
  · rw [if_pos spread.spread]
    exact leg_mem_buckets spread.spread (ownerID_mem spread.tables key)

theorem handOf_inside (form : SpreadForm p) (moves : p.move = some m)
    (isIn : inMove hash p key) (got : handOf hash p key = .ok a) :
    a.phase ≠ .rest ∧ a.home = ownerLeg hash p key ∧ a.target = legIn p.legs m.dest := by
  cases handOf_cases (.inr form) got with
  | plain plain => rw [plain.noMove] at moves; cases moves
  | owner _ _ outside => rw [outside] at isIn; cases isIn
  | move _ _ eq _ going =>
    cases eq.symm.trans moves
    exact ⟨going, rfl, rfl⟩

theorem handOf_home (formed : Formed p) (got : handOf hash p key = .ok a)
    (rests : a.phase = .rest) : a.home = homeLeg hash p key := by
  unfold homeLeg
  cases handOf_cases formed got with
  | @plain phase form =>
    have atRest : phase = .rest := rests
    simp [handIn, atRest, form.plain]
  | owner form => rw [if_pos form.spread]
  | move _ _ _ _ going => exact absurd rests going

theorem hand_buckets (formed : Formed p) (got : handOf hash p key = .ok a) :
    a.home ∈ buckets p ∧ (a.phase ≠ .rest → a.target ∈ buckets p) := by
  by_cases rests : a.phase = .rest
  · rw [handOf_home formed got rests]
    exact ⟨homeLeg_mem_buckets formed key, fun going => absurd rests going⟩
  cases handOf_going formed got rests with
  | whole form away =>
    exact ⟨source_mem_buckets form.plain away, fun _ => primary_mem_buckets form.plain⟩
  | part form moves =>
    exact ⟨leg_mem_buckets form.spread (ownerID_mem form.tables key),
      fun _ => leg_mem_buckets form.spread (form.moving _ moves).dest⟩

theorem hand_apart (formed : Formed p) (got : handOf hash p key = .ok a)
    (going : a.phase ≠ .rest) : a.home ≠ a.target := (handOf_going formed got going).apart

theorem phaseOf_ok {s : State} {ramp : Option Ramp} (has : KnownHash ramp) (key : Key) :
    ∃ phase, phaseOf hash s ramp key = .ok phase := by
  cases s with
  | active | migrating | cutover => exact ⟨_, rfl⟩
  | ramping =>
    cases ramp with
    | none => exact ⟨_, rfl⟩
    | some r => exact ⟨_, phaseOf_ramp (has r rfl) key⟩

theorem handOf_ok (sound : Sound p) (split : KnownSplit p) (key : Key) :
    ∃ a, handOf hash p key = .ok a := by
  have has := sound.clean.known
  rcases sound.formed with plain | spread
  · simp only [rampOf, plain.noMove] at has
    obtain ⟨phase, at_⟩ := @phaseOf_ok hash p.state _ has key
    exact ⟨_, by rw [handOf_plain plain.plain, at_]; rfl⟩
  have hashed := split spread.spread
  cases isIn : inMove hash p key with
  | false => exact ⟨_, handOf_owner spread.toSpreadCore spread.spread hashed isIn⟩
  | true =>
    cases moves : p.move with
    | none => simp [inMove, moves] at isIn
    | some m =>
      simp only [rampOf, moves] at has
      obtain ⟨phase, at_⟩ := @phaseOf_ok hash p.state _
        (limit_eq_relimit m.range m.ramp ▸ knownHash_relimit has) key
      exact ⟨_, by rw [handOf_move spread hashed moves isIn, at_]; rfl⟩

theorem going_mover (going : Going hash p key a) :
    moverKeeps hash p key ∧ a.home = endpoint (moverView p) .source ∧
      a.target = endpoint (moverView p) .primary := by
  cases going with
  | whole form => simp [moverKeeps, moverView, form.noMove]
  | @part m phase form moves isIn =>
    simp only [moverKeeps, moverView, moves, isIn, true_and, endpoint_moveView_primary,
      endpoint_moveView_source p m (form.moving m moves).different, and_true]
    rw [ownerLeg, ownerID_inMove form moves isIn]

theorem phaseOf_full {s : State} {ramp : Option Ramp} (has : KnownHash ramp)
    (isIn : ∀ r, ramp = some r → inScope hash r.range key)
    (runs : s = .migrating ∨ s = .ramping ∧ ∃ r, ramp = some r ∧ 1 ≤ r.ratio) :
    phaseOf hash s ramp key = .ok .moved := by
  rcases runs with rfl | ⟨rfl, r, rfl, full⟩
  · rfl
  · rw [phaseOf_ramp (has r rfl)]
    simp [inKeys_whole full (isIn r rfl)]

theorem moverRuns_full (runs : moverRuns p) : p.state = .migrating ∨
    p.state = .ramping ∧ ∃ r, (moverView p).ramp = some r ∧ 1 ≤ r.ratio := by
  have state : (moverView p).state = p.state := by
    unfold moverView
    cases p.move <;> rfl
  simp only [moverRuns, Bool.or_eq_true, decide_eq_true_eq, Bool.and_eq_true, state] at runs
  refine runs.imp_right fun ramping => ⟨ramping.1, ?_⟩
  cases stands : (moverView p).ramp with
  | none => simp [stands] at ramping
  | some r => exact ⟨r, rfl, by simpa [stands] using ramping.2⟩

theorem moverView_source_mem (formed : Formed p) (runs : moverRuns p) :
    endpoint (moverView p) .source ∈ buckets p := by
  have away : p.state ≠ .active := by
    rcases moverRuns_full runs with state | ⟨state, -⟩ <;> rw [state] <;> simp
  unfold moverView
  rcases formed with form | form
  · rw [form.noMove]
    exact source_mem_buckets form.plain away
  cases moves : p.move with
  | none => exact absurd (form.rest.mpr moves) away
  | some m =>
    have ends := form.moving m moves
    rw [endpoint_moveView_source p m ends.different]
    exact leg_mem_buckets form.spread ends.source

theorem mover_moved (sound : Sound p) (runs : moverRuns p)
    (keeps : moverKeeps hash p key) (got : handOf hash p key = .ok a) :
    a.phase = .moved ∧ Going hash p key a := by
  suffices moved : a.phase = .moved from
    ⟨moved, handOf_going sound.formed got (by rw [moved]; simp)⟩
  have full := moverRuns_full runs
  cases moves : p.move with
  | none =>
    have plain : p.spread = false := by
      rcases sound.formed with form | form
      · exact form.plain
      have active := form.rest.mpr moves
      rw [active] at full
      simp at full
    have has := sound.clean.known
    simp only [rampOf, moves] at has
    simp only [moverView, moves] at full
    rw [handOf_plain plain, phaseOf_full has ?_ full] at got
    · cases got
      rfl
    intro r stands
    rw [sound.clean.whole plain r stands]
    rfl
  | some m =>
    have form := sound.formed.spreadForm moves
    have isIn : inMove hash p key := by simpa [moverKeeps, moves] using keeps
    have split := known_of_hand form.spread got
    have has := sound.clean.known
    simp only [rampOf, moves] at has
    simp only [moverView, moves, Placement.moveView] at full
    rw [handOf_move form split moves isIn,
      phaseOf_full (limit_eq_relimit m.range m.ramp ▸ knownHash_relimit has) ?_ full] at got
    · cases got
      rfl
    intro r stands
    obtain ⟨old, -, rfl⟩ := map_eq_some_iff.mp stands
    exact inScope_of_inMove moves isIn

theorem decideRoute_list {v : Placement} (roled : Roled v) (key : Key) :
    decideRoute hash v .list key =
      .ok { cluster := .primary, merge := decide (v.state = .ramping ∨ v.state = .migrating) } := by
  unfold decideRoute
  cases state : v.state with
  | active => simp
  | cutover | ramping | migrating =>
    have named : v.source ≠ "" := fun empty => by simp [roled.mpr empty] at state
    simp [named]

theorem mergeListing_hand (form : PlainForm p) (got : handOf hash p key = .ok a)
    (holds : Cells (· ∈ buckets p) a (fun b => c b key) value) {pages : Contents V}
    (eq : ∀ b, pages b key = if hasPrefix key pre then c b key else none) :
    mergeListing hash p c pages pre key = .ok (if hasPrefix key pre then value else none) := by
  have kept := holds.kept
  rw [handOf_plain form.plain] at got
  unfold mergeListing
  simp only [decideRoute_list form.rest [], eq]
  refine congrArg Except.ok ?_
  by_cases under : hasPrefix key pre
  swap
  · simp [under]
  simp only [under, if_true]
  cases at_ : phaseOf hash p.state p.ramp key with
  | error => simp [at_, Except.map] at got
  | ok phase =>
    simp only [at_, Except.map] at got
    cases got
    cases state : p.state with
    | active =>
      rw [state] at at_
      cases at_
      simpa [Hand.keeps, handIn] using kept
    | cutover =>
      rw [state] at at_
      cases at_
      have last : c (endpoint p .primary) key = value := by
        simp only [Hand.keeps, handIn] at kept
        exact kept.1
      simpa using last
    | ramping | migrating =>
      have going : phase ≠ .rest := phaseOf_ne_rest (by rw [state]; simp) at_
      have merged := holds.merged (by exact going)
      simpa [handIn, going] using merged

theorem findSome_only {α : Type} {ids : List α} {id : α} {f : α → Option V}
    (mem : id ∈ ids) (others : ∀ other ∈ ids, other ≠ id → f other = none) :
    ids.findSome? f = f id := by
  induction ids with
  | nil => cases mem
  | cons head rest ih =>
    rw [findSome?_cons]
    by_cases eq : head = id
    · subst eq
      cases entry : f head with
      | some => rfl
      | none =>
        refine findSome?_eq_none_iff.mpr fun other later => ?_
        by_cases again : other = head
        · rw [again, entry]
        · exact others other (mem_cons_of_mem head later) again
    rw [others head mem_cons_self eq]
    have later : id ∈ rest := by
      rcases mem_cons.mp mem with first | later
      · exact absurd first.symm eq
      · exact later
    exact ih later fun other post => others other (mem_cons_of_mem head post)

theorem ownerID_listed (core : SpreadCore p) (under : hasPrefix key pre) :
    ownerID hash p key ∈ p.listingLegs pre := by
  obtain ⟨o, mem, -, owner⟩ := ownerIn_mem (scope_over core.tables key).1 (hash key)
  unfold ownerID
  rw [owner]
  exact owner_listed core.tables under mem

theorem ownKey_outside (core : SpreadCore p) (has : p.keyHash = rampHash)
    (outside : inMove hash p key = false) (id : String) :
    ownKey hash p id key = decide (ownerID hash p key = id) := by
  unfold ownKey
  rw [ownerOf_known core has]
  cases p.move <;> simp [outside]

theorem ownKey_inside (form : SpreadForm p) (has : p.keyHash = rampHash)
    (moves : p.move = some m) (isIn : inMove hash p key) (id : String) :
    ownKey hash p id key = (decide (id = m.source) || decide (id = m.dest)) := by
  unfold ownKey
  rw [ownerOf_known form.toSpreadCore has, moves]
  simp only [isIn, Bool.and_true, ownerID_inMove form moves isIn]
  by_cases source : id = m.source
  · simp [source]
  · simp [source, Ne.symm source]

theorem spreadListing_outside (form : SpreadForm p) (has : p.keyHash = rampHash)
    (outside : inMove hash p key = false) (under : hasPrefix key pre) :
    spreadListing hash p c pre key = c (ownerLeg hash p key) key := by
  have entry : ∀ id, legEntry hash p c id key =
      if ownerID hash p key = id then c (legIn p.legs id) key else none := by
    intro id
    simp [legEntry, ownKey_outside form.toSpreadCore has outside]
  have first : ((p.listingLegs pre).findSome? fun id => legEntry hash p c id key) =
      c (ownerLeg hash p key) key := by
    rw [findSome_only (ownerID_listed form.toSpreadCore under)
      (fun other _ ne => by rw [entry, if_neg (Ne.symm ne)]), entry, if_pos rfl]
    rfl
  unfold spreadListing
  simp only [first]
  cases moves : p.move with
  | none => rfl
  | some m =>
    simp only [entry]
    by_cases owns : ownerID hash p key = m.dest
    · simp [← owns, ownerLeg]
    · simp [owns]

theorem spreadListing_inside (form : SpreadForm p) (has : p.keyHash = rampHash)
    (moves : p.move = some m) (isIn : inMove hash p key) : spreadListing hash p c pre key =
      (c (legIn p.legs m.dest) key).or (c (ownerLeg hash p key) key) := by
  have entry : ∀ id, legEntry hash p c id key =
      if id = m.source ∨ id = m.dest then c (legIn p.legs id) key else none := by
    intro id
    simp [legEntry, ownKey_inside form has moves isIn]
  have dest : m.dest ∈ p.listingLegs pre := mem_listingLegs.mpr (.inr (.inr ⟨m, moves, .inr rfl⟩))
  have source : m.source ∈ p.listingLegs pre :=
    mem_listingLegs.mpr (.inr (.inr ⟨m, moves, .inl rfl⟩))
  unfold spreadListing
  simp only [moves, dest, if_true]
  rw [entry m.dest, if_pos (.inr rfl), ownerLeg, ownerID_inMove form moves isIn]
  cases copy : c (legIn p.legs m.dest) key with
  | some => rfl
  | none =>
    rw [none_or, none_or, findSome_only source, entry, if_pos (.inl rfl)]
    intro other _ ne
    rw [entry]
    by_cases there : other = m.dest
    · simp [there, copy]
    · simp [there, ne]

theorem spreadListing_hand (form : SpreadForm p) (got : handOf hash p key = .ok a)
    (holds : Cells (· ∈ buckets p) a (fun b => c b key) value) (under : hasPrefix key pre) :
    spreadListing hash p c pre key = value := by
  cases handOf_cases (.inr form) got with
  | plain other => exact absurd (other.plain.symm.trans form.spread) Bool.false_ne_true
  | owner _ has outside =>
    rw [spreadListing_outside form has outside under]
    exact holds.kept
  | move _ has moves isIn going =>
    rw [spreadListing_inside form has moves isIn]
    exact holds.merged going

theorem spreadListing_none (entry : ∀ id, legEntry hash p c id key = none) :
    spreadListing hash p c pre key = none := by
  unfold spreadListing
  cases moves : p.move <;> simp [entry]

/-- The keys that may be stored include those of the contents, and what a backend writes
for one in a listing decodes to it. -/
def Readable (c : Contents V) (texts : Leg → Key → Key) (keys : List Key) : Prop :=
  ∀ b k, c b k ≠ none → k ∈ keys ∧ decodeListingKey (texts b k) = k

variable {texts : Leg → Key → Key} {keys : List Key}

theorem pagesOf_readable (readable : Readable c texts keys) (b : Leg) :
    pagesOf c texts keys pre b key = if hasPrefix key pre then c b key else none := by
  have others : ∀ k ∈ keys, k ≠ key →
      (if hasPrefix k pre ∧ decodeListingKey (texts b k) = key then c b k else none) = none := by
    intro k _ ne
    split
    · rename_i named
      by_contra stored
      exact ne ((readable b k stored).2.symm.trans named.2)
    · rfl
  by_cases stored : c b key = none
  · rw [stored, ite_self, pagesOf, findSome?_eq_none_iff]
    intro k mem
    by_cases eq : k = key
    · rw [eq, stored, ite_self]
    · exact others k mem eq
  · obtain ⟨mem, read⟩ := readable b key stored
    rw [pagesOf, findSome_only mem others]
    simp only [read, and_true]

theorem list_hand (formed : Formed p) (readable : Readable c texts keys)
    (got : handOf hash p key = .ok a) (holds : Cells (· ∈ buckets p) a (fun b => c b key) value) :
    list hash p c texts keys pre key = .ok (if hasPrefix key pre then value else none) := by
  have eq : ∀ b, pagesOf c texts keys pre b key = if hasPrefix key pre then c b key else none :=
    pagesOf_readable readable
  unfold list
  rcases formed with form | form
  · simp only [form.plain]
    exact mergeListing_hand form got holds eq
  · simp only [if_pos form.spread]
    refine congrArg Except.ok ?_
    by_cases under : hasPrefix key pre
    · simp only [if_pos under] at eq ⊢
      exact spreadListing_hand form got (by simpa only [eq] using holds) under
    · rw [if_neg under]
      refine spreadListing_none fun id => ?_
      simp [legEntry, eq, under]

def photosSpread : Placement :=
  { state := .active, keyHash := rampHash
    legs := ((∅ : StrMap Leg).insert "a" ⟨"east", "acme-photos"⟩).insert "z"
      ⟨"west", "acme-photos"⟩
    owners := [⟨0, 0x7fffffffffffffff, "a"⟩, ⟨0x8000000000000000, 0xffffffffffffffff, "z"⟩] }

theorem photosSpread_valid : photosSpread.Valid := valid_of_directory rfl (by decide)

end Shunt.Proxy
