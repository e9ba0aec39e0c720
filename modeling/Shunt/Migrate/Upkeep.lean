/-
What the upkeep of a directory leaves alone.  While a placement is at rest no change of its
directory but a state step or a deletion gives a key another home.
-/

import Shunt.Directory.RoundTrip
import Shunt.Migrate.KeyStep
import Shunt.Migrate.Reaches

namespace Shunt.Migrate

open Directory List Relation

variable {hash : Key → Hash} {p q : Placement} {key : Key} {m : Mutation}

theorem parentTable_eq (p : Placement) (pre : Key) : p.parentTable pre =
    ({ p with prefixes := p.prefixes.filter fun r => r.pre ≠ pre }.scope pre).2 := by
  have eq : longerParent pre = fun best rule =>
      if decide (rule.pre ≠ pre) then longerRule pre best rule else best := by
    funext best rule
    simp [longerParent]
  simp only [Placement.parentTable, Placement.scope, Placement.ruleOf, foldl_filter, ← eq]
  cases p.prefixes.foldl (longerParent pre) none <;> rfl

theorem eraseP_rule {rules : List PrefixRule} {pre : Key}
    (uniq : rules.Pairwise fun left right => left.pre ≠ right.pre) :
    rules.eraseP (fun r => r.pre == pre) = rules.filter fun r => r.pre ≠ pre := by
  induction uniq with
  | nil => rfl
  | @cons rule rest apart _ ih =>
    by_cases eq : rule.pre = pre
    · rw [eraseP_cons_of_pos (by simpa using eq), filter_cons_of_neg (by simpa using eq),
        filter_eq_self.mpr fun r mem => by simpa [← eq] using (apart r mem).symm]
    · rw [eraseP_cons_of_neg (by simpa using eq), filter_cons_of_pos (by simpa using eq), ih]

theorem homeLeg_carved {pre : Key} (formed : Formed p) (post : Formed (p.carved pre))
    (fresh : ∀ rule ∈ p.prefixes, rule.pre ≠ pre) :
    homeLeg hash (p.carved pre) key = homeLeg hash p key := by
  obtain ⟨legs, owners, rules⟩ : (p.carved pre).legs = p.spreadBase.legs ∧
      (p.carved pre).owners = p.spreadBase.owners ∧ (p.carved pre).prefixes =
        insertRule ⟨pre, p.spreadBase.parentTable pre⟩ p.spreadBase.prefixes := by
    unfold Placement.carved Placement.spreadBase
    split <;> exact ⟨rfl, rfl, rfl⟩
  have kept : p.spreadBase.prefixes = p.prefixes := by
    unfold Placement.spreadBase
    split <;> rfl
  have table : p.spreadBase.parentTable pre = (p.spreadBase.scope pre).2 := by
    rw [parentTable_eq, filter_eq_self.mpr]
    intro rule mem
    simpa using fresh rule (kept ▸ mem)
  have spread := (carved_ruled p pre).2
  rw [← ownerLeg_spreadBase formed, homeLeg, if_pos spread]
  refine ownerLeg_congr (scope_ruled pre (spreadBase_tables formed)
    (post.spreading spread).tables owners fun rule => ?_) (by rw [legs])
  rw [rules, mem_insertRule, table]

theorem merged_owner {rule : PrefixRule} (core : SpreadCore p) (mem : rule ∈ p.prefixes)
    (eq : rule.owners = p.parentTable rule.pre) :
    SpreadCore { p with prefixes := p.prefixes.eraseP fun r => r.pre == rule.pre } ∧
      ownerLeg hash { p with prefixes := p.prefixes.eraseP fun r => r.pre == rule.pre } key =
        ownerLeg hash p key := by
  have tables := core.tables
  rw [eraseP_rule tables.distinct]
  have left : Tables { p with prefixes := p.prefixes.filter fun r => r.pre ≠ rule.pre } :=
    ⟨tables.own, fun r isIn => tables.named r (mem_filter.mp isIn).1,
      fun r isIn => tables.rules r (mem_filter.mp isIn).1, tables.distinct.filter _⟩
  refine ⟨{ core with tables := left },
    ownerLeg_congr (scope_ruled rule.pre left tables rfl fun r => ?_).symm rfl⟩
  rw [← parentTable_eq, ← eq]
  simp only [mem_filter, decide_eq_true_eq]
  constructor
  · intro isIn
    by_cases its : r.pre = rule.pre
    · have table := scopeTable_of_mem tables isIn
      rw [its, scopeTable_of_mem tables mem] at table
      left
      rw [← its, Option.some.inj table]
    · exact .inr ⟨isIn, its⟩
  · rintro (rfl | ⟨isIn, -⟩)
    · exact mem
    · exact isIn

theorem retired_owner (core : SpreadCore p) {ids : List String}
    (idle : ∀ id ∈ ids, p.ownsKeys id = false) :
    SpreadCore { p with legs := ids.foldl (fun legs id => legs.erase id) p.legs } ∧
      ownerLeg hash { p with legs := ids.foldl (fun legs id => legs.erase id) p.legs } key =
        ownerLeg hash p key := by
  induction ids generalizing p with
  | nil => exact ⟨core, rfl⟩
  | cons id rest ih =>
    have erased := core.eraseLeg (idle id mem_cons_self)
    obtain ⟨kept, eq⟩ := ih erased fun other isIn => idle other (mem_cons_of_mem _ isIn)
    refine ⟨kept, eq.trans (ownerLeg_congr rfl ?_)⟩
    have owns := @ownerID_mem hash _ erased.tables key
    rw [Std.ExtTreeMap.getElem?_erase]
    exact if_neg (Std.ExtTreeMap.mem_erase.mp owns).1

/-- A placement at rest whose keys have the homes they had. -/
structure AtHome (hash : Key → Hash) (p q : Placement) : Prop where
  active : q.state = .active
  split : KnownSplit q
  home : ∀ key, homeLeg hash q key = homeLeg hash p key

theorem settled_home (form : SpreadForm p) (has : q.keyHash = rampHash)
    (active : q.state = .active) (rests : q.move = none)
    (owner : ∀ key, SpreadCore q ∧ ownerLeg hash q key = ownerLeg hash p key) :
    AtHome hash p q.settle := by
  have core := (owner []).1
  refine ⟨(settle_state core rests).trans active, settle_keyHash core rests has, fun key => ?_⟩
  rw [homeLeg_settle core rests, (owner key).2, homeLeg, if_pos form.spread]

theorem plain_home (form : PlainForm p) (post : Formed q) (active : q.state = .active)
    (eq : q.spread = false ∧ q.primary = p.primary ∧ q.names[p.primary]? = p.names[p.primary]?) :
    AtHome hash p q := by
  obtain ⟨plain, primary, name⟩ := eq
  refine ⟨active, fun spread => absurd spread (ne_true_of_eq_false plain), fun key => ?_⟩
  rw [homeLeg, if_neg (ne_true_of_eq_false plain), homeLeg, if_neg (ne_true_of_eq_false form.plain),
    endpoint_plain (post.plainForm plain).roles, endpoint_plain form.roles]
  simp only [primary, nameIn, name]

theorem changed_home (change : Changed m p q) (kept : ∀ tenant bucket expected t,
    m ≠ .setState tenant bucket expected t) (formed : Formed p) (post : Formed q)
    (active : p.state = .active) (split : KnownSplit p) : AtHome hash p q := by
  cases change with
  | stepped is_ => exact absurd is_ (kept _ _ _ _)
  | switched | watched => exact ⟨active, split, fun _ => rfl⟩
  | carved rests fresh =>
    refine ⟨?_, fun _ => rfl, fun key => homeLeg_carved formed post fresh⟩
    unfold Placement.carved
    split_ifs <;> exact active
  | merged rests mem eq =>
    have spread : p.spread := by simp [Placement.spread, ne_nil_of_mem mem]
    have form := formed.spreading spread
    exact settled_home form (split spread) active rests.2 fun _ =>
      merged_owner form.toSpreadCore mem eq
  | retired _ spread =>
    have form := formed.spreading spread
    refine settled_home form (split spread) active (form.rest.mp active) fun _ =>
      retired_owner form.toSpreadCore fun id idle => ?_
    simpa using (Bool.and_eq_true_iff.mp (mem_filter.mp idle).2).2
  | targeted _ plain =>
    have away := (post.plainForm plain).away
    refine plain_home (formed.plainForm plain) post active ⟨plain, rfl, ?_⟩
    exact (Std.ExtTreeMap.getElem?_insert ..).trans
      (if_neg fun eq => away (Std.compare_eq_iff_eq.mp eq))
  | untargeted _ plain =>
    have away := (formed.plainForm plain).away
    refine plain_home (formed.plainForm plain) post active ⟨plain, rfl, ?_⟩
    dsimp only
    split_ifs
    · rw [Std.ExtTreeMap.getElem?_erase, if_neg fun eq => away (Std.compare_eq_iff_eq.mp eq)]
    · rfl

section

variable {f g : File} {k : String}

theorem reached_sound (reached : Reached f) (got : f.placements[k]? = some p) :
    p.Sound f.clusters :=
  (((validate_iff fun k p got => (reached.stored k p got).roles).mp
    reached.accepted).2.1 k p got).2

/-- A change of a directory between the steps of its moves. -/
inductive Upkeep (f g : File) : Prop where
  | step {m : Mutation} {now : Int} (res : m.run now f = .ok g) (ok : g.validate = [])
      (kept : ∀ tenant bucket, m ≠ .delete tenant bucket ∧ ∀ expected t,
        m ≠ .setState tenant bucket expected t)

theorem Upkeep.home (step : Upkeep f g) (reached : Reached f)
    (got : f.placements[k]? = some p) (active : p.state = .active) (split : KnownSplit p) :
    Reached g ∧ ∃ q, g.placements[k]? = some q ∧ AtHome hash p q := by
  obtain ⟨res, ok, kept⟩ := step
  have post := reached.step res ok
  refine ⟨post, ?_⟩
  have eq : AtHome hash p p := ⟨active, split, fun _ => rfl⟩
  have beside : ∀ {k' : String} {q : Placement}, k' ≠ k →
      (f.placements.insert k' q)[k]? = some p := by
    intro k' q other
    rw [Std.ExtTreeMap.getElem?_insert, if_neg fun equal => other (Std.compare_eq_iff_eq.mp equal)]
    exact got
  cases Mutation.mutated res with
  | opened gone placements | spread gone _ placements =>
    refine ⟨p, ?_, eq⟩
    rw [placements]
    refine beside ?_
    rintro rfl
    exact gone (Std.ExtTreeMap.mem_iff_isSome_getElem?.mpr (by rw [got]; rfl))
  | @changed k' p' q located change =>
    by_cases here : k' = k
    · subst here
      rw [got] at located
      cases located
      have at_ : (f.putPlacement k' q).placements[k']? = some q :=
        Std.ExtTreeMap.getElem?_insert_self
      exact ⟨q, at_, changed_home change (fun tenant bucket => (kept tenant bucket).2)
        (reached_sound reached got).formed (reached_sound post at_).formed active split⟩
    · exact ⟨p, beside here, eq⟩
  | deleted is_ => exact absurd is_ (kept _ _).1
  | beside placements =>
    rw [placements]
    exact ⟨p, got, eq⟩

/-- A request is sent to buckets that may be held, and that no request of another placement is
sent to. -/
theorem requests_apart {cls : OpClass} {d : Dispatch} (reached : Reached f)
    (got : f.placements[k]? = some p) (sent : dispatch hash p cls key = .ok d) :
    ∀ b ∈ d.buckets, Holdable f.clusters (b.cluster, b.bucket) ∧
      ∀ (k' : String) (p' : Placement) (cls' : OpClass) (key' : Key) (d' : Dispatch),
        f.placements[k']? = some p' → k' ≠ k → dispatch hash p' cls' key' = .ok d' →
          b ∉ d'.buckets := by
  intro b mem
  obtain ⟨-, -, apart⟩ := (validate_iff fun k p got => (reached.stored k p got).roles).mp
    reached.accepted
  have sound := reached_sound reached got
  have holds := dispatch_held sound sent b mem
  refine ⟨holds.holdable sound, ?_⟩
  intro k' p' cls' key' d' got' other sent' mem'
  exact apart k k' p p' got got' other.symm _ holds
    (dispatch_held (reached_sound reached got') sent' b mem')

def video : Placement := newPlacement "east" "acme-video" 0

def videoFile : File := photosFile.putPlacement "acme/video" video

theorem videoFile_reached : Reached videoFile := by
  have created : (Mutation.create "acme" "video" "east" "acme-video").run 0 photosFile =
      .ok videoFile := by decide
  exact photosFile_reached.step created (by decide)

theorem photos_video_apart : ∃ d d', dispatch (fun _ => 0) Directory.photos .write [97] = .ok d ∧
    dispatch (fun _ => 0) video .write [97] = .ok d' ∧ d.buckets ≠ [] ∧ d'.buckets ≠ [] ∧
    ∀ b ∈ d.buckets, Holdable videoFile.clusters (b.cluster, b.bucket) ∧ b ∉ d'.buckets := by
  have got : videoFile.placements["acme/photos"]? = some Directory.photos := by decide
  have other : videoFile.placements["acme/video"]? = some video := by decide
  have sent : dispatch (fun _ => 0) Directory.photos .write [97] = .ok _ := rfl
  have sent' : dispatch (fun _ => 0) video .write [97] = .ok _ := rfl
  refine ⟨_, _, sent, sent', by decide, by decide, fun b mem => ?_⟩
  obtain ⟨holds, apart⟩ := requests_apart videoFile_reached got sent b mem
  exact ⟨holds, apart _ _ _ _ _ other (by decide) sent'⟩

end

end Shunt.Migrate
