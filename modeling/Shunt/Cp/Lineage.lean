/-
The generations of the directory over a history of writes.  Each write runs on the copy
of one control node, which follows what every node writes; etcd then holds the state the
next write is compared with.
-/

import Shunt.Cp.Agree
import Shunt.Directory.Generations

namespace Shunt.Cp

open Directory Library List Option Std.ExtTreeMap Relation

def State.Has (st : State) : Resource → Prop
  | .placement key => key ∈ st.file.placements
  | .cluster name => name ∈ st.file.clusters
  | .tenant name => name ∈ st.file.tenants

def Unchanged (cur next : State) : Resource → Prop
  | .placement key => cur.file.placements[key]? = next.file.placements[key]?
  | .cluster name => cur.file.clusters[name]? = next.file.clusters[name]? ∧
      secretIn cur.secrets name = secretIn next.secrets name
  | .tenant name => cur.file.tenants[name]? = next.file.tenants[name]?

instance (cur next : State) (r : Resource) : Decidable (Unchanged cur next r) := by
  cases r with
  | placement key | tenant name => exact inferInstanceAs (Decidable (_ = _))
  | cluster => exact inferInstanceAs (Decidable (_ ∧ _))

def State.generation (st : State) (r : Resource) : Int := st.file.generation r.key

def State.secretGeneration (st : State) (name : String) : Int :=
  st.file.generation (secretResource name)

structure Stamped (cur next : State) : Prop where
  version : next.version = cur.version + 1
  kept : ∀ r, next.Has r → Unchanged cur next r → next.generation r = cur.generation r
  fresh : ∀ r, next.Has r → ¬ Unchanged cur next r → next.generation r = next.version
  gone : ∀ r, ¬ next.Has r → next.generation r = 0
  secretKept : ∀ name ∈ next.secrets, secretIn next.secrets name = secretIn cur.secrets name →
    next.secretGeneration name = cur.secretGeneration name
  secretFresh : ∀ name ∈ next.secrets, secretIn next.secrets name ≠ secretIn cur.secrets name →
    next.secretGeneration name = next.version
  secretGone : ∀ name, name ∉ next.secrets → next.secretGeneration name = 0
  identity : cur.file.identity.isZero = false → next.file.identity = cur.file.identity

section

variable {cipher : Cipher} {env : Env} {cur next copy : State} {name : String} {gens : StrMap Int}

theorem mem_rotated {res : String} : res ∈ rotated cur next ↔
      ∃ name ∈ next.file.clusters, secretIn next.secrets name ≠ secretIn cur.secrets name ∧
        (res = clusterResource name ∨ res = secretResource name) := by
  unfold rotated
  rw [mem_flatMap]
  refine exists_congr fun name => ?_
  rw [Std.ExtTreeMap.mem_keys]
  refine and_congr_right fun _ => ?_
  split
  · rename_i differs
    simp [differs]
  · rename_i eq
    simp [not_not.mp eq]

theorem mem_rotated_cluster : clusterResource name ∈ rotated cur next ↔
      name ∈ next.file.clusters ∧ secretIn next.secrets name ≠ secretIn cur.secrets name := by
  rw [mem_rotated]
  constructor
  · rintro ⟨other, mem, differs, eq | eq⟩
    · rw [clusterResource_injective _ _ eq]
      exact ⟨mem, differs⟩
    · exact absurd eq cluster_ne_secret
  · rintro ⟨mem, differs⟩
    exact ⟨name, mem, differs, .inl rfl⟩

theorem mem_rotated_secret : secretResource name ∈ rotated cur next ↔
      name ∈ next.file.clusters ∧ secretIn next.secrets name ≠ secretIn cur.secrets name := by
  rw [mem_rotated]
  constructor
  · rintro ⟨other, mem, differs, eq | eq⟩
    · exact absurd eq.symm cluster_ne_secret
    · rw [append_injective eq]
      exact ⟨mem, differs⟩
  · rintro ⟨mem, differs⟩
    exact ⟨name, mem, differs, .inr rfl⟩

theorem not_mem_rotated {res : String} (clusters : ∀ name, res ≠ clusterResource name)
    (secrets : ∀ name, res ≠ secretResource name) : res ∉ rotated cur next := by
  rw [mem_rotated]
  rintro ⟨name, -, -, eq | eq⟩
  · exact clusters name eq
  · exact secrets name eq

theorem dropSecret_other {res : String} (other : res ≠ secretResource name) :
    (if name ∈ next.secrets then gens else gens.erase (secretResource name))[res]? =
    gens[res]? := by
  split
  · rfl
  · rw [getElem?_erase, if_neg fun equal => other (Std.compare_eq_iff_eq.mp equal).symm]

theorem heldGenerations_other {res : String} (secrets : ∀ name, res ≠ secretResource name) :
    (next.heldGenerations gens)[res]? = gens[res]? :=
  foldl_elsewhere secretResource (fun _ _ _ other => dropSecret_other other)
    fun name _ => secrets name

theorem heldGenerations_secret : (next.heldGenerations gens)[secretResource name]? =
      if name ∈ next.file.clusters ∧ name ∉ next.secrets then none
      else gens[secretResource name]? := by
  unfold State.heldGenerations
  by_cases isIn : name ∈ next.file.clusters
  · have apart : next.file.clusters.keys.Pairwise
        fun a b => secretResource a ≠ secretResource b := by
      refine distinct_keys.imp ?_
      intro a b ne equal
      exact ne (Std.compare_eq_iff_eq.mpr (append_injective equal))
    rw [foldl_at secretResource (fun _ _ _ other => dropSecret_other other) ?_ apart
      (Std.ExtTreeMap.mem_keys.mpr isIn)]
    · by_cases held : name ∈ next.secrets
      · simp [held]
      · rw [if_neg held, if_pos ⟨isIn, held⟩]
        exact getElem?_erase_self
    intro m m' a equal
    split
    · exact equal
    · rw [getElem?_erase_self, getElem?_erase_self]
  · rw [if_neg fun both => isIn both.1]
    refine foldl_elsewhere secretResource (fun _ _ _ other => dropSecret_other other) ?_
    intro other mem equal
    rw [append_injective equal] at isIn
    exact isIn (Std.ExtTreeMap.mem_keys.mp mem)

theorem candidate_generations (made : candidate env cur copy = .ok next) :
    next.file.generations = next.heldGenerations
        (stampedGenerations cur.file next.file (rotated cur next)) ∧
      (cur.file.identity.isZero = false → next.file.identity = cur.file.identity) := by
  simp only [candidate, File.stamp] at made
  split at made
  · cases made
  rename_i f stamped
  split at stamped
  · cases stamped
  rename_i identity drawn
  cases stamped
  split at made
  · cases made
  split at made
  · cases made
  cases made
  refine ⟨rfl, ?_⟩
  intro known
  rw [known] at drawn
  exact (Except.ok.inj drawn).symm

theorem generation_eq (f : File) (res : String) : f.generation res = (f.generations[res]?).getD 0 :=
  getD_eq_getD_getElem?

theorem stampedAs_cases {V : Type} [DecidableEq V] {prev post : StrMap V} {carried : Option Int}
    {version g h : Int} (value : g = (stampedAs prev post name carried version).getD 0)
    (back : carried.getD 0 = h) : (name ∈ post → prev[name]? = post[name]? → g = h) ∧
    (name ∈ post → prev[name]? ≠ post[name]? → g = version) ∧ (name ∉ post → g = 0) := by
  unfold stampedAs at value
  have there : name ∈ post → ∃ v, post[name]? = some v := by
    intro isIn
    rw [← isSome_getElem?_iff_mem] at isIn
    exact isSome_iff_exists.mp isIn
  refine ⟨?_, ?_, ?_⟩
  · intro isIn eq
    obtain ⟨v, got⟩ := there isIn
    rw [got] at value eq
    dsimp only at value
    rw [if_pos eq, back] at value
    exact value
  · intro isIn differs
    obtain ⟨v, got⟩ := there isIn
    rw [got] at value differs
    dsimp only at value
    rw [if_neg differs] at value
    exact value
  intro absent
  rw [Std.ExtTreeMap.getElem?_eq_none absent] at value
  exact value

theorem candidate_generation {r : Resource} (made : candidate env cur copy = .ok next)
    (nonneg : 0 ≤ cur.generation r) :
    (next.Has r → Unchanged cur next r → next.generation r = cur.generation r) ∧
    (next.Has r → ¬ Unchanged cur next r → next.generation r = next.version) ∧
    (¬ next.Has r → next.generation r = 0) := by
  obtain ⟨gens, -⟩ := candidate_generations made
  have is_ := candidate_ok made
  have back : (cur.file.carried r.key).getD 0 = cur.generation r := getD_carried nonneg
  have at_ : next.generation r = ((next.heldGenerations
      (stampedGenerations cur.file next.file (rotated cur next)))[r.key]?).getD 0 := by
    rw [← gens]
    exact generation_eq _ _
  cases r with
  | placement key =>
    refine stampedAs_cases ?_ back
    change _ = ((next.heldGenerations _)[placementResource key]?).getD 0 at at_
    rw [heldGenerations_other fun _ => placement_ne_secret,
      stamped_placement (not_mem_rotated (fun _ => placement_ne_cluster) fun _ =>
        placement_ne_secret), is_.fileVersion] at at_
    exact at_
  | cluster name =>
    change _ = ((next.heldGenerations _)[clusterResource name]?).getD 0 at at_
    rw [heldGenerations_other fun _ => cluster_ne_secret, stamped_cluster, is_.fileVersion] at at_
    by_cases rotates : clusterResource name ∈ rotated cur next
    · rw [if_pos rotates] at at_
      obtain ⟨isIn, differs⟩ := mem_rotated_cluster.mp rotates
      exact ⟨fun _ eq => absurd eq.2.symm differs, fun _ _ => at_, fun absent => absurd isIn absent⟩
    rw [if_neg rotates] at at_
    obtain ⟨kept, fresh, gone⟩ := stampedAs_cases at_ back
    refine ⟨fun isIn eq => kept isIn eq.1, ?_, gone⟩
    intro isIn diff
    refine fresh isIn fun eq => diff ⟨eq, ?_⟩
    by_contra differs
    exact rotates (mem_rotated_cluster.mpr ⟨isIn, fun equal => differs equal.symm⟩)
  | tenant name =>
    refine stampedAs_cases ?_ back
    change _ = ((next.heldGenerations _)[tenantResource name]?).getD 0 at at_
    rw [heldGenerations_other fun _ => tenant_ne_secret,
      stamped_tenant (not_mem_rotated (fun _ => cluster_ne_tenant.symm) fun _ => tenant_ne_secret),
      is_.fileVersion] at at_
    exact at_

theorem candidate_secret (made : candidate env cur copy = .ok next)
    (held : ∀ other ∈ next.secrets, other ∈ next.file.clusters)
    (nonneg : 0 ≤ cur.secretGeneration name) : next.secretGeneration name =
      if name ∈ next.secrets then
        if secretIn next.secrets name = secretIn cur.secrets name then cur.secretGeneration name
        else next.version else 0 := by
  obtain ⟨gens, -⟩ := candidate_generations made
  have is_ := candidate_ok made
  unfold State.secretGeneration at nonneg ⊢
  rw [generation_eq, gens, heldGenerations_secret, stamped_secret, is_.fileVersion]
  by_cases stored : name ∈ next.secrets
  · rw [if_neg fun both => both.2 stored, if_pos stored, if_pos (held name stored)]
    by_cases eq : secretIn next.secrets name = secretIn cur.secrets name
    · rw [if_neg fun mem => (mem_rotated_secret.mp mem).2 eq, if_pos eq]
      exact getD_carried nonneg
    · rw [if_pos (mem_rotated_secret.mpr ⟨held name stored, eq⟩), if_neg eq]
      rfl
  rw [if_neg stored]
  by_cases isIn : name ∈ next.file.clusters
  · rw [if_pos ⟨isIn, stored⟩]
    rfl
  rw [if_neg fun both => isIn both.1, if_neg fun mem =>
    isIn (mem_rotated_secret.mp mem).1, if_neg isIn]
  rfl

/-- The generations a directory can have: none beyond its version, and one for each secret it
holds. -/
structure State.Dated (st : State) : Prop where
  version : 0 ≤ st.version
  resource : ∀ r, 0 ≤ st.generation r ∧ st.generation r ≤ st.version
  secret : ∀ name, 0 ≤ st.secretGeneration name ∧ st.secretGeneration name ≤ st.version
  held : ∀ name, name ∈ st.secrets ↔ 0 < st.secretGeneration name

theorem attempt_stamped {call again : Call} {ops : List Event} (sound : cur.Sound)
    (dated : cur.Dated) (made : attempt cipher env cur call = .ok (.commit next ops again)) :
    Stamped cur next ∧ next.Dated := by
  have post := attempt_sound sound made
  obtain ⟨copy, -, candidate, -⟩ := attempt_commit made
  have version := (candidate_ok candidate).version
  have lt : ∀ name ∈ next.secrets, name ∈ next.file.clusters := by
    intro name mem
    rw [← isSome_getElem?_iff_mem, isSome_iff_exists] at mem
    obtain ⟨secret, got⟩ := mem
    exact (post.held name secret got).1
  have generation := fun r => candidate_generation candidate (dated.resource r).1
  have secret := fun name => @candidate_secret env cur next copy name candidate lt
    (dated.secret name).1
  have past := dated.version
  refine ⟨⟨version, fun r => (generation r).1, fun r => (generation r).2.1,
    fun r => (generation r).2.2, ?_, ?_, ?_, (candidate_generations candidate).2⟩, ?_, ?_, ?_, ?_⟩
  · intro name stored eq
    rw [secret name, if_pos stored, if_pos eq]
  · intro name stored differs
    rw [secret name, if_pos stored, if_neg differs]
  · intro name absent
    rw [secret name, if_neg absent]
  · omega
  · intro r
    have bounds := dated.resource r
    obtain ⟨kept, fresh, gone⟩ := generation r
    by_cases has : next.Has r
    · by_cases eq : Unchanged cur next r
      · have equal := kept has eq
        omega
      · have equal := fresh has eq
        omega
    · have equal := gone has
      omega
  · intro name
    have bounds := dated.secret name
    rw [secret name]
    split
    · split
      · omega
      · omega
    · omega
  intro name
  rw [secret name]
  split
  · next stored =>
      refine ⟨fun _ => ?_, fun _ => stored⟩
      split
      · next eq =>
          -- an unchanged secret was held before, since the store holds no empty one
          rw [← dated.held]
          rw [← isSome_getElem?_iff_mem, isSome_iff_exists] at stored
          obtain ⟨plain, got⟩ := stored
          have given := (post.held name plain got).2
          unfold secretIn at eq
          rw [getD_eq_getD_getElem?, getD_eq_getD_getElem?, got, getD_some] at eq
          by_contra absent
          rw [Std.ExtTreeMap.getElem?_eq_none absent] at eq
          exact given eq
      · omega
  · next absent => exact ⟨fun stored => absurd stored absent, fun pos => by omega⟩

end

def lastChange : List State → Resource → Int
  | [], _ => 0
  | [st], r => st.generation r
  | next :: cur :: older, r =>
    if Unchanged cur next r then lastChange (cur :: older) r else next.version

structure Identified (next cur : State) (older : List State) : Prop where
  last : ∀ r, next.Has r → next.generation r = lastChange (next :: cur :: older) r
  fresh : ∀ r, next.Has r → ¬ Unchanged cur next r → ∀ st ∈ cur :: older,
    st.generation r < next.generation r
  kept : ∀ r, next.Has r → Unchanged cur next r → next.generation r = cur.generation r
  secret : ∀ name, next.secretGeneration name ≠ cur.secretGeneration name ↔
    next.secrets[name]? ≠ cur.secrets[name]?
  identity : ∀ st ∈ cur :: older, st.file.identity.isZero = false →
    next.file.identity = st.file.identity

inductive Line : List State → Prop where
  | start : Line [{}]
  | write {next cur : State} {older : List State} (stamped : Stamped cur next)
      (sound : next.Sound) (dated : next.Dated) (line : Line (cur :: older)) :
      Line (next :: cur :: older)

section

variable {next cur st : State} {older rest : List State} {r : Resource} {name : String}

theorem empty_dated : State.Dated {} := by
  have none_ : ∀ res, ({} : State).file.generation res = 0 := fun res => getD_empty
  refine ⟨Int.le_refl 0, ?_, ?_, ?_⟩
  · intro r
    unfold State.generation
    rw [none_]
    exact ⟨Int.le_refl 0, Int.le_refl 0⟩
  · intro name
    unfold State.secretGeneration
    rw [none_]
    exact ⟨Int.le_refl 0, Int.le_refl 0⟩
  intro name
  unfold State.secretGeneration
  rw [none_]
  exact ⟨fun mem => absurd mem not_mem_empty, fun pos => by omega⟩

theorem Line.head (line : Line (st :: rest)) : st.Sound ∧ st.Dated := by
  cases line with
  | start => exact ⟨sound_empty, empty_dated⟩
  | write stamped sound dated => exact ⟨sound, dated⟩

theorem Line.tail_line (line : Line (next :: cur :: older)) : Line (cur :: older) := by
  cases line with
  | write stamped sound dated line => exact line

theorem Line.earlier (line : Line (st :: rest)) :
    ∀ past ∈ st :: rest, past.Dated ∧ past.version ≤ st.version := by
  generalize is_ : st :: rest = history at line
  induction line generalizing st rest with
  | start =>
    cases is_
    intro past mem
    rw [mem_singleton.mp mem]
    exact ⟨empty_dated, Int.le_refl _⟩
  | @write next cur older stamped sound dated line ih =>
    cases is_
    intro past mem
    rcases mem_cons.mp mem with rfl | prev
    · exact ⟨dated, Int.le_refl _⟩
    obtain ⟨pastDated, le⟩ := ih rfl past prev
    refine ⟨pastDated, ?_⟩
    have version := stamped.version
    omega

theorem Unchanged.has (eq : Unchanged cur next r) (has : next.Has r) : cur.Has r := by
  have moves : ∀ {V : Type} {a b : StrMap V} {k : String}, a[k]? = b[k]? → k ∈ b → k ∈ a := by
    intro V a b k equal isIn
    rw [← isSome_getElem?_iff_mem] at isIn ⊢
    rw [equal]
    exact isIn
  cases r with
  | placement | tenant => exact moves eq has
  | cluster => exact moves eq.1 has

theorem Line.last (line : Line (st :: rest)) (has : st.Has r) :
    st.generation r = lastChange (st :: rest) r := by
  generalize is_ : st :: rest = history at line
  induction line generalizing st rest with
  | start =>
    cases is_
    rfl
  | @write next cur older stamped sound dated line ih =>
    cases is_
    unfold lastChange
    split
    · next eq => exact (stamped.kept r has eq).trans (ih (eq.has has) rfl)
    · next diff => exact stamped.fresh r has diff

theorem State.Sound.secretIn_eq (sound : st.Sound) :
    secretIn st.secrets name = "" ↔ st.secrets[name]? = none := by
  unfold secretIn
  rw [getD_eq_getD_getElem?]
  cases got : st.secrets[name]? with
  | none => exact ⟨fun _ => rfl, fun _ => rfl⟩
  | some plain =>
    exact ⟨fun empty => absurd empty (sound.held name plain got).2, nofun⟩

theorem secretIn_iff (left : cur.Sound) (right : next.Sound) :
    secretIn next.secrets name = secretIn cur.secrets name ↔
      next.secrets[name]? = cur.secrets[name]? := by
  constructor
  · intro eq
    cases prev : cur.secrets[name]? with
    | none => rw [right.secretIn_eq.mp (eq.trans (left.secretIn_eq.mpr prev))]
    | some =>
      cases post : next.secrets[name]? with
      | none =>
        rw [left.secretIn_eq.mp (eq.symm.trans (right.secretIn_eq.mpr post))] at prev
        cases prev
      | some =>
        unfold secretIn at eq
        rw [getD_eq_getD_getElem?, getD_eq_getD_getElem?, prev, post] at eq
        exact congrArg some eq
  · intro eq
    unfold secretIn
    rw [getD_eq_getD_getElem?, getD_eq_getD_getElem?, eq]

theorem Line.secret (line : Line (next :: cur :: older)) :
    next.secretGeneration name ≠ cur.secretGeneration name ↔
      next.secrets[name]? ≠ cur.secrets[name]? := by
  obtain ⟨prev, dated⟩ := line.tail_line.head
  obtain ⟨post, -⟩ := line.head
  cases line with
  | write stamped =>
    have bounds := dated.secret name
    have version := stamped.version
    by_cases stored : name ∈ next.secrets
    · by_cases eq : secretIn next.secrets name = secretIn cur.secrets name
      · exact ⟨fun moved => absurd (stamped.secretKept name stored eq) moved,
          fun differs => absurd ((secretIn_iff prev post).mp eq) differs⟩
      refine ⟨fun _ equal => eq ((secretIn_iff prev post).mpr equal), fun _ => ?_⟩
      rw [stamped.secretFresh name stored eq]
      omega
    have held := dated.held name
    rw [stamped.secretGone name stored, Std.ExtTreeMap.getElem?_eq_none stored]
    rw [← isSome_getElem?_iff_mem] at held
    cases got : cur.secrets[name]? with
    | none =>
      rw [got] at held
      have zero : ¬ 0 < cur.secretGeneration name := fun pos => by
        cases held.mpr pos
      exact ⟨fun moved => absurd (by omega) moved, fun differs => absurd rfl differs⟩
    | some =>
      rw [got] at held
      have pos := held.mp rfl
      exact ⟨nofun, fun _ => by omega⟩

theorem Line.identity (line : Line (st :: rest)) :
    ∀ past ∈ st :: rest, past.file.identity.isZero = false →
      st.file.identity = past.file.identity := by
  generalize is_ : st :: rest = history at line
  induction line generalizing st rest with
  | start =>
    cases is_
    intro past mem known
    rw [mem_singleton.mp mem]
  | @write next cur older stamped sound dated line ih =>
    cases is_
    intro past mem known
    rcases mem_cons.mp mem with rfl | prev
    · rfl
    · have eq := ih rfl past prev known
      rw [stamped.identity (by rw [eq]; exact known), eq]

theorem Line.identified (line : Line (next :: cur :: older)) : Identified next cur older := by
  have full := line
  cases line with
  | write stamped sound dated line =>
    refine ⟨fun r has => full.last has, ?_, stamped.kept, fun name => full.secret,
      fun past mem => full.identity past (mem_cons_of_mem next mem)⟩
    intro r has diff past mem
    obtain ⟨pastDated, le⟩ := line.earlier past mem
    have bound := (pastDated.resource r).2
    have version := stamped.version
    rw [stamped.fresh r has diff]
    omega

theorem Line.split {newer : List State} (line : Line (newer ++ cur :: older)) :
    Line (cur :: older) := by
  induction newer with
  | nil => exact line
  | cons first rest ih =>
    refine ih ?_
    rw [cons_append] at line
    generalize is_ : rest ++ cur :: older = tail at line ⊢
    cases tail with
    | nil =>
      have lengths := congrArg List.length is_
      rw [length_append, length_cons, length_nil] at lengths
      omega
    | cons => exact line.tail_line

end

/-- etcd, what it held after each write (newest first) and each node's copy. -/
structure Nodes (N : Type) where
  kv : KV := ∅
  history : List State := [{}]
  copies : N → State := fun _ => {}

def followed (cipher : Cipher) (ops : List Event) (st : State) : State :=
  match (cipher.reader.applyAll st ops).map State.versioned with
  | .ok next => next
  | .error _ => st

inductive NodeStep {N : Type} [DecidableEq N] (cipher : Cipher) :
    Option N → Nodes N → Nodes N → Prop where
  | write {w : Nodes N} {call again : Call} {next stored : State} {ops : List Event} (node : N)
      (env : Env) (made : attempt cipher env (w.copies node) call = .ok (.commit next ops again))
      (unchanged : w.kv.compare (w.copies node).version = true)
      (reads : cipher.reader.load (w.kv.commit ops) = .ok stored) : NodeStep cipher (some node) w
        { kv := w.kv.commit ops
          history := stored :: w.history
          copies := fun other => followed cipher ops (w.copies other) }
  | reload {w : Nodes N} {st : State} (node : N) (reads : cipher.reader.load w.kv = .ok st) :
      NodeStep cipher none w { w with copies := Function.update w.copies node st }

/-- The writing node's copy is what etcd holds. -/
def ExactStep {N : Type} [DecidableEq N] (cipher : Cipher) (w w' : Nodes N) : Prop :=
  ∃ writer, NodeStep cipher writer w w' ∧
    ∀ node, writer = some node → w.history.head? = some (w.copies node)

section

variable {N : Type} [DecidableEq N] {cipher : Cipher} {w w' : Nodes N}

structure Nodes.Exact (cipher : Cipher) (w : Nodes N) : Prop where
  line : Line w.history
  holds : ∀ st ∈ w.history.head?, Holds cipher w.kv st

theorem attempt_holds {kv : KV} {env : Env} {cur next : State} {call again : Call}
    {ops : List Event} (sound : cur.Sound) (holds : Holds cipher kv cur)
    (made : attempt cipher env cur call = .ok (.commit next ops again)) :
    Holds cipher (kv.commit ops) next := by
  have post := attempt_sound sound made
  obtain ⟨copy, -, -, rfl⟩ := attempt_commit made
  exact holds.commit sound post fun e => Iff.rfl

theorem ExactStep.exact (step : ExactStep cipher w w') (exact_ : w.Exact cipher) :
    w'.Exact cipher := by
  obtain ⟨writer, step, eq⟩ := step
  cases step with
  | write node env made unchanged reads =>
    have head := eq node rfl
    have holds := exact_.holds _ head
    have line := exact_.line
    cases past : w.history with
    | nil =>
      rw [past] at head
      cases head
    | cons =>
      rw [past] at line head
      cases head
      obtain ⟨sound, dated⟩ := line.head
      obtain ⟨stamped, nextDated⟩ := attempt_stamped sound dated made
      have post := attempt_sound sound made
      have holdsNext := attempt_holds sound holds made
      rw [holdsNext.load post] at reads
      cases reads
      refine ⟨?_, ?_⟩
      · exact .write stamped post nextDated line
      intro st mem
      cases mem
      exact holdsNext
  | reload => exact ⟨exact_.line, exact_.holds⟩

/-- Over every history of writes whose writers hold what etcd holds: each write leaves on every
resource the version of the last write that changed it, on a secret a generation that moves
with it, and the identity as it was. -/
theorem generations_identify_content
    (run : ReflTransGen (ExactStep (N := N) cipher) {} w) {newer older : List State}
    {next cur : State} (at_ : w.history = newer ++ next :: cur :: older) :
    Identified next cur older := by
  have exact_ : w.Exact cipher := by
    clear at_
    induction run with
    | refl =>
      refine ⟨.start, ?_⟩
      intro st mem
      cases mem
      exact holds_empty cipher
    | tail _ step ih => exact step.exact ih
  have line := exact_.line
  rw [at_] at line
  exact line.split.identified

end

def afterWrite (w : Nodes Unit) (call : Call) : Nodes Unit :=
  match attempt fleetCipher operator (w.copies ()) call with
  | .ok (.commit _ ops _) =>
    match fleetCipher.reader.load (w.kv.commit ops) with
    | .ok stored =>
      { kv := w.kv.commit ops
        history := stored :: w.history
        copies := fun other => followed fleetCipher ops (w.copies other) }
    | .error _ => w
  | _ => w

def storedOnce : Nodes Unit := afterWrite {} storeSecret

def tookOut : Nodes Unit := afterWrite storedOnce useEnvironment

def storedAgain : Nodes Unit := afterWrite tookOut storeSecret

theorem afterWrite_step {w post : Nodes Unit} {call : Call} (is_ : post = afterWrite w call)
    (unchanged : w.kv.compare (w.copies ()).version = true)
    (wrote : post.history.length ≠ w.history.length) : NodeStep fleetCipher (some ()) w post := by
  subst is_
  unfold afterWrite at wrote ⊢
  split at wrote
  · next made =>
      split at wrote
      · next reads => exact .write () operator made unchanged reads
      · exact absurd rfl wrote
  · exact absurd rfl wrote

def secretHistory (w : Nodes Unit) : List (Option String × Int) :=
  w.history.map fun st => (st.secrets["east"]?, st.secretGeneration "east")

theorem three_writes : (({} : Nodes Unit).kv.compare (({} : Nodes Unit).copies ()).version &&
      storedOnce.kv.compare (storedOnce.copies ()).version &&
      tookOut.kv.compare (tookOut.copies ()).version) ∧
    secretHistory storedAgain = [(some "hunter2", 0), (none, 0), (some "hunter2", 1), (none, 0)] ∧
    secretHistory tookOut = [(none, 0), (some "hunter2", 1), (none, 0)] ∧
    secretHistory storedOnce = [(some "hunter2", 1), (none, 0)] := by
  decide

theorem secretHistory_length (w : Nodes Unit) : (secretHistory w).length = w.history.length :=
  length_map _

/-- The first write is made on what etcd holds. -/
theorem storedOnce_identified : ReflTransGen (ExactStep fleetCipher) {} storedOnce ∧
    ∃ next first, storedOnce.history = [next, first] ∧ Identified next first [] := by
  obtain ⟨compares, -, -, once⟩ := three_writes
  simp only [Bool.and_eq_true] at compares
  have length := secretHistory_length storedOnce
  rw [once] at length
  have run : ReflTransGen (ExactStep fleetCipher) {} storedOnce :=
    .single ⟨some (), afterWrite_step rfl compares.1.1 (by rw [← length]; decide),
      fun _ _ => rfl⟩
  obtain ⟨next, first, at_⟩ := length_eq_two.mp length.symm
  exact ⟨run, next, first, at_,
    @generations_identify_content Unit _ fleetCipher storedOnce run [] [] next first at_⟩

/-- The node's copy keeps the secret that the second write took out, so the third write stores
it again without moving its generation. -/
theorem storedAgain_not_identified :
    ReflTransGen (fun w w' => ∃ writer, NodeStep fleetCipher writer w w') {} storedAgain ∧
    ∃ next cur older, storedAgain.history = next :: cur :: older ∧
      cur.secrets["east"]? = none ∧ next.secrets["east"]? = some "hunter2" ∧
      next.secretGeneration "east" = cur.secretGeneration "east" ∧ ¬ Identified next cur older := by
  obtain ⟨compares, again, out, once⟩ := three_writes
  simp only [Bool.and_eq_true] at compares
  have lengthAgain := secretHistory_length storedAgain
  have lengthOut := secretHistory_length tookOut
  have lengthOnce := secretHistory_length storedOnce
  rw [again] at lengthAgain
  rw [out] at lengthOut
  rw [once] at lengthOnce
  constructor
  · have run1 : ReflTransGen (fun w w' => ∃ writer, NodeStep fleetCipher writer w w') {}
        storedOnce :=
      .single ⟨some (), afterWrite_step rfl compares.1.1 (by rw [← lengthOnce]; decide)⟩
    have run2 := run1.tail ⟨some (), @afterWrite_step _ tookOut _ rfl compares.1.2
      (by rw [← lengthOut, ← lengthOnce]; decide)⟩
    exact run2.tail ⟨some (), afterWrite_step rfl compares.2
      (by rw [← lengthAgain, ← lengthOut]; decide)⟩
  unfold secretHistory at again
  obtain ⟨next, rest, at_, isNext, restIs⟩ := map_eq_cons_iff.mp again
  obtain ⟨cur, older, atCur, isCur, -⟩ := map_eq_cons_iff.mp restIs
  rw [Prod.mk.injEq] at isNext isCur
  refine ⟨next, cur, older, by rw [at_, atCur], isCur.1, isNext.1, isNext.2.trans isCur.2.symm, ?_⟩
  intro identified
  refine (identified.secret "east").mpr ?_ (isNext.2.trans isCur.2.symm)
  rw [isNext.1, isCur.1]
  exact some_ne_none _

end Shunt.Cp
