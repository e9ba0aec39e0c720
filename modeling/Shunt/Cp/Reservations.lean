/-
Reservations over whole runs.  Every unfinished record with a scope holds its own
reservation, an ended record stays ended, and a cluster operation commits only when the
revision of its scan covers every placement reservation; so no two unfinished records
conflict, whatever the nodes' indexes answer in between.
-/

import Shunt.Cp.OpCalls

namespace Shunt.Cp

open List Option
open Function (update update_of_ne update_self)

open Directory (clusterResource)
open Control (Operation Scope isPlacement)

/-- One reserves the other's resource, or a cluster the other's placement names. -/
def Conflicts (a b : Scope) : Prop :=
  a.resource = b.resource ∨
    (∃ c, a.cluster = some c ∧ isPlacement b.resource = true ∧ c ∈ b.clusters) ∨
    ∃ c, b.cluster = some c ∧ isPlacement a.resource = true ∧ c ∈ a.clusters

def Unfinished (st : OpStore) (id : String) (sc : Scope) (created : Nat) : Prop :=
  ∃ e, st.ops[id]? = some e ∧ e.op.terminal = false ∧ e.op.scope = some sc ∧
    e.createRev = created

def Over (st : OpStore) (id : String) : Prop :=
  ∀ e, st.ops[id]? = some e → e.op.terminal = true

def Made (history : List Operation) (id : String) : Prop := ∃ v ∈ history, v.id = id

structure SameIntent (v v' : Operation) : Prop where
  scope : v.scope = v'.scope
  requestID : v.requestID = v'.requestID
  identity : v.identity = v'.identity
  actor : v.actor = v'.actor
  intentDigest : v.intentDigest = v'.intentDigest

theorem SameIntent.symm {v v' : Operation} (eq : SameIntent v v') : SameIntent v' v :=
  ⟨eq.scope.symm, eq.requestID.symm, eq.identity.symm, eq.actor.symm,
    eq.intentDigest.symm⟩

theorem SameIntent.trans {v v' v'' : Operation} (left : SameIntent v v')
    (right : SameIntent v' v'') : SameIntent v v'' :=
  ⟨left.scope.trans right.scope, left.requestID.trans right.requestID,
    left.identity.trans right.identity, left.actor.trans right.actor,
    left.intentDigest.trans right.intentDigest⟩

theorem Rewrites.sameIntent {old new : Operation} (rewrites : Rewrites old new) :
    SameIntent new old :=
  ⟨rewrites.scope, rewrites.requestID, rewrites.identity, rewrites.actor,
    rewrites.intentDigest⟩

structure Stored (st : OpStore) (history : List Operation) : Prop where
  entry : ∀ id (e : OpEntry), st.ops[id]? = some e → e.op.id = id ∧ e.op ∈ history ∧
    e.createRev ≤ st.rev ∧ e.modRev ≤ st.rev
  latest : ∀ id (e : OpEntry), st.ops[id]? = some e → ∀ v ∈ history, v.id = id →
    v.sequence ≤ e.op.sequence
  versions : ∀ v ∈ history, ∀ v' ∈ history, v.id = v'.id → v.sequence = v'.sequence → v = v'
  intent : ∀ v ∈ history, ∀ v' ∈ history, v.id = v'.id → SameIntent v v'
  ended : ∀ v ∈ history, v.terminal = true → Over st v.id
  reserved : ∀ id sc r, Unfinished st id sc r → st.scopes[sc.resource]? = some id
  owners : ∀ (resource id : String), st.scopes[resource]? = some id → Made history id
  placements : ∀ id sc r, Unfinished st id sc r → sc.cluster = none → r ≤ st.scopeRev
  scopeRev : st.scopeRev ≤ st.rev
  apart : ∀ id id' sc sc' r r', Unfinished st id sc r → Unfinished st id' sc' r' → id ≠ id' →
    ¬ Conflicts sc sc'

section

variable {st st' : OpStore} {history : List Operation} {op old new : Operation} {e : OpEntry}
  {id resource owner : String} {sc : Scope} {r bound : Nat}

theorem Conflicts.symm {a b : Scope} (conflict : Conflicts a b) : Conflicts b a := by
  rcases conflict with eq | left | right
  · exact .inl eq.symm
  · exact .inr (.inr left)
  · exact .inr (.inl right)

theorem unfinished_create (unfinished : Unfinished (st.create op) id sc r) :
    (id = op.id ∧ op.scope = some sc ∧ r = st.rev + 1) ∨ Unfinished st id sc r := by
  obtain ⟨e, found, runs, scope, created⟩ := unfinished
  rw [create_ops] at found
  split at found
  · next eq =>
      cases found
      exact .inl ⟨eq, scope, created.symm⟩
  · exact .inr ⟨e, found, runs, scope, created⟩

theorem unfinished_update (found : st.ops[new.id]? = some e) (rewrites : Rewrites e.op new)
    (unfinished : Unfinished (st.update e new) id sc r) : Unfinished st id sc r := by
  obtain ⟨e', found', runs, scope, created⟩ := unfinished
  rw [update_ops] at found'
  split at found'
  · next eq =>
      cases found'
      subst eq
      refine ⟨e, found, ?_, rewrites.scope ▸ scope, created⟩
      cases finished : e.op.terminal with
      | false => rfl
      | true => exact absurd (rewrites.ended finished) (by rw [runs]; decide)
  · exact ⟨e', found', runs, scope, created⟩

/-- What a create must know of a cluster operation's scan. -/
def Blocking (st : OpStore) (op : Operation) (bound : Nat) (id : String) : Prop :=
  ∃ sc cluster held r, op.scope = some sc ∧ sc.cluster = some cluster ∧ Unfinished st id held r ∧
    isPlacement held.resource = true ∧ cluster ∈ held.clusters ∧ r ≤ bound

theorem createCompares_facts {bound : Option Nat} (passes : st.createCompares op bound) :
    st.ops[op.id]? = none ∧ (op.requestID ≠ "" → st.idem[op.idempotencyIndex]? = none) ∧
      ∀ sc, op.scope = some sc → st.scopes[sc.resource]? = none ∧
        (∀ cluster, sc.cluster = some cluster → ∃ b, bound = some b ∧ st.scopeRev ≤ b) ∧
        (sc.cluster = none → ∀ c ∈ sc.clusters, st.scopes[clusterResource c]? = none) := by
  unfold OpStore.createCompares at passes
  simp only [Bool.and_eq_true, Bool.or_eq_true, decide_eq_true_eq, isNone_iff_eq_none] at passes
  obtain ⟨⟨absent, key⟩, reserves⟩ := passes
  refine ⟨absent, fun some_ => key.resolve_left some_, ?_⟩
  intro sc scope
  rw [scope] at reserves
  unfold OpStore.reserveCompares at reserves
  simp only [Bool.and_eq_true, isNone_iff_eq_none] at reserves
  obtain ⟨⟨⟨free, -⟩, -⟩, others⟩ := reserves
  refine ⟨free, ?_, ?_⟩
  · intro cluster names
    rw [names] at others
    obtain ⟨b, is_, lt⟩ := (Option.any_eq_true _ _).mp others
    exact ⟨b, is_, of_decide_eq_true lt⟩
  intro placement c mem
  rw [placement] at others
  exact isNone_iff_eq_none.mp (List.all_eq_true.mp others c mem)

theorem create_scopes (scope : op.scope = some sc) {x : String} :
    (st.create op).scopes[x]? = if x = sc.resource then some op.id else st.scopes[x]? := by
  unfold OpStore.create
  dsimp only
  rw [scope]
  exact insert_at

theorem create_scopes_none (scope : op.scope = none) : (st.create op).scopes = st.scopes := by
  unfold OpStore.create
  dsimp only
  rw [scope]

theorem create_scopeRev (scope : op.scope = some sc) (placement : sc.cluster = none) :
    (st.create op).scopeRev = st.rev + 1 := by
  unfold OpStore.create
  dsimp only
  rw [scope]
  dsimp only
  rw [placement]
  rfl

theorem create_scopeRev_cases (st : OpStore) (op : Operation) :
    (st.create op).scopeRev = st.scopeRev ∨ (st.create op).scopeRev = st.rev + 1 := by
  unfold OpStore.create
  dsimp only
  split
  · split
    · exact .inl rfl
    · exact .inr rfl
  · exact .inl rfl

theorem le_create_scopeRev (lt : st.scopeRev ≤ st.rev) : st.scopeRev ≤ (st.create op).scopeRev := by
  rcases create_scopeRev_cases st op with eq | next
  · rw [eq]
  · omega

theorem create_scopeRev_le (lt : st.scopeRev ≤ st.rev) :
    (st.create op).scopeRev ≤ (st.create op).rev := by
  change _ ≤ st.rev + 1
  rcases create_scopeRev_cases st op with eq | next
  · omega
  · omega

theorem Stored.noted {made : Nat} (stored : Stored st history) (rev : st'.rev = st.rev + 1)
    (ops : ∀ x, st'.ops[x]? = if x = new.id then some ⟨made, st.rev + 1, new⟩ else st.ops[x]?)
    (early : made ≤ st.rev + 1) (later : ∀ v ∈ history, v.id = new.id →
      v.sequence < new.sequence ∧ SameIntent new v ∧ (v.terminal → new.terminal)) :
    (∀ id (e : OpEntry), st'.ops[id]? = some e → e.op.id = id ∧ e.op ∈ new :: history ∧
      e.createRev ≤ st'.rev ∧ e.modRev ≤ st'.rev) ∧
    (∀ id (e : OpEntry), st'.ops[id]? = some e → ∀ v ∈ new :: history, v.id = id →
      v.sequence ≤ e.op.sequence) ∧
    (∀ v ∈ new :: history, ∀ v' ∈ new :: history, v.id = v'.id →
      (v.sequence = v'.sequence → v = v') ∧ SameIntent v v') ∧
    ∀ v ∈ new :: history, v.terminal → Over st' v.id := by
  simp only [Over, ops, rev]
  refine ⟨?_, ?_, ?_, ?_⟩
  · intro x e found
    split at found
    · next eq =>
        cases found
        exact ⟨eq.symm, mem_cons_self, early, Nat.le_refl _⟩
    obtain ⟨its, mem, created, modified⟩ := stored.entry x e found
    exact ⟨its, mem_cons_of_mem _ mem, Nat.le_succ_of_le created, Nat.le_succ_of_le modified⟩
  · intro x e found v mem its
    split at found
    · next eq =>
        cases found
        rcases mem_cons.mp mem with rfl | earlier
        · exact Nat.le_refl _
        · exact Nat.le_of_lt (later v earlier (its.trans eq)).1
    next other =>
      rcases mem_cons.mp mem with rfl | earlier
      · exact absurd its.symm other
      · exact stored.latest x e found v earlier its
  · intro v mem v' mem' eq
    rcases mem_cons.mp mem with rfl | earlier
    · rcases mem_cons.mp mem' with rfl | earlier'
      · exact ⟨fun _ => rfl, rfl, rfl, rfl, rfl, rfl⟩
      · obtain ⟨below, intent, -⟩ := later v' earlier' eq.symm
        exact ⟨fun equal => absurd equal (Nat.ne_of_gt below), intent⟩
    rcases mem_cons.mp mem' with rfl | earlier'
    · obtain ⟨below, intent, -⟩ := later v earlier eq
      exact ⟨fun equal => absurd equal (Nat.ne_of_lt below), intent.symm⟩
    · exact ⟨stored.versions v earlier v' earlier' eq, stored.intent v earlier v' earlier' eq⟩
  · intro v mem done e found
    split at found
    · next eq =>
        cases found
        exact (mem_cons.mp mem).elim (· ▸ done) fun earlier => (later v earlier eq).2.2 done
    next other =>
      rcases mem_cons.mp mem with rfl | earlier
      · exact absurd rfl other
      · exact stored.ended v earlier done e found

theorem Stored.create {bound : Option Nat} (stored : Stored st history)
    (fresh : ¬ Made history op.id) (passes : st.createCompares op bound)
    (clear : ∀ b, bound = some b → ∀ id, ¬ Blocking st op b id) :
    Stored (st.create op) (op :: history) := by
  obtain ⟨-, -, reserves⟩ := createCompares_facts passes
  -- No unfinished record conflicts with the new one.
  have free : ∀ id held r, Unfinished st id held r → ∀ sc, op.scope = some sc →
      ¬ Conflicts sc held := by
    intro id held r unfinished sc scope conflict
    obtain ⟨none_, scanned, clusters⟩ := reserves sc scope
    have holds := stored.reserved id held r unfinished
    rcases conflict with eq | ⟨c, names, placement, mem⟩ | ⟨c, names, placement, mem⟩
    · rw [← eq, none_] at holds
      cases holds
    · obtain ⟨b, is_, lt⟩ := scanned c names
      have early := stored.placements id held r unfinished (Control.cutCluster_placement placement)
      exact clear b is_ id ⟨sc, c, held, r, scope, names, unfinished, placement, mem,
        early.trans lt⟩
    have none' := clusters (Control.cutCluster_placement placement) c mem
    rw [← Control.cutCluster_some names, holds] at none'
    cases none'
  obtain ⟨entry, latest, alike, ended⟩ := stored.noted rfl (fun _ => create_ops) (Nat.le_refl _)
    fun v mem eq => absurd ⟨v, mem, eq⟩ fresh
  refine ⟨entry, latest, fun v mem v' mem' eq => (alike v mem v' mem' eq).1,
    fun v mem v' mem' eq => (alike v mem v' mem' eq).2, ended, ?_, ?_, ?_, ?_, ?_⟩
  · intro id sc r unfinished
    rcases unfinished_create unfinished with ⟨rfl, scope, -⟩ | prev
    · rw [create_scopes scope, if_pos rfl]
    have holds := stored.reserved id sc r prev
    cases scope : op.scope with
    | none =>
      rw [create_scopes_none scope]
      exact holds
    | some own =>
      rw [create_scopes scope, if_neg]
      · exact holds
      · intro eq
        exact free id sc r prev own scope (.inl eq.symm)
  · intro resource id held
    cases scope : op.scope with
    | none =>
      rw [create_scopes_none scope] at held
      obtain ⟨v, mem, its⟩ := stored.owners resource id held
      exact ⟨v, mem_cons_of_mem _ mem, its⟩
    | some =>
      rw [create_scopes scope] at held
      split at held
      · cases held
        exact ⟨op, mem_cons_self, rfl⟩
      · obtain ⟨v, mem, its⟩ := stored.owners resource id held
        exact ⟨v, mem_cons_of_mem _ mem, its⟩
  · intro id sc r unfinished placement
    rcases unfinished_create unfinished with ⟨-, scope, rfl⟩ | prev
    · exact Nat.le_of_eq (create_scopeRev scope placement).symm
    · exact (stored.placements id sc r prev placement).trans (le_create_scopeRev stored.scopeRev)
  · exact create_scopeRev_le stored.scopeRev
  intro id id' sc sc' r r' unfinished unfinished' ne
  rcases unfinished_create unfinished with ⟨is_, scope, -⟩ | prev
  · rcases unfinished_create unfinished' with ⟨is', -, -⟩ | prev'
    · exact absurd (is_.trans is'.symm) ne
    · exact free id' sc' r' prev' sc scope
  rcases unfinished_create unfinished' with ⟨-, scope', -⟩ | prev'
  · exact fun conflict => free id sc r prev sc' scope' conflict.symm
  · exact stored.apart id id' sc sc' r r' prev prev' ne

theorem Stored.thin (stored : Stored st history) (rev : st.rev ≤ st'.rev)
    (ops : ∀ (x : String) e, st'.ops[x]? = some e → st.ops[x]? = some e)
    (scopes : ∀ (x id : String), st'.scopes[x]? = some id → st.scopes[x]? = some id)
    (kept : ∀ id sc r, Unfinished st id sc r → st'.scopes[sc.resource]? = some id)
    (scopeRev : st'.scopeRev = st.scopeRev) : Stored st' history := by
  have prev : ∀ {id sc r}, Unfinished st' id sc r → Unfinished st id sc r := by
    rintro id sc r ⟨e, found, rest⟩
    exact ⟨e, ops id e found, rest⟩
  refine ⟨?_, ?_, stored.versions, stored.intent, ?_, ?_, ?_, ?_, ?_, ?_⟩
  · intro x e found
    obtain ⟨its, mem, created, modified⟩ := stored.entry x e (ops x e found)
    exact ⟨its, mem, created.trans rev, modified.trans rev⟩
  · intro x e found
    exact stored.latest x e (ops x e found)
  · intro v mem finished e found
    exact stored.ended v mem finished e (ops v.id e found)
  · intro id sc r unfinished
    exact kept id sc r (prev unfinished)
  · intro resource id held
    exact stored.owners resource id (scopes resource id held)
  · intro id sc r unfinished placement
    rw [scopeRev]
    exact stored.placements id sc r (prev unfinished) placement
  · rw [scopeRev]
    exact stored.scopeRev.trans rev
  · intro id id' sc sc' r r' unfinished unfinished'
    exact stored.apart id id' sc sc' r r' (prev unfinished) (prev unfinished')

theorem freed_subset (x : String) (id : String) (held : (st.freed resource owner)[x]? = some id) :
    st.scopes[x]? = some id := by
  rw [freed_at] at held
  split at held
  · cases held
  · exact held

theorem Stored.keeps_reserved (stored : Stored st history) (finished : Over st owner)
    (unfinished : Unfinished st id sc r) : (st.freed resource owner)[sc.resource]? = some id := by
  have holds := stored.reserved id sc r unfinished
  rw [freed_at, if_neg]
  · exact holds
  rintro ⟨rfl, theirs⟩
  rw [holds, Option.some.injEq] at theirs
  subst theirs
  obtain ⟨e, found, runs, -⟩ := unfinished
  exact absurd (finished e found) (by rw [runs]; decide)

theorem Stored.release (stored : Stored st history) (finished : Over st owner) :
    Stored (st.release resource owner) history :=
  stored.thin (Nat.le_succ _) (fun _ _ found => found) freed_subset
    (fun _ _ _ unfinished => stored.keeps_reserved finished unfinished) rfl

theorem dropBatch_ops {batch : List Drop} (x : String) (e : OpEntry)
    (found : (st.dropBatch batch).ops[x]? = some e) : st.ops[x]? = some e := by
  change (batch.foldl OpStore.drop st).ops[x]? = some e at found
  rw [drops_ops] at found
  split at found
  · cases found
  · exact found

theorem Stored.dropBatch (stored : Stored st history) (batch : List Drop) :
    Stored (st.dropBatch batch) history := by
  have scopes : (st.dropBatch batch).scopes = st.scopes := drops_rest.1
  refine stored.thin (Nat.le_succ _) ?_ ?_ ?_ drops_rest.2
  · exact dropBatch_ops
  · intro x id held
    rw [scopes] at held
    exact held
  intro id sc r unfinished
  rw [scopes]
  exact stored.reserved id sc r unfinished

theorem update_scopes_none (scope : new.scope = none) : (st.update e new).scopes = st.scopes := by
  unfold OpStore.update
  dsimp only
  rw [scope]

theorem update_scopes (scope : new.scope = some sc) :
    (st.update e new).scopes = if new.terminal then st.freed sc.resource new.id else st.scopes := by
  unfold OpStore.update
  dsimp only
  rw [scope]

theorem update_scopes_subset (x : String) (id : String)
    (held : (st.update e new).scopes[x]? = some id) : st.scopes[x]? = some id := by
  cases scope : new.scope with
  | none =>
    rw [update_scopes_none scope] at held
    exact held
  | some =>
    rw [update_scopes scope] at held
    split at held
    · exact freed_subset x id held
    · exact held

theorem Stored.update (stored : Stored st history) (found : st.ops[new.id]? = some e)
    (rewrites : Rewrites e.op new) : Stored (st.update e new) (new :: history) := by
  obtain ⟨its, among, created, modified⟩ := stored.entry new.id e found
  have rev : (st.update e new).rev = st.rev + 1 := rfl
  obtain ⟨entry, latest, alike, ended⟩ := stored.noted rev (fun _ => update_ops)
    (Nat.le_succ_of_le created) (by
      intro v mem eq
      have most := stored.latest new.id e found v mem eq
      have next := rewrites.sequence
      refine ⟨by omega, ?_, fun done => rewrites.ended ?_⟩
      · exact rewrites.sameIntent.trans (stored.intent e.op among v mem (its.trans eq.symm))
      · exact stored.ended v mem done e (eq ▸ found))
  refine ⟨entry, latest, fun v mem v' mem' eq => (alike v mem v' mem' eq).1,
    fun v mem v' mem' eq => (alike v mem v' mem' eq).2, ended, ?_, ?_, ?_, ?_, ?_⟩
  · intro id sc r unfinished
    have holds := stored.reserved id sc r (unfinished_update found rewrites unfinished)
    cases scope : new.scope with
    | none =>
      rw [update_scopes_none scope]
      exact holds
    | some =>
      rw [update_scopes scope]
      split
      · next finished =>
          rw [freed_at, if_neg]
          · exact holds
          rintro ⟨eq, theirs⟩
          rw [← eq, holds, Option.some.injEq] at theirs
          subst theirs
          obtain ⟨e', found', runs, -⟩ := unfinished
          rw [update_ops, if_pos rfl] at found'
          cases found'
          rw [finished] at runs
          cases runs
      · exact holds
  · intro resource id held
    obtain ⟨v, mem, eq⟩ := stored.owners resource id (update_scopes_subset resource id held)
    exact ⟨v, mem_cons_of_mem _ mem, eq⟩
  · intro id sc r unfinished placement
    exact stored.placements id sc r (unfinished_update found rewrites unfinished) placement
  · exact Nat.le_succ_of_le stored.scopeRev
  intro id id' sc sc' r r' unfinished unfinished'
  exact stored.apart id id' sc sc' r r' (unfinished_update found rewrites unfinished)
    (unfinished_update found rewrites unfinished')

structure Later (st st' : OpStore) (history history' : List Operation) : Prop where
  rev : st.rev ≤ st'.rev
  versions : history ⊆ history'
  unfinished : ∀ id sc r, Unfinished st' id sc r → r ≤ st.rev → Unfinished st id sc r
  entries : ∀ (id : String) (e : OpEntry), st'.ops[id]? = some e → e.modRev ≤ st.rev →
    st.ops[id]? = some e
  finished : ∀ id, Made history id → Over st id → Over st' id

theorem Later.refl : Later st st history history :=
  ⟨Nat.le_refl _, List.Subset.refl _, fun _ _ _ unfinished _ => unfinished,
    fun _ _ found _ => found, fun _ _ finished => finished⟩

theorem Later.create (fresh : ¬ Made history op.id) :
    Later st (st.create op) history (op :: history) := by
  refine ⟨Nat.le_succ _, subset_cons_self _ _, ?_, ?_, ?_⟩
  · intro id sc r unfinished early
    rcases unfinished_create unfinished with ⟨-, -, rfl⟩ | prev
    · omega
    · exact prev
  · intro id e found early
    rw [create_ops] at found
    split at found
    · cases found
      exact absurd early (Nat.not_succ_le_self _)
    · exact found
  intro id made finished e found
  rw [create_ops] at found
  split at found
  · next eq => exact absurd (eq ▸ made) fresh
  · exact finished e found

theorem Later.update (found : st.ops[new.id]? = some e) (rewrites : Rewrites e.op new) :
    Later st (st.update e new) history (new :: history) := by
  refine ⟨Nat.le_succ _, subset_cons_self _ _, ?_, ?_, ?_⟩
  · intro id sc r unfinished _
    exact unfinished_update found rewrites unfinished
  · intro id e' found' early
    rw [update_ops] at found'
    split at found'
    · cases found'
      exact absurd early (Nat.not_succ_le_self _)
    · exact found'
  intro id _ finished e' found'
  rw [update_ops] at found'
  split at found'
  · next eq =>
      cases found'
      exact rewrites.ended (finished e (eq ▸ found))
  · exact finished e' found'

theorem Later.thin (rev : st.rev ≤ st'.rev)
    (ops : ∀ (x : String) e, st'.ops[x]? = some e → st.ops[x]? = some e) :
    Later st st' history history := by
  refine ⟨rev, List.Subset.refl _, ?_, fun id e found _ => ops id e found,
    fun id _ finished e found => finished e (ops id e found)⟩
  rintro id sc r ⟨e, found, rest⟩ _
  exact ⟨e, ops id e found, rest⟩

end

def Updating (w : OpWorld) (new : Operation) (rev : Option Nat) : Prop :=
  (∃ old ∈ w.history, Rewrites old new) ∧ ∀ r, rev = some r → r ≤ w.store.rev ∧
    ∀ e, w.store.ops[new.id]? = some e → e.modRev = r → e.op.sequence + 1 = new.sequence

def CreatePhase.Fits (w : OpWorld) (op : Operation) : CreatePhase → Prop
  | .begun _ | .counted _ => ¬ Made w.history op.id
  | .scanning _ bound todo => ¬ Made w.history op.id ∧ bound ≤ w.store.rev ∧
      ∀ id, Blocking w.store op bound id → id ∈ todo
  | .reaping _ new rev (.scan bound todo) _ => ¬ Made w.history op.id ∧ Updating w new rev ∧
      bound ≤ w.store.rev ∧ ∀ id, Blocking w.store op bound id → id = new.id ∨ id ∈ todo
  | .reaping _ new rev .retry _ => ¬ Made w.history op.id ∧ Updating w new rev
  | .ready _ bound => ¬ Made w.history op.id ∧ ∀ b, bound = some b → b ≤ w.store.rev ∧
      ∀ id, ¬ Blocking w.store op b id
  | .refused _ seen => ¬ Made w.history op.id ∧
      (∀ owner, seen.scope = some owner → Made w.history owner) ∧
      ∀ c owner, seen.cluster = some (c, owner) → Made w.history owner
  | .holder _ owner _ => ¬ Made w.history op.id ∧ Made w.history owner
  | .releasing _ _ owner => ¬ Made w.history op.id ∧ Made w.history owner ∧ Over w.store owner
  | .trimming batches => ∀ batch ∈ batches, ∀ id, Drop.record id ∈ batch →
      Made w.history id ∧ Over w.store id
  | .landed => op ∈ w.history
  | .ended _ => True

structure OpWorld.Inv (w : OpWorld) : Prop where
  stored : Stored w.store w.history
  index : ∀ node id v, (w.index node)[id]? = some v → v ∈ w.history ∧ v.id = id
  creates : ∀ id c, w.creates id = some c → c.op.id = id ∧ c.phase.Fits w c.op
  updates : ∀ i u, w.updates i = some u → Updating w u.new u.rev
  known : ∀ x, Made w.history x → w.creates x ≠ none

section

variable {capacity retention : Nat} {w w' : OpWorld} {c : CreateCall} {op new : Operation}
  {phase : CreatePhase} {id : String} {bound : Nat} {rev : Option Nat}
variable {node : String} {got : Option Operation}

def OpWorld.Before (w w' : OpWorld) : Prop := Later w.store w'.store w.history w'.history

theorem Made.mono {history history' : List Operation} (subset : history ⊆ history')
    (made : Made history id) : Made history' id := by
  obtain ⟨v, mem, eq⟩ := made
  exact ⟨v, subset mem, eq⟩

theorem Updating.mono (prev : w.Before w') (updating : Updating w new rev) :
    Updating w' new rev := by
  obtain ⟨⟨old, mem, rewrites⟩, read⟩ := updating
  refine ⟨⟨old, prev.versions mem, rewrites⟩, ?_⟩
  intro r is_
  obtain ⟨lt, sequence⟩ := read r is_
  refine ⟨lt.trans prev.rev, ?_⟩
  intro e found eq
  exact sequence e (prev.entries new.id e found (eq ▸ lt)) eq

theorem Blocking.back (prev : w.Before w') (lt : bound ≤ w.store.rev)
    (blocking : Blocking w'.store op bound id) : Blocking w.store op bound id := by
  obtain ⟨sc, cluster, held, r, scope, names, unfinished, rest⟩ := blocking
  exact ⟨sc, cluster, held, r, scope, names,
    prev.unfinished id held r unfinished (rest.2.2.trans lt), rest⟩

theorem CreatePhase.Fits.mono (prev : w.Before w') (apart : Made w'.history op.id →
      Made w.history op.id) (fits : phase.Fits w op) : phase.Fits w' op := by
  have fresh : ¬ Made w.history op.id → ¬ Made w'.history op.id := fun none_ made =>
    none_ (apart made)
  cases phase with
  | begun | counted => exact fresh fits
  | scanning =>
    exact ⟨fresh fits.1, fits.2.1.trans prev.rev,
      fun id blocking => fits.2.2 id (blocking.back prev fits.2.1)⟩
  | reaping attempt new rev post =>
    cases post with
    | scan =>
      exact ⟨fresh fits.1, fits.2.1.mono prev, fits.2.2.1.trans prev.rev,
        fun id blocking => fits.2.2.2 id (blocking.back prev fits.2.2.1)⟩
    | retry => exact ⟨fresh fits.1, fits.2.mono prev⟩
  | ready =>
    refine ⟨fresh fits.1, ?_⟩
    intro b is_
    obtain ⟨lt, clear⟩ := fits.2 b is_
    exact ⟨lt.trans prev.rev, fun id blocking => clear id (blocking.back prev lt)⟩
  | refused =>
    exact ⟨fresh fits.1, fun owner is_ => (fits.2.1 owner is_).mono prev.versions,
      fun cl owner is_ => (fits.2.2 cl owner is_).mono prev.versions⟩
  | holder => exact ⟨fresh fits.1, fits.2.mono prev.versions⟩
  | releasing =>
    exact ⟨fresh fits.1, fits.2.1.mono prev.versions, prev.finished _ fits.2.1 fits.2.2⟩
  | landed => exact prev.versions fits
  | trimming =>
    intro batch mem id dropped
    obtain ⟨made, finished⟩ := fits batch mem id dropped
    exact ⟨made.mono prev.versions, prev.finished id made finished⟩
  | ended => trivial

theorem OpWorld.Before.refl (w : OpWorld) : w.Before w := Later.refl

theorem OpWorld.Inv.moves (inv : w.Inv) (prev : w.Before w')
    (stored : Stored w'.store w'.history) (index : w'.index = w.index)
    (creates : w'.creates = w.creates) (updates : w'.updates = w.updates)
    (apart : ∀ x, x ≠ c.op.id → Made w'.history x → Made w.history x)
    (fits : phase.Fits w' c.op) : (w'.goes c phase).Inv := by
  refine ⟨stored, ?_, ?_, ?_, ?_⟩
  · intro node id v found
    change (w'.index node)[id]? = some v at found
    rw [index] at found
    obtain ⟨mem, eq⟩ := inv.index node id v found
    exact ⟨prev.versions mem, eq⟩
  · intro id d at_
    rcases Library.update_some at_ with ⟨rfl, rfl⟩ | ⟨other, at_⟩
    · exact ⟨rfl, fits⟩
    rw [creates] at at_
    obtain ⟨its, stands⟩ := inv.creates id d at_
    exact ⟨its, stands.mono prev (its ▸ apart id other)⟩
  · intro i u at_
    change w'.updates i = some u at at_
    rw [updates] at at_
    exact (inv.updates i u at_).mono prev
  intro x made
  change update w'.creates c.op.id _ x ≠ none
  by_cases eq : x = c.op.id
  · rw [eq, update_self]
    exact some_ne_none _
  · rw [update_of_ne eq, creates]
    exact inv.known x (apart x eq made)

theorem OpWorld.Inv.goes (inv : w.Inv) (fits : phase.Fits w c.op) : (w.goes c phase).Inv :=
  inv.moves (.refl w) inv.stored rfl rfl rfl (fun _ _ made => made) fits

theorem OpWorld.Inv.rests (inv : w.Inv) (prev : w.Before w') (stored : Stored w'.store w'.history)
    (index : ∀ node id v, (w'.index node)[id]? = some v → v ∈ w'.history ∧ v.id = id)
    (creates : w'.creates = w.creates) (updates : w'.updates = w.updates)
    (apart : ∀ x, Made w'.history x → Made w.history x) : w'.Inv := by
  refine ⟨stored, index, ?_, ?_, fun x made => creates ▸ inv.known x (apart x made)⟩
  · intro id d at_
    rw [creates] at at_
    obtain ⟨its, stands⟩ := inv.creates id d at_
    exact ⟨its, stands.mono prev (apart d.op.id)⟩
  intro i u at_
  rw [updates] at at_
  exact (inv.updates i u at_).mono prev

theorem OpWorld.Inv.updates_ {i : Nat} {u : UpdateCall} (inv : w.Inv)
    (updating : Updating w u.new u.rev) : (w.updates_ i u).Inv := by
  refine ⟨inv.stored, inv.index, ?_, ?_, inv.known⟩
  · intro id d at_
    obtain ⟨its, stands⟩ := inv.creates id d at_
    exact ⟨its, stands.mono (.refl w) fun made => made⟩
  intro j d at_
  rcases Library.update_some at_ with ⟨rfl, rfl⟩ | ⟨-, at_⟩
  · exact updating
  · exact inv.updates j d at_

theorem OpWorld.Inv.reindexes {index : StrMap Operation} (inv : w.Inv)
    (held : ∀ id v, index[id]? = some v → v ∈ w.history ∧ v.id = id) :
    (w.reindexes node index).Inv := by
  refine inv.rests (.refl w) inv.stored ?_ rfl rfl fun _ made => made
  intro other id v found
  change (update w.index node index other)[id]? = some v at found
  rw [Function.update_apply] at found
  split at found
  · exact held id v found
  · exact inv.index other id v found

theorem OpWorld.Inv.gets_version {v : Operation} (inv : w.Inv)
    (gets : Gets w node id (some v)) : v ∈ w.history ∧ v.id = id := by
  generalize is_ : some v = got at gets
  cases gets with
  | etcd =>
    obtain ⟨e, found, rfl⟩ := map_eq_some_iff.mp is_.symm
    obtain ⟨its, mem, -⟩ := inv.stored.entry id e found
    exact ⟨mem, its⟩
  | index cached =>
    cases is_
    exact inv.index node id v cached

theorem OpWorld.Inv.gets_over (inv : w.Inv)
    (gets : Gets w node id got) (gone : ∀ v, got = some v → v.terminal) : Over w.store id := by
  cases gets with
  | etcd =>
    intro e found
    exact gone e.op (by rw [found]; rfl)
  | @index v cached =>
    obtain ⟨mem, eq⟩ := inv.index node id v cached
    exact eq ▸ inv.stored.ended v mem (gone v rfl)

theorem OpWorld.Inv.gets_unfinished {sc : Scope} {r : Nat}
    (inv : w.Inv) (gets : Gets w node id got) (unfinished : Unfinished w.store id sc r) :
    ∃ v, got = some v ∧ v.terminal = false ∧ v.scope = some sc := by
  obtain ⟨e, found, runs, scope, -⟩ := unfinished
  cases gets with
  | etcd => exact ⟨e.op, by rw [found]; rfl, runs, scope⟩
  | @index v cached =>
    obtain ⟨mem, eq⟩ := inv.index node id v cached
    obtain ⟨its, among, -⟩ := inv.stored.entry id e found
    have intent := inv.stored.intent v mem e.op among (eq.trans its.symm)
    refine ⟨v, rfl, ?_, intent.scope.trans scope⟩
    cases finished : v.terminal with
    | false => rfl
    | true =>
      have ended := inv.stored.ended v mem finished e (eq ▸ found)
      rw [runs] at ended
      cases ended

theorem OpWorld.Inv.gets_blocking {cluster : String} {sc : Scope}
    (inv : w.Inv) (gets : Gets w node id got) (scope : op.scope = some sc)
    (names : sc.cluster = some cluster) (blocking : Blocking w.store op bound id) :
    inTheWay cluster got = true := by
  obtain ⟨own, its, held, r, scope', names', unfinished, -, mem, -⟩ := blocking
  rw [scope, Option.some.injEq] at scope'
  subst scope'
  rw [names, Option.some.injEq] at names'
  subst names'
  obtain ⟨v, rfl, runs, held'⟩ := inv.gets_unfinished gets unfinished
  simp [inTheWay, runs, held', mem]

theorem OpWorld.Inv.orphan_updating {why : String} {v : Operation} (inv : w.Inv)
    (gets : Gets w node id (some v)) (unfinished : v.terminal = false) :
    Updating w (v.orphan w.now why) none ∧ (v.orphan w.now why).id = id := by
  obtain ⟨mem, eq⟩ := inv.gets_version gets
  have rewrites : Rewrites v (v.orphan w.now why) := orphan_rewrites unfinished
  exact ⟨⟨⟨v, mem, rewrites⟩, fun r no => by cases no⟩, rewrites.id.trans eq⟩

theorem inTheWay_unfinished {cluster : String} {v : Operation}
    (inWay : inTheWay cluster (some v)) : v.terminal = false := by
  simp only [inTheWay, any_some, Bool.and_eq_true, Bool.not_eq_true'] at inWay
  exact inWay.1

theorem Updating.rewrites {e : OpEntry} (stored : Stored w.store w.history)
    (updating : Updating w new rev) (found : w.store.ops[new.id]? = some e)
    (eq : rev = some e.modRev) : Rewrites e.op new := by
  obtain ⟨⟨old, mem, rewrites⟩, read⟩ := updating
  have sequence := (read e.modRev eq).2 e found rfl
  obtain ⟨its, among, -⟩ := stored.entry new.id e found
  have is_ : e.op = old := by
    refine stored.versions e.op among old mem (its.trans rewrites.id) ?_
    have next := rewrites.sequence
    omega
  rw [is_]
  exact rewrites

theorem Updating.reads {e : OpEntry} (stored : Stored w.store w.history)
    (updating : Updating w new rev) (found : w.store.ops[new.id]? = some e)
    (next : e.op.sequence + 1 = new.sequence) : Updating w new (some e.modRev) := by
  refine ⟨updating.1, ?_⟩
  intro r is_
  cases is_
  refine ⟨(stored.entry new.id e found).2.2.2, ?_⟩
  intro other found' _
  rw [found, Option.some.injEq] at found'
  subst found'
  exact next

theorem again_fits {attempt : Nat} (fresh : ¬ Made w.history op.id) :
    (again attempt).Fits w op := by
  unfold again
  split
  · exact fresh
  · trivial

theorem mem_placementOwners {st : OpStore} {resource : String}
    (held : st.scopes[resource]? = some id) (placement : isPlacement resource) :
    id ∈ st.placementOwners := by
  unfold OpStore.placementOwners
  refine List.mem_map.mpr ⟨(resource, id), List.mem_filter.mpr ⟨?_, placement⟩, rfl⟩
  exact Std.ExtTreeMap.mem_toList_iff_getElem?_eq_some.mpr held

theorem refusal_busy {seen : Seen} {owner held : String}
    (busy : refusal op seen = .busy owner held) :
    seen.scope = some owner ∨ ∃ c, seen.cluster = some (c, owner) := by
  unfold refusal at busy
  split at busy
  · cases busy
  split at busy
  · next owner' is_ =>
      cases busy
      exact .inl is_
  split at busy
  · cases busy
  split at busy
  · cases busy
  split at busy
  · next c owner' is_ =>
      cases busy
      exact .inr ⟨c, is_⟩
  · cases busy

theorem mem_trimDrops {limit now kept : Nat} {entries : List (String × Operation)}
    (dropped : Drop.record id ∈ trimDrops limit now kept entries) :
    ∃ v, (id, v) ∈ entries ∧ v.prunable now = true := by
  induction entries generalizing kept with
  | nil => cases dropped
  | cons entry rest ih =>
    obtain ⟨key, v⟩ := entry
    unfold trimDrops at dropped
    split at dropped
    · cases dropped
    split at dropped
    · next prunable =>
        rcases mem_cons.mp dropped with eq | later
        · cases eq
          exact ⟨v, mem_cons_self, prunable⟩
        rcases mem_append.mp later with key_ | inRest
        · split at key_
          · cases key_
          · cases mem_singleton.mp key_
        · obtain ⟨v', mem, prunable'⟩ := ih inRest
          exact ⟨v', mem_cons_of_mem _ mem, prunable'⟩
    · obtain ⟨v', mem, prunable'⟩ := ih dropped
      exact ⟨v', mem_cons_of_mem _ mem, prunable'⟩

theorem mem_batches {size : Nat} {drops batch : List Drop} {d : Drop}
    (among : batch ∈ batches size drops) (mem : d ∈ batch) : d ∈ drops := by
  induction drops using batches.induct size with
  | case1 drops none_ =>
    rw [batches, if_pos none_] at among
    cases among
  | case2 drops some_ ih =>
    rw [batches, if_neg some_] at among
    rcases mem_cons.mp among with rfl | later
    · exact mem_of_mem_take mem
    · exact mem_of_mem_drop (ih later)

end

end Shunt.Cp
