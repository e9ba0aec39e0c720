/-
Idempotency keys over whole runs.  An operation holds its key while it is unfinished or
ended less than the retention ago.  The index key is written with the record, and a trim
deletes it unconditionally; as long as no trim deletes the key of an operation that still
holds it, no second operation is created under it and a repeated create answers with the
first one.
-/

import Shunt.Cp.ScopeRuns

namespace Shunt.Cp

open List Std.ExtTreeMap Relation
open Function (update_idem update_of_ne update_self)

open Control (Operation Scope)
open Control.Operation (idempotencyRetention)

/-- Unfinished, or ended less than the retention ago. -/
def Holding (w : OpWorld) (id : String) : Prop :=
  ∀ v ∈ w.history, v.id = id → v.terminal = true → w.now < v.updated + idempotencyRetention

structure SameKey (a b : Operation) : Prop where
  keyed : a.requestID ≠ ""
  epoch : a.identity.epoch = b.identity.epoch
  actor : a.actor = b.actor
  requestID : a.requestID = b.requestID

theorem SameKey.index {a b : Operation} (eq : SameKey a b) :
    a.idempotencyIndex = b.idempotencyIndex := by
  unfold Operation.idempotencyIndex
  rw [eq.epoch, eq.actor, eq.requestID]

def Repeats (w : OpWorld) (c : CreateCall) (first : Operation) : Prop :=
  first ∈ c.since ∧ SameKey first c.op ∧ Holding w first.id

/-- What a repeated create answers: that operation, or a conflict when the intent differs;
or etcd did not answer. -/
def Answers (first op : Operation) (e : CreateError) : Prop :=
  (match e with
    | .unavailable => True
    | .replay existing => first.intentDigest = op.intentDigest ∧ existing.id = first.id
    | .idempotencyConflict owner => first.intentDigest ≠ op.intentDigest ∧ owner = first.id
    | _ => False)

/-- Nothing refuses the create ahead of its transaction: there is room for its scope, and
the operation its scan comes to is not in the way of its cluster. -/
def CreateCall.Clear (capacity : Nat) (w : OpWorld) (c : CreateCall) : Prop :=
  match c.phase with
  | .begun _ => c.op.scope = none ∨ w.store.scopes.size < capacity
  | .scanning _ _ (owner :: _) => ∀ sc cluster got, c.op.scope = some sc →
      sc.cluster = some cluster → Gets w c.node owner got → inTheWay cluster got = false
  | _ => True

/-- The step deletes no key that an operation holds, and a repeated create that it moves on
is not refused ahead of its transaction. -/
structure KeepsKeys (capacity : Nat) (w w' : OpWorld) : Prop where
  keys : ∀ (index owner : String), w.store.idem[index]? = some owner →
    w'.store.idem[index]? = none → ¬ Holding w owner
  creates : ∀ id c, w.creates id = some c → w'.creates id ≠ some c →
    ∀ first, Repeats w c first → c.Clear capacity w

def KeyStep (capacity retention : Nat) (w w' : OpWorld) : Prop :=
  OpStep capacity retention w w' ∧ KeepsKeys capacity w w'

/-- A version of the record let the history trim drop it. -/
def Pruned (w : OpWorld) (id : String) : Prop :=
  ∃ v ∈ w.history, v.id = id ∧ v.terminal = true ∧
    (v.requestID = "" ∨ v.updated + idempotencyRetention ≤ w.now)

def CreateCall.Told (w : OpWorld) (c : CreateCall) : Prop :=
  match c.phase with
  | .refused _ seen => ∀ first, Repeats w c first → seen.idem = some first.id
  | .holder _ _ _ | .releasing _ _ _ | .reaping _ _ _ _ _ | .landed | .ended .created =>
    ∀ first, ¬ Repeats w c first
  | .trimming batches => (∀ first, ¬ Repeats w c first) ∧
      ∀ batch ∈ batches, ∀ id, Drop.record id ∈ batch → Pruned w id
  | .ended (.failed e) => ∀ first, Repeats w c first → Answers first c.op e
  | _ => True

structure OpWorld.Keyed (w : OpWorld) : Prop where
  created : ∀ first ∈ w.created, first ∈ w.history
  held : ∀ first ∈ w.created, first.requestID ≠ "" → Holding w first.id →
    (w.store.ops[first.id]?).isSome = true ∧ w.store.idem[first.idempotencyIndex]? = some first.id
  since : ∀ id c, w.creates id = some c → ∀ first ∈ c.since, first ∈ w.created
  told : ∀ id c, w.creates id = some c → c.Told w

section

variable {capacity retention : Nat} {w w' : OpWorld} {c : CreateCall} {first op : Operation}
  {id : String}

structure OpWorld.Ahead (w w' : OpWorld) : Prop where
  versions : w.history ⊆ w'.history
  now : w.now ≤ w'.now

theorem Holding.back (ahead : w.Ahead w') (holding : Holding w' id) : Holding w id := by
  intro v mem eq done
  have later := holding v (ahead.versions mem) eq done
  exact Nat.lt_of_le_of_lt ahead.now later

theorem Repeats.back (ahead : w.Ahead w') (repeats : Repeats w' c first) : Repeats w c first :=
  ⟨repeats.1, repeats.2.1, repeats.2.2.back ahead⟩

theorem Pruned.mono (ahead : w.Ahead w') (pruned : Pruned w id) : Pruned w' id := by
  obtain ⟨v, mem, eq, done, free⟩ := pruned
  exact ⟨v, ahead.versions mem, eq, done, free.imp_right fun old => old.trans ahead.now⟩

theorem CreateCall.Told.mono (ahead : w.Ahead w') (told : c.Told w) : c.Told w' := by
  have none_ : (∀ first, ¬ Repeats w c first) → ∀ first, ¬ Repeats w' c first :=
    fun never first repeats => never first (repeats.back ahead)
  obtain ⟨node, op, since, phase⟩ := c
  cases phase with
  | refused => exact fun first repeats => told first (repeats.back ahead)
  | holder | releasing | reaping | landed => exact none_ told
  | trimming =>
    exact ⟨none_ told.1, fun batch mem id dropped => (told.2 batch mem id dropped).mono ahead⟩
  | ended res =>
    cases res with
    | created => exact none_ told
    | failed => exact fun first repeats => told first (repeats.back ahead)
  | begun | counted | scanning | ready => trivial

theorem Pruned.not_holding (inv : w.Inv) (keyed : w.Keyed) (mem : first ∈ w.created)
    (some_ : first.requestID ≠ "") (pruned : Pruned w first.id) : ¬ Holding w first.id := by
  obtain ⟨v, has, eq, done, free⟩ := pruned
  intro holding
  have intent := inv.stored.intent v has first (keyed.created first mem) eq
  have old := free.resolve_left fun none_ => some_ (intent.requestID.symm.trans none_)
  have young := holding v has eq done
  omega

theorem OpWorld.Keyed.keeps (keyed : w.Keyed) (ahead : w.Ahead w')
    (created : w'.created = w.created)
    (stays : ∀ first ∈ w.created, first.requestID ≠ "" → Holding w first.id →
      (w.store.ops[first.id]?).isSome → w.store.idem[first.idempotencyIndex]? = some first.id →
      (w'.store.ops[first.id]?).isSome ∧ w'.store.idem[first.idempotencyIndex]? = some first.id) :
    ∀ first ∈ w'.created, first.requestID ≠ "" → Holding w' first.id →
      (w'.store.ops[first.id]?).isSome ∧
        w'.store.idem[first.idempotencyIndex]? = some first.id := by
  intro first mem some_ holding
  rw [created] at mem
  obtain ⟨there, indexed⟩ := keyed.held first mem some_ (holding.back ahead)
  exact stays first mem some_ (holding.back ahead) there indexed

theorem OpWorld.Keyed.moves {phase : CreatePhase} (keyed : w.Keyed) (ahead : w.Ahead w')
    (created : ∀ first ∈ w'.created, first ∈ w'.history)
    (grows : ∀ first ∈ w.created, first ∈ w'.created)
    (held : ∀ first ∈ w'.created, first.requestID ≠ "" → Holding w' first.id →
      (w'.store.ops[first.id]?).isSome ∧
        w'.store.idem[first.idempotencyIndex]? = some first.id)
    (creates : w'.creates = w.creates) (since : ∀ first ∈ c.since, first ∈ w'.created)
    (told : CreateCall.Told w' { c with phase := phase }) : (w'.goes c phase).Keyed := by
  have onward : w.Ahead (w'.goes c phase) := ⟨ahead.versions, ahead.now⟩
  refine ⟨created, held, ?_, ?_⟩
  · intro x d at_
    rcases Library.update_some at_ with ⟨-, rfl⟩ | ⟨-, at_⟩
    · exact since
    · rw [creates] at at_
      exact fun first mem => grows first (keyed.since x d at_ first mem)
  intro x d at_
  rcases Library.update_some at_ with ⟨-, rfl⟩ | ⟨-, at_⟩
  · exact told
  · rw [creates] at at_
    exact (keyed.told x d at_).mono onward

theorem OpWorld.Ahead.refl (w : OpWorld) : w.Ahead w := ⟨List.Subset.refl _, Nat.le_refl _⟩

theorem OpWorld.Keyed.goes {phase : CreatePhase} (keyed : w.Keyed)
    (runs : w.creates id = some c) (told : CreateCall.Told w { c with phase := phase }) :
    (w.goes c phase).Keyed :=
  keyed.moves (.refl w) keyed.created (fun _ mem => mem) keyed.held rfl
    (keyed.since id c runs) told

theorem OpWorld.Keyed.rests (keyed : w.Keyed) (ahead : w.Ahead w')
    (created : w'.created = w.created) (creates : w'.creates = w.creates)
    (stays : ∀ first ∈ w.created, first.requestID ≠ "" → Holding w first.id →
      (w.store.ops[first.id]?).isSome → w.store.idem[first.idempotencyIndex]? = some first.id →
      (w'.store.ops[first.id]?).isSome ∧
        w'.store.idem[first.idempotencyIndex]? = some first.id) : w'.Keyed := by
  refine ⟨?_, keyed.keeps ahead created stays, ?_, ?_⟩
  · intro first mem
    rw [created] at mem
    exact ahead.versions (keyed.created first mem)
  · intro x d at_
    rw [creates] at at_
    rw [created]
    exact keyed.since x d at_
  intro x d at_
  rw [creates] at at_
  exact (keyed.told x d at_).mono ahead

theorem OpWorld.Keyed.at_ {phase : CreatePhase} (keyed : w.Keyed)
    (runs : w.creates id = some c) (is_ : c.phase = phase) :
    CreateCall.Told w { c with phase := phase } := by
  subst is_
  exact keyed.told id c runs

theorem again_told {attempt : Nat} : CreateCall.Told w { c with phase := again attempt } := by
  unfold again
  split
  · trivial
  · exact fun _ _ => trivial

theorem update_present {st : OpStore} {e : OpEntry} {new : Operation} {x : String}
    (there : (st.ops[x]?).isSome) : ((st.update e new).ops[x]?).isSome = true := by
  rw [update_ops]
  split
  · rfl
  · exact there

theorem OpWorld.Keyed.repeated (keyed : w.Keyed) (runs : w.creates id = some c)
    (repeats : Repeats w c first) : (w.store.ops[first.id]?).isSome ∧
      w.store.idem[c.op.idempotencyIndex]? = some first.id := by
  obtain ⟨earlier, eq, holding⟩ := repeats
  rw [← eq.index]
  exact keyed.held first (keyed.since id c runs first earlier) eq.keyed holding

theorem not_gets_none {node : String} (there : (w.store.ops[id]?).isSome) :
    ¬ Gets w node id none := by
  intro gets
  generalize is_ : none = got at gets
  cases gets with
  | etcd =>
    obtain ⟨e, found⟩ := Option.isSome_iff_exists.mp there
    rw [found] at is_
    cases is_
  | index => cases is_

theorem OpWorld.Keyed.commit {bound : Option Nat} (keyed : w.Keyed)
    (passes : w.store.createCompares op bound) :
    ∀ first ∈ w.created, SameKey first op → ¬ Holding w first.id := by
  intro first mem eq holding
  have none_ := (createCompares_facts passes).2.1 (eq.requestID ▸ eq.keyed)
  have indexed := (keyed.held first mem eq.keyed holding).2
  rw [eq.index, none_] at indexed
  cases indexed

theorem create_idem {st : OpStore} {x : String} : (st.create op).idem[x]? =
      if op.requestID ≠ "" ∧ x = op.idempotencyIndex then some op.id else st.idem[x]? := by
  unfold OpStore.create
  dsimp only
  by_cases none_ : op.requestID = ""
  · rw [if_pos none_, if_neg fun both => both.1 none_]
  rw [if_neg none_, insert_at]
  by_cases eq : x = op.idempotencyIndex
  · rw [if_pos eq, if_pos ⟨none_, eq⟩]
  · rw [if_neg eq, if_neg fun both => eq both.2]

theorem OpWorld.Keyed.created_held {bound : Option Nat} (keyed : w.Keyed)
    (passes : w.store.createCompares op bound) :
    ∀ first ∈ (w.createsRecord op).created, first.requestID ≠ "" →
      Holding (w.createsRecord op) first.id → ((w.createsRecord op).store.ops[first.id]?).isSome ∧
        (w.createsRecord op).store.idem[first.idempotencyIndex]? = some first.id := by
  intro first mem some_ holding
  change ((w.store.create op).ops[first.id]?).isSome ∧
    (w.store.create op).idem[first.idempotencyIndex]? = some first.id
  rw [create_ops, create_idem]
  rcases mem_cons.mp mem with rfl | earlier
  · rw [if_pos rfl, if_pos ⟨some_, rfl⟩]
    exact ⟨rfl, rfl⟩
  have ahead : w.Ahead (w.createsRecord op) := ⟨subset_cons_self _ _, Nat.le_refl _⟩
  obtain ⟨there, indexed⟩ := keyed.held first earlier some_ (holding.back ahead)
  refine ⟨?_, ?_⟩
  · split
    · rfl
    · exact there
  rw [if_neg]
  · exact indexed
  rintro ⟨keyed', eq⟩
  have none_ := (createCompares_facts passes).2.1 keyed'
  rw [eq, none_] at indexed
  cases indexed

theorem drops_idem {st : OpStore} {batch : List Drop} (x : String) :
    (batch.foldl OpStore.drop st).idem[x]? = st.idem[x]? ∨
      (batch.foldl OpStore.drop st).idem[x]? = none := by
  induction batch generalizing st with
  | nil => exact .inl rfl
  | cons d rest ih =>
    have one : (st.drop d).idem[x]? = st.idem[x]? ∨ (st.drop d).idem[x]? = none := by
      cases d with
      | record => exact .inl rfl
      | key index =>
        change (st.idem.erase index)[x]? = _ ∨ (st.idem.erase index)[x]? = _
        rw [erase_at]
        split
        · exact .inr rfl
        · exact .inl rfl
    rw [foldl_cons]
    rcases @ih (st.drop d) with eq | gone
    · rw [eq]
      exact one
    · exact .inr gone

theorem plan_pruned {index : StrMap Operation}
    (held : ∀ id v, index[id]? = some v → v ∈ w.history ∧ v.id = id) :
    ∀ batch ∈ w.plan retention index, ∀ x, Drop.record x ∈ batch → Pruned w x := by
  intro batch among x dropped
  obtain ⟨v, mem, prunable⟩ := mem_trimDrops (mem_batches among dropped)
  obtain ⟨has, eq⟩ := held x v (mem_toList_iff_getElem?_eq_some.mp mem)
  unfold Operation.prunable at prunable
  simp only [Bool.and_eq_true, Bool.or_eq_true, decide_eq_true_eq] at prunable
  exact ⟨v, has, eq, prunable.1.1, prunable.2⟩

theorem scan_refused {sc : Scope} {owner cluster : String} {attempt bound : Nat}
    {todo : List String} {got : Operation}
    (phase : c.phase = .scanning attempt bound (owner :: todo)) (scope : c.op.scope = some sc)
    (names : sc.cluster = some cluster) (gets : Gets w c.node owner (some got))
    (inWay : inTheWay cluster (some got)) : ¬ c.Clear capacity w := by
  intro clear
  unfold CreateCall.Clear at clear
  rw [phase] at clear
  have none_ := clear sc cluster (some got) scope names gets
  rw [inWay] at none_
  cases none_

theorem KeyStep.keyed (clean : KeyStep capacity retention w w') (inv : w.Inv)
    (keyed : w.Keyed) : w'.Keyed := by
  obtain ⟨step, keys, creates⟩ := clean
  -- A create refused ahead of its transaction repeats nothing.
  have early : ∀ {id : String} {c : CreateCall} {phase : CreatePhase}, w.creates id = some c →
      w' = w.goes c phase → phase ≠ c.phase → ¬ c.Clear capacity w →
      ∀ first, ¬ Repeats w c first := by
    rintro id c phase runs rfl other refused first repeats
    refine refused (creates id c runs ?_ first repeats)
    rw [← (inv.creates id c runs).1]
    change Function.update w.creates c.op.id _ c.op.id ≠ _
    rw [update_self, Ne, Option.some.injEq]
    exact fun eq => other (congrArg CreateCall.phase eq)
  have still : ∀ first ∈ w.created, first.requestID ≠ "" → Holding w first.id →
      (w.store.ops[first.id]?).isSome →
      w.store.idem[first.idempotencyIndex]? = some first.id →
      (w.store.ops[first.id]?).isSome ∧
        w.store.idem[first.idempotencyIndex]? = some first.id :=
    fun _ _ _ _ there indexed => ⟨there, indexed⟩
  cases step with
  | tick => exact keyed.rests ⟨List.Subset.refl _, Nat.le_succ _⟩ rfl rfl still
  | liveness | deliver | forgets =>
    exact keyed.rests ⟨List.Subset.refl _, Nat.le_refl _⟩ rfl rfl still
  | directory | update | updateReads | updateEnds =>
    exact keyed.rests ⟨List.Subset.refl _, Nat.le_refl _⟩ rfl rfl still
  | enter =>
    exact keyed.moves (.refl w) keyed.created (fun _ mem => mem) keyed.held rfl
      (fun _ mem => mem) trivial
  | stop runs => exact keyed.goes runs fun _ _ => trivial
  | @overCapacity id attempt c sc runs phase scope full =>
    refine keyed.goes runs fun first repeats => absurd repeats ?_
    refine early runs rfl (by rw [phase]; exact CreatePhase.noConfusion) ?_ first
    unfold CreateCall.Clear
    rw [phase, scope]
    rintro (none_ | room)
    · cases none_
    · exact absurd full (Nat.not_le.mpr room)
  | count runs | scan runs | noScan runs | scanned runs | scanPast runs =>
    exact keyed.goes runs trivial
  | @scanBusy id owner cluster attempt bound todo c sc held got runs phase scope names gets
      inWay holds =>
    refine keyed.goes runs fun first repeats => absurd repeats ?_
    refine early runs rfl (by rw [phase]; exact CreatePhase.noConfusion) ?_ first
    · exact scan_refused phase scope names gets inWay
  | @scanReap id owner cluster attempt bound todo c sc held got runs phase scope names gets
      inWay holds lost =>
    refine keyed.goes runs fun first => ?_
    refine early runs rfl (by rw [phase]; exact CreatePhase.noConfusion) ?_ first
    · exact scan_refused phase scope names gets inWay
  | reapRead runs phase | leftBehind runs phase | holderReap runs phase =>
    have told := keyed.at_ runs phase
    exact keyed.goes runs told
  | reapFails runs phase | holderBusy runs phase =>
    have told := keyed.at_ runs phase
    exact keyed.goes runs fun first repeats => absurd repeats (told first)
  | @reapWrites id attempt rev c new post busy e runs phase =>
    have told := keyed.at_ runs phase
    have ahead : w.Ahead (w.writes e new) := ⟨subset_cons_self _ _, Nat.le_refl _⟩
    refine keyed.moves ahead
      (fun first mem => mem_cons_of_mem _ (keyed.created first mem))
      (fun _ mem => mem)
      (keyed.keeps ahead rfl fun _ _ _ _ there indexed => ⟨update_present there, indexed⟩)
      rfl (keyed.since id c runs) ?_
    split
    · cases post with
      | scan => trivial
      | retry => exact again_told
    · exact fun first repeats => absurd (repeats.back ahead) (told first)
  | @commit id attempt bound c runs phase passes answered =>
    have ahead : w.Ahead (w.createsRecord c.op) := ⟨subset_cons_self _ _, Nat.le_refl _⟩
    have none_ : ∀ first, ¬ Repeats (w.createsRecord c.op) c first := by
      rintro first ⟨earlier, eq, holding⟩
      exact keyed.commit passes first (keyed.since id c runs first earlier) eq (holding.back ahead)
    refine keyed.moves ahead ?_ (fun _ mem => mem_cons_of_mem _ mem)
      (keyed.created_held passes) rfl
      (fun first mem => mem_cons_of_mem _ (keyed.since id c runs first mem)) ?_
    · intro first mem
      rcases mem_cons.mp mem with rfl | earlier
      · exact mem_cons_self
      · exact mem_cons_of_mem _ (keyed.created first earlier)
    cases answered with
    | true => exact none_
    | false => exact fun _ _ => trivial
  | @refuse id attempt bound c runs =>
    refine keyed.goes runs ?_
    intro first repeats
    have some_ : c.op.requestID ≠ "" := repeats.2.1.requestID ▸ repeats.2.1.keyed
    change (if c.op.requestID = "" then none else w.store.idem[c.op.idempotencyIndex]?) = _
    rw [if_neg some_]
    exact (keyed.repeated runs repeats).2
  | @replays id existing attempt c seen got runs phase keyed' gets =>
    refine keyed.goes runs ?_
    intro first repeats
    have is_ := keyed.at_ runs phase first repeats
    rw [keyed', Option.some.injEq] at is_
    subst is_
    obtain ⟨has, eq⟩ := inv.gets_version gets
    have first_ := keyed.created first (keyed.since id c runs first repeats.1)
    have intent := (inv.stored.intent got has first first_ eq).intentDigest
    unfold replay
    split
    · next ne => exact ⟨fun equal => ne (intent.trans equal), eq⟩
    · next equal => exact ⟨intent.symm.trans (not_not.mp equal), eq⟩
  | @passKey id attempt c seen runs phase unkeyed =>
    have told := keyed.at_ runs phase
    have none_ : ∀ first, ¬ Repeats w c first := by
      intro first repeats
      exact not_gets_none (keyed.repeated runs repeats).1 (unkeyed first.id (told first repeats))
    refine keyed.goes runs ?_
    split
    · exact again_told
    · exact none_
    · exact fun first repeats => absurd repeats (none_ first)
  | @release id resource owner attempt c runs =>
    refine keyed.moves ⟨List.Subset.refl _, Nat.le_refl _⟩ keyed.created
      (fun _ mem => mem) ?_ rfl (keyed.since id c runs) again_told
    exact keyed.held
  | unreleased runs => exact keyed.goes runs again_told
  | @plans id c runs phase =>
    have told := keyed.at_ runs phase
    refine keyed.moves ⟨List.Subset.refl _, Nat.le_refl _⟩ keyed.created
      (fun _ mem => mem) keyed.held rfl (keyed.since id c runs) ⟨told, ?_⟩
    exact plan_pruned (@OpWorld.Inv.index_insert w inv c.node c.op (inv.fits runs phase))
  | @trim id c batch rest runs phase =>
    have told := keyed.at_ runs phase
    refine keyed.moves ⟨List.Subset.refl _, Nat.le_refl _⟩ keyed.created
      (fun _ mem => mem) ?_ rfl (keyed.since id c runs)
      ⟨told.1, fun batch mem => told.2 batch (mem_cons_of_mem _ mem)⟩
    intro first mem some_ holding
    obtain ⟨there, indexed⟩ := keyed.held first mem some_ holding
    refine ⟨?_, ?_⟩
    · change ((batch.foldl OpStore.drop w.store).ops[first.id]?).isSome = true
      rw [drops_ops, if_neg]
      · exact there
      intro dropped
      have pruned := told.2 batch mem_cons_self first.id dropped
      exact pruned.not_holding inv keyed mem some_ holding
    rcases @drops_idem w.store batch first.idempotencyIndex with eq | gone
    · exact eq.trans indexed
    · exact absurd holding (keys first.idempotencyIndex first.id indexed gone)
  | trimFails runs phase =>
    have told := keyed.at_ runs phase
    exact keyed.goes runs ⟨told.1, fun batch mem => told.2 batch (mem_cons_of_mem _ mem)⟩
  | trimmed runs phase => exact keyed.goes runs (keyed.at_ runs phase).1
  | updateWrites =>
    exact keyed.rests ⟨subset_cons_self _ _, Nat.le_refl _⟩ rfl rfl
      fun _ _ _ _ there indexed => ⟨update_present there, indexed⟩

theorem op_start_keyed : OpWorld.Keyed {} := by
  refine ⟨?_, ?_, ?_, ?_⟩
  · rintro first ⟨⟩
  · rintro first ⟨⟩
  · rintro id c ⟨⟩
  · rintro id c ⟨⟩

theorem clean_run_keyed (run : ReflTransGen (KeyStep capacity retention) {} w) :
    w.Inv ∧ w.Keyed := by
  induction run with
  | refl => exact ⟨op_start_inv, op_start_keyed⟩
  | tail _ step ih => exact ⟨step.1.inv ih.1, step.keyed ih.1 ih.2⟩

/-- In every clean run no step creates a second operation under a key that is held, and a
create that repeats an operation ends with that operation, with a conflict, or unanswered. -/
theorem key_runs_once (run : ReflTransGen (KeyStep capacity retention) {} w) :
    (∀ w' op, OpStep capacity retention w w' → w'.created = op :: w.created →
      ∀ first ∈ w.created, SameKey first op → ¬ Holding w first.id) ∧
    ∀ id c, w.creates id = some c → ∀ first, Repeats w c first →
      ∀ res, c.phase = .ended res → ∃ e, res = .failed e ∧ Answers first c.op e := by
  obtain ⟨inv, keyed⟩ := clean_run_keyed run
  refine ⟨?_, ?_⟩
  · intro w' op step grows
    have other : ∀ {l : List Operation}, l ≠ op :: l := by
      intro l eq
      exact absurd (congrArg List.length eq) (by simp)
    cases step with
    | commit runs phase passes =>
      have eq : _ = op := (List.cons.inj grows).1
      rw [← eq]
      exact keyed.commit passes
    | _ => exact absurd grows other
  · intro id c runs first repeats res ended
    have told := keyed.at_ runs ended
    cases res with
    | created => exact absurd repeats (told first)
    | failed e => exact ⟨e, rfl, told first repeats⟩

end

section

variable {capacity retention : Nat} {w : OpWorld}

theorem ticks (n : Nat) :
    ReflTransGen (OpStep capacity retention) w { w with now := w.now + n } := by
  induction n with
  | zero => exact .refl
  | succ n ih => exact ih.tail .tick

theorem batches_short {size : Nat} {drops : List Drop} (some_ : drops ≠ [])
    (short : drops.length ≤ size) : batches size drops = [drops] := by
  have pos : size ≠ 0 := by
    have := length_pos_iff.mpr some_
    omega
  rw [batches, if_neg (by simp [some_, pos]), take_of_length_le short,
    drop_of_length_le short, batches, if_pos (.inl rfl)]

theorem plan_short {index : StrMap Operation} {drops : List Drop}
    (planned : trimDrops retention w.now index.size index.toList = drops) (some_ : drops ≠ [])
    (short : drops.length ≤ maxTxnOps) : w.plan retention index = [drops] := by
  unfold OpWorld.plan
  rw [planned, batches_short some_ short]

end

theorem photosOp_runs_once : ∃ w, ReflTransGen (KeyStep 256 1000) {} w ∧ photosOp ∈ w.created ∧
    ∀ w' op, OpStep 256 1000 w w' → w'.created = op :: w.created → ¬ SameKey photosOp op := by
  have alone : ∀ {w w' : OpWorld}, OpStep 256 1000 w w' → w.store.idem = ∅ →
      (∀ id c, w.creates id = some c → c.since = []) → KeyStep 256 1000 w w' := by
    intro w w' step empty first
    refine ⟨step, ?_, ?_⟩
    · intro index owner held
      rw [empty] at held
      simp at held
    intro id c runs _ other repeats
    have none_ := repeats.1
    rw [first id c runs] at none_
    cases none_
  have only : ∀ (w : OpWorld) (c : CreateCall), w.creates = (fun _ => none) → c.since = [] →
      ∀ phase id d, (w.goes c phase).creates id = some d → d.since = [] := by
    intro w c none_ first phase id d runs
    change Function.update w.creates c.op.id _ id = some d at runs
    by_cases eq : id = c.op.id
    · rw [eq, update_self, Option.some.injEq] at runs
      rw [← runs]
      exact first
    · rw [update_of_ne eq, none_] at runs
      cases runs
  have run1 : ReflTransGen (KeyStep 256 1000) {} _ :=
    .single (alone (.enter "n1" photosOp rfl) rfl fun id c runs => by cases runs)
  have run2 := run1.tail (alone (@OpStep.count _ _ _ "1-a" _ _ rfl rfl (Or.inr (by decide)))
    rfl (only _ _ rfl rfl _))
  rw [goes_goes] at run2
  have run3 := run2.tail (alone (@OpStep.noScan _ _ _ "1-a" _ _ rfl rfl
    (by rintro sc ⟨⟩; decide)) rfl (only _ _ rfl rfl _))
  rw [goes_goes] at run3
  have run4 := run3.tail (alone (@OpStep.commit _ _ _ "1-a" _ _ _ rfl rfl (by decide) true)
    rfl (only _ _ rfl rfl _))
  refine ⟨_, run4, mem_cons_self, ?_⟩
  intro w' op step grows eq
  refine (key_runs_once run4).1 w' op step grows photosOp mem_cons_self eq ?_
  unfold Holding
  decide

def audioOp : Operation :=
  { id := "3-c", kind := .ramp, node := "n1", scope := some { resource := "placement:acme/audio" } }

def photosDrops : List Drop := [.record "1-a", .key photosOp.idempotencyIndex]

theorem key_ran_twice : (∃ w w' first op, ReflTransGen (OpStep 256 1) {} w ∧ OpStep 256 1 w w' ∧
      w'.created = op :: w.created ∧ first ∈ w.created ∧ SameKey first op ∧
      first.intentDigest = op.intentDigest ∧ Holding w first.id) ∧
    ∃ w c first, ReflTransGen (OpStep 1 1000) {} w ∧ w.creates "2-b" = some c ∧
      Repeats w c first ∧ c.phase = .ended (.failed (.capacity 1)) := by
  refine ⟨?_, ?_⟩
  · have run1 : ReflTransGen (OpStep 256 1) {} _ :=
      @create_run 256 1 {} photosOp "n1" rfl (by decide) (by rintro sc ⟨⟩; decide)
        (by decide)
    have run2 := run1.trans (@update_run _ _ _ photosOp (photosEnded "1-a" 0) ⟨1, 1, photosOp⟩ 0 rfl
      mem_cons_self ⟨rfl, rfl, rfl, rfl, rfl, rfl, rfl, fun _ => rfl⟩
      getElem?_insert_self rfl)
    have run3 := run2.tail (@OpStep.deliver _ _ _ "n1" (photosEnded "1-a" 0) mem_cons_self)
    have run4 := run3.tail (@OpStep.deliver _ _ _ "n2" (photosEnded "1-a" 0) mem_cons_self)
    have run5 := run4.trans (ticks 604800)
    have run6 := run5.trans (@create_run _ _ _ videoOp "n2" rfl (by decide)
      (by rintro sc ⟨⟩; decide) (by decide))
    have run7 := run6.tail (@OpStep.plans _ _ _ "2-b" _ rfl rfl)
    have run8 := run7.trans (@create_run _ _ _ audioOp "n1" rfl (by decide)
      (by rintro sc ⟨⟩; decide) (by decide))
    have run9 := run8.tail (@OpStep.plans _ _ _ "3-c" _ rfl rfl)
    have run10 := run9.tail (@OpStep.trim _ _ _ "3-c" _ photosDrops [] rfl
      (congrArg CreatePhase.trimming (plan_short (by decide) (by decide) (by decide))))
    have run11 := run10.trans (@create_run _ _ _ { photosOp with id := "4-d" } "n1" rfl
      (by decide) (by rintro sc ⟨⟩; decide) (by decide))
    have run12 := run11.trans (@update_run _ _ _ { photosOp with id := "4-d" }
      (photosEnded "4-d" 604800) ⟨6, 6, { photosOp with id := "4-d" }⟩ 1 rfl
      mem_cons_self ⟨rfl, rfl, rfl, rfl, rfl, rfl, rfl, fun _ => rfl⟩
      getElem?_insert_self rfl)
    have run13 := run12.tail (@OpStep.trim _ _ _ "2-b" _ photosDrops [] rfl
      (congrArg CreatePhase.trimming (plan_short (by decide) (by decide) (by decide))))
    have run14 := run13.trans (@ready_run _ _ _ { photosOp with id := "5-e" } "n1" rfl
      (by decide) (by rintro sc ⟨⟩; decide))
    refine ⟨_, _, { photosOp with id := "4-d" }, { photosOp with id := "5-e" }, run14,
      @OpStep.commit _ _ _ "5-e" _ _ _ rfl rfl (by decide) true, rfl, mem_cons_self,
      ⟨by decide, rfl, rfl, rfl⟩, rfl, ?_⟩
    unfold Holding
    decide
  · have run1 : ReflTransGen (OpStep 1 1000) {} _ :=
      @create_run 1 1000 {} photosOp "n1" rfl (by decide) (by rintro sc ⟨⟩; decide)
        (by decide)
    have run2 := run1.tail (.enter "n1" { photosOp with id := "2-b" } rfl)
    have run3 := run2.tail (@OpStep.overCapacity _ _ _ "2-b" _ _ _ rfl rfl rfl (by decide))
    refine ⟨_, _, photosOp, run3, rfl, ⟨mem_cons_self, ⟨by decide, rfl, rfl, rfl⟩, ?_⟩, rfl⟩
    unfold Holding
    decide

end Shunt.Cp
