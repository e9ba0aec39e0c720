/-
Every step of the operation calls keeps the reservations sound, and so does every run:
no two unfinished records conflict, and ending a record frees its own reservation.
-/

import Shunt.Cp.Reservations

namespace Shunt.Cp

open List Option Std.ExtTreeMap Relation

open Control (Operation Scope isPlacement)
open Function (update_idem update_self)

section

variable {capacity retention : Nat} {w w' : OpWorld} {c : CreateCall} {id : String}
  {phase : CreatePhase}
variable {history : List Operation}

theorem OpWorld.Inv.fits (inv : w.Inv) (runs : w.creates id = some c)
    (at_ : c.phase = phase) : phase.Fits w c.op :=
  at_ ▸ (inv.creates id c runs).2

theorem OpWorld.Inv.plan_fits (inv : w.Inv) (op : Operation) {index : StrMap Operation}
    (held : ∀ id v, index[id]? = some v → v ∈ w.history ∧ v.id = id) :
    (CreatePhase.trimming (w.plan retention index)).Fits w op := by
  intro batch among id dropped
  obtain ⟨v, mem, prunable⟩ := mem_trimDrops (mem_batches among dropped)
  obtain ⟨has, same⟩ := held id v (mem_toList_iff_getElem?_eq_some.mp mem)
  have done : v.terminal := by
    unfold Operation.prunable at prunable
    simp only [Bool.and_eq_true] at prunable
    exact prunable.1.1
  exact ⟨⟨v, has, same⟩, same ▸ inv.stored.ended v has done⟩

theorem OpWorld.Inv.index_insert (inv : w.Inv) {node : String} {v : Operation}
    (held : v ∈ w.history) :
    ∀ (x : String) u, ((w.index node).insert v.id v)[x]? = some u → u ∈ w.history ∧ u.id = x := by
  intro x u found
  rw [insert_at] at found
  split at found
  · next same =>
      cases found
      exact ⟨held, same.symm⟩
  · exact inv.index node x u found

theorem made_cons {v : Operation} {x : String} (other : x ≠ v.id)
    (made : Made (v :: history) x) : Made history x := by
  obtain ⟨u, mem, same⟩ := made
  rcases mem_cons.mp mem with rfl | earlier
  · exact absurd same.symm other
  · exact ⟨u, earlier, same⟩

theorem made_rewrites {old new : Operation} {x : String}
    (has : old ∈ history) (rewrites : Rewrites old new) (made : Made (new :: history) x) :
    Made history x := by
  obtain ⟨u, mem, same⟩ := made
  rcases mem_cons.mp mem with rfl | earlier
  · exact ⟨old, has, rewrites.id.symm.trans same⟩
  · exact ⟨u, earlier, same⟩

theorem OpWorld.Inv.writes (inv : w.Inv) {new : Operation} {e : OpEntry}
    (updating : Updating w new (some e.modRev)) (found : w.store.ops[new.id]? = some e) :
    w.Before (w.writes e new) ∧ Stored (w.writes e new).store (w.writes e new).history ∧
      (∀ x, Made (w.writes e new).history x → Made w.history x) ∧
      (new.terminal → Over (w.writes e new).store new.id) := by
  have rewrites := updating.rewrites inv.stored found rfl
  have has := (inv.stored.entry new.id e found).2.1
  have stored := inv.stored.update found rewrites
  exact ⟨Later.update found rewrites, stored, fun x made => made_rewrites has rewrites made,
    fun done => stored.ended new mem_cons_self done⟩

theorem OpStep.inv (step : OpStep capacity retention w w') (inv : w.Inv) : w'.Inv := by
  cases step with
  | tick | liveness =>
    exact inv.rests (.refl w) inv.stored inv.index rfl rfl fun _ made => made
  | directory =>
    exact inv.rests (Later.thin (Nat.le_succ _) fun _ _ found => found)
      (inv.stored.thin (Nat.le_succ _) (fun _ _ found => found) (fun _ _ held => held)
        inv.stored.reserved rfl) inv.index rfl rfl fun _ made => made
  | deliver node held => exact inv.reindexes (inv.index_insert held)
  | forgets node =>
    refine inv.reindexes ?_
    intro x v found
    rw [erase_at] at found
    split at found
    · cases found
    · exact inv.index node x v found
  | enter node op fresh =>
    refine inv.goes fun made => inv.known op.id made fresh
  | stop runs going | overCapacity runs phase scope full
  | scanBusy runs phase scope names gets inWay holds | reapFails runs phase
  | replays runs phase keyed gets | holderBusy runs phase scope gets unfinished
  | trimmed runs phase => exact inv.goes trivial
  | count runs phase =>
    have fresh := inv.fits runs phase
    exact inv.goes fresh
  | @scan id attempt c sc runs phase =>
    refine inv.goes ⟨inv.fits runs phase, Nat.le_refl _, ?_⟩
    rintro owner ⟨own, cl, held, r, -, -, unfinished, placement, -⟩
    exact mem_placementOwners (inv.stored.reserved owner held r unfinished) placement
  | noScan runs phase =>
    exact inv.goes ⟨inv.fits runs phase, fun b no => by cases no⟩
  | scanned runs phase =>
    obtain ⟨fresh, lt, todo⟩ := inv.fits runs phase
    refine inv.goes ⟨fresh, ?_⟩
    intro b is_
    cases is_
    exact ⟨lt, fun id blocking => absurd (todo id blocking) not_mem_nil⟩
  | @scanPast id owner cluster attempt bound todo c sc got runs phase scope names gets clear =>
    obtain ⟨fresh, lt, blockers⟩ := inv.fits runs phase
    refine inv.goes ⟨fresh, lt, ?_⟩
    intro x blocking
    rcases mem_cons.mp (blockers x blocking) with rfl | later
    · have inWay := inv.gets_blocking gets scope names blocking
      rw [clear] at inWay
      cases inWay
    · exact later
  | @scanReap id owner cluster attempt bound todo c sc held got runs phase scope names gets
      inWay holds lost =>
    obtain ⟨fresh, lt, blockers⟩ := inv.fits runs phase
    obtain ⟨updating, same⟩ := inv.orphan_updating gets (inTheWay_unfinished inWay)
    refine inv.goes ⟨fresh, updating, lt, ?_⟩
    intro x blocking
    rw [same]
    exact mem_cons.mp (blockers x blocking)
  | @reapRead id attempt c new post busy e runs phase found next =>
    have fits := inv.fits runs phase
    cases post with
    | scan =>
      exact inv.goes ⟨fits.1, fits.2.1.reads inv.stored found next, fits.2.2⟩
    | retry => exact inv.goes ⟨fits.1, fits.2.reads inv.stored found next⟩
  | @reapWrites id attempt rev c new post busy e runs phase found same =>
    subst same
    have fits := inv.fits runs phase
    have updating : Updating w new (some e.modRev) := by
      cases post with
      | scan => exact fits.2.1
      | retry => exact fits.2
    have fresh : ¬ Made w.history c.op.id := by
      cases post with
      | scan | retry => exact fits.1
    obtain ⟨prev, stored, apart, done⟩ := inv.writes updating found
    refine inv.moves prev stored rfl rfl rfl (fun x _ made => apart x made) ?_
    split
    · next ends =>
        have fresh' := fun made => fresh (apart c.op.id made)
        cases post with
        | retry => exact again_fits fresh'
        | scan =>
          refine ⟨fresh', fits.2.2.1.trans prev.rev, ?_⟩
          intro x blocking
          refine (fits.2.2.2 x (blocking.back prev fits.2.2.1)).resolve_left ?_
          rintro rfl
          obtain ⟨own, cl, held, r, -, -, ⟨e', found', unended, -⟩, -⟩ := blocking
          rw [done (Bool.and_eq_true_iff.mp ends).2 e' found'] at unended
          cases unended
    · trivial
  | @commit id attempt bound c runs phase passes told =>
    obtain ⟨fresh, clear⟩ := inv.fits runs phase
    refine inv.moves (Later.create fresh)
      (inv.stored.create fresh passes fun b is_ => (clear b is_).2) rfl rfl rfl
      (fun x other made => made_cons other made) ?_
    cases told with
    | true => exact mem_cons_self
    | false => trivial
  | @refuse id attempt bound c runs phase =>
    refine inv.goes ⟨(inv.fits runs phase).1, ?_, ?_⟩
    · intro owner seen
      obtain ⟨sc, -, held⟩ := bind_eq_some_iff.mp seen
      exact inv.stored.owners sc.resource owner held
    intro cl owner seen
    obtain ⟨sc, -, found⟩ := bind_eq_some_iff.mp seen
    split at found
    · cases found
    obtain ⟨x, -, held⟩ := exists_of_findSome?_eq_some found
    obtain ⟨y, owns, pair⟩ := map_eq_some_iff.mp held
    cases pair
    exact inv.stored.owners _ owner owns
  | @passKey id attempt c seen runs phase =>
    obtain ⟨fresh, scopeOwner, clusterOwner⟩ := inv.fits runs phase
    refine inv.goes ?_
    split
    · exact again_fits fresh
    · next owner held busy =>
        refine ⟨fresh, ?_⟩
        rcases refusal_busy busy with is_ | ⟨cl, is_⟩
        · exact scopeOwner owner is_
        · exact clusterOwner cl owner is_
    · trivial
  | leftBehind runs phase scope gets gone =>
    obtain ⟨fresh, made⟩ := inv.fits runs phase
    exact inv.goes ⟨fresh, made, inv.gets_over gets gone⟩
  | holderReap runs phase scope gets unfinished =>
    exact inv.goes ⟨(inv.fits runs phase).1, (inv.orphan_updating gets unfinished).1⟩
  | @release id resource owner attempt c runs phase =>
    obtain ⟨fresh, made, done⟩ := inv.fits runs phase
    exact inv.moves (Later.thin (Nat.le_succ _) fun _ _ found => found)
      (inv.stored.release done) rfl rfl rfl (fun _ _ made => made) (again_fits fresh)
  | unreleased runs phase => exact inv.goes (again_fits (inv.fits runs phase).1)
  | @plans id c runs phase =>
    have held := @OpWorld.Inv.index_insert w inv c.node c.op (inv.fits runs phase)
    have indexed : (w.reindexes c.node ((w.index c.node).insert c.op.id c.op)).Inv :=
      inv.reindexes held
    exact indexed.goes (inv.plan_fits c.op held)
  | @trim id c batch rest runs phase =>
    have prev : w.Before { w with store := w.store.dropBatch batch } :=
      Later.thin (Nat.le_succ _) dropBatch_ops
    have later : (CreatePhase.trimming rest).Fits w c.op := fun other mem =>
      inv.fits runs phase other (mem_cons_of_mem _ mem)
    exact inv.moves prev (inv.stored.dropBatch batch) rfl rfl rfl (fun _ _ made => made)
      (later.mono prev fun made => made)
  | trimFails runs phase =>
    refine inv.goes ?_
    intro batch mem
    exact inv.fits runs phase batch (mem_cons_of_mem _ mem)
  | update fresh read rewrites =>
    exact inv.updates_ ⟨⟨_, read, rewrites⟩, fun r no => by cases no⟩
  | @updateReads i u e runs going unread found next =>
    exact inv.updates_ ((inv.updates i u runs).reads inv.stored found next)
  | @updateWrites i rev u e runs going read found same =>
    subst same
    have updating := inv.updates i u runs
    rw [read] at updating
    obtain ⟨prev, stored, apart, -⟩ := inv.writes updating found
    have written : (w.writes e u.new).Inv := by
      refine inv.rests prev stored ?_ rfl rfl apart
      intro node x v cached
      obtain ⟨mem, its⟩ := inv.index node x v cached
      exact ⟨prev.versions mem, its⟩
    refine written.updates_ ?_
    change Updating _ u.new u.rev
    rw [read]
    exact updating.mono prev
  | @updateEnds i u runs => exact inv.updates_ (inv.updates i u runs)

theorem op_start_inv : OpWorld.Inv {} := by
  have none_ : ∀ id sc r, ¬ Unfinished {} id sc r := by
    rintro id sc r ⟨e, found, -⟩
    simp at found
  refine ⟨⟨by simp, by simp, by simp, by simp, by simp, ?_, by simp, ?_, Nat.le_refl _, ?_⟩,
    by simp, by simp, by simp, by simp [Made]⟩
  · exact fun id sc r unfinished => absurd unfinished (none_ id sc r)
  · exact fun id sc r unfinished => absurd unfinished (none_ id sc r)
  · exact fun id _ sc _ r _ unfinished => absurd unfinished (none_ id sc r)

theorem op_run_inv (run : ReflTransGen (OpStep capacity retention) {} w) : w.Inv := by
  induction run with
  | refl => exact op_start_inv
  | tail _ step ih => exact step.inv ih

inductive StoreStep (st : OpStore) : OpStore → Prop where
  | same : StoreStep st st
  | directory (identity : Option Directory.Identity) (generations : StrMap Int) :
      StoreStep st { st with rev := st.rev + 1, identity := identity, generations := generations }
  | create {op bound} (passes : st.createCompares op bound = true) : StoreStep st (st.create op)
  | update {e new} (found : st.ops[new.id]? = some e)
      (rewrites : Rewrites e.op new) : StoreStep st (st.update e new)
  | release {owner} (resource : String) (done : Over st owner) :
      StoreStep st (st.release resource owner)
  | trim {batch} (done : ∀ id, Drop.record id ∈ batch → Over st id) :
      StoreStep st (st.dropBatch batch)

theorem OpStep.store (step : OpStep capacity retention w w') (inv : w.Inv) :
    StoreStep w.store w'.store := by
  cases step with
  | directory identity generations => exact .directory identity generations
  | @reapWrites id attempt rev c new post busy e runs phase found same =>
    subst same
    have updating : Updating w new (some e.modRev) := by
      have fits := inv.fits runs phase
      cases post with
      | scan => exact fits.2.1
      | retry => exact fits.2
    exact .update found (updating.rewrites inv.stored found rfl)
  | commit runs phase passes => exact .create passes
  | @release id resource owner attempt c runs phase =>
    exact .release resource (inv.fits runs phase).2.2
  | @trim id c batch rest runs phase =>
    exact .trim fun x dropped => (inv.fits runs phase batch mem_cons_self x dropped).2
  | @updateWrites i rev u e runs going read found same =>
    subst same
    exact .update found ((inv.updates i u runs).rewrites inv.stored found read)
  | _ => exact .same

theorem StoreStep.frees {st st' : OpStore} {sc : Scope} {r : Nat} (step : StoreStep st st')
    (stored : Stored st history) (unfinished : Unfinished st id sc r) (done : Over st' id) :
    st'.scopes[sc.resource]? = none ∧
      ∀ resource, resource ≠ sc.resource → st'.scopes[resource]? = st.scopes[resource]? := by
  have all := unfinished
  obtain ⟨e, found, runs, scope, created⟩ := unfinished
  have unended : ¬ Over st id := fun ended => by
    rw [ended e found] at runs
    cases runs
  cases step with
  | same | directory | release => exact absurd done unended
  | @create op bound passes =>
    refine absurd (done e ?_) (by rw [runs]; decide)
    rw [create_ops, if_neg]
    · exact found
    rintro rfl
    rw [(createCompares_facts passes).1] at found
    cases found
  | @update e' new found' rewrites =>
    by_cases same : id = new.id
    · subst same
      rw [found, Option.some.injEq] at found'
      subst found'
      have its : new.scope = some sc := rewrites.scope.trans scope
      have ends : new.terminal := by
        refine done ⟨e.createRev, st.rev + 1, new⟩ ?_
        rw [update_ops, if_pos rfl]
      have holds := stored.reserved new.id sc r all
      rw [update_scopes its, if_pos ends]
      refine ⟨by rw [freed_at, if_pos ⟨rfl, holds⟩], ?_⟩
      intro resource other
      rw [freed_at, if_neg fun both => other both.1]
    · refine absurd (done e ?_) (by rw [runs]; decide)
      rw [update_ops, if_neg same]
      exact found
  | @trim batch others =>
    refine absurd (done e ?_) (by rw [runs]; decide)
    change (batch.foldl OpStore.drop st).ops[id]? = some e
    rw [drops_ops, if_neg fun dropped => unended (others id dropped)]
    exact found

/-- Over every run: two unfinished records never conflict, each holds the reservation of its
own resource, and the write that ends one frees that reservation and no other. -/
theorem scopes_exclude (run : ReflTransGen (OpStep capacity retention) {} w) :
    (∀ id id' sc sc' r r', Unfinished w.store id sc r → Unfinished w.store id' sc' r' →
      id ≠ id' → ¬ Conflicts sc sc') ∧
    (∀ id sc r, Unfinished w.store id sc r → w.store.scopes[sc.resource]? = some id) ∧
    ∀ w', OpStep capacity retention w w' → ∀ id sc r, Unfinished w.store id sc r →
      Over w'.store id → w'.store.scopes[sc.resource]? = none ∧
        ∀ resource, resource ≠ sc.resource →
          w'.store.scopes[resource]? = w.store.scopes[resource]? := by
  have inv := op_run_inv run
  refine ⟨inv.stored.apart, inv.stored.reserved, ?_⟩
  intro w' step id sc r unfinished done
  exact (step.store inv).frees inv.stored unfinished done

/-- Over every run: no two versions of one record share a sequence number, all have one intent,
and a finished record stays finished. -/
theorem records_linear (run : ReflTransGen (OpStep capacity retention) {} w) :
    ∀ v ∈ w.history, (v.terminal = true → Over w.store v.id) ∧
      ∀ v' ∈ w.history, v.id = v'.id → SameIntent v v' ∧ (v.sequence = v'.sequence → v = v') := by
  have stored := (op_run_inv run).stored
  exact fun v mem => ⟨stored.ended v mem, fun v' mem' same =>
    ⟨stored.intent v mem v' mem' same, stored.versions v mem v' mem' same⟩⟩

theorem goes_goes (c : CreateCall) (phase next : CreatePhase) :
    (w.goes c phase).goes { c with phase := phase } next = w.goes c next := by
  unfold OpWorld.goes
  simp only [update_idem]

theorem ready_run {op : Operation} (node : String) (fresh : w.creates op.id = none)
    (room : w.store.scopes.size < capacity) (other : ∀ sc, op.scope = some sc → sc.cluster = none) :
    ReflTransGen (OpStep capacity retention) w
      (w.goes ⟨node, op, w.created, .begun 0⟩ (.ready 0 none)) := by
  have begun : ReflTransGen (OpStep capacity retention) w _ := .single (.enter node op fresh)
  have counted := begun.tail (.count (update_self _ _ _) rfl (.inr room))
  rw [goes_goes] at counted
  have ready := counted.tail (.noScan (update_self _ _ _) rfl other)
  rwa [goes_goes] at ready

theorem create_run {op : Operation} (node : String) (fresh : w.creates op.id = none)
    (room : w.store.scopes.size < capacity) (other : ∀ sc, op.scope = some sc → sc.cluster = none)
    (passes : w.store.createCompares op none) : ReflTransGen (OpStep capacity retention) w
      ((w.createsRecord op).goes ⟨node, op, w.created, .begun 0⟩ .landed) := by
  have ready : ReflTransGen (OpStep capacity retention) w _ := ready_run node fresh room other
  have landed := ready.tail (.commit (update_self _ _ _) rfl passes true)
  have same := @goes_goes (w.createsRecord op) ⟨node, op, w.created, .begun 0⟩ (.ready 0 none)
    .landed
  exact same ▸ landed

theorem update_run {old new : Operation} {e : OpEntry} (i : Nat) (fresh : w.updates i = none)
    (read : old ∈ w.history) (rewrites : Rewrites old new)
    (found : w.store.ops[new.id]? = some e) (next : e.op.sequence + 1 = new.sequence) :
    ReflTransGen (OpStep capacity retention) w
      ((w.writes e new).updates_ i ⟨new, some e.modRev, true⟩) := by
  have begun : ReflTransGen (OpStep capacity retention) w _ := .single (.update fresh read rewrites)
  have reads := begun.tail (.updateReads (update_self _ _ _) rfl rfl found next)
  have wrote := reads.tail (.updateWrites (update_self _ _ _) rfl rfl found rfl)
  unfold OpWorld.updates_ OpWorld.writes at wrote
  simp only [update_idem] at wrote
  exact wrote

end

def photosScope : Scope := { resource := "placement:acme/photos", clusters := ["east"] }

def photosOp : Operation :=
  { id := "1-a", kind := .ramp, node := "n1", scope := some photosScope, requestID := "k1" }

def videoScope : Scope := { resource := "placement:acme/video" }

def videoOp : Operation := { id := "2-b", kind := .ramp, node := "n2", scope := some videoScope }

def photosEnded (id : String) (updated : Nat) : Operation :=
  { photosOp with id := id, sequence := 2, status := .succeeded, updated := updated }

/-- Two operations on two placements, both unfinished. -/
def photosVideo : OpWorld :=
  let first := OpWorld.goes (OpWorld.createsRecord {} photosOp)
    ⟨"n1", photosOp, [], .begun 0⟩ .landed
  (first.createsRecord videoOp).goes ⟨"n2", videoOp, first.created, .begun 0⟩ .landed

theorem photosVideo_run : ReflTransGen (OpStep 256 1000) {} photosVideo := by
  have first : ReflTransGen (OpStep 256 1000) {} _ :=
    @create_run 256 1000 {} photosOp "n1" rfl (by decide) (by rintro sc ⟨⟩; decide) (by decide)
  exact first.trans
    (@create_run _ _ _ videoOp "n2" rfl (by decide) (by rintro sc ⟨⟩; decide) (by decide))

theorem photosOp_stored : photosVideo.store.ops["1-a"]? = some ⟨1, 1, photosOp⟩ :=
  (create_ops.trans (if_neg (by decide))).trans (create_ops.trans (if_pos rfl))

theorem photosEnded_rewrites : Rewrites photosOp (photosEnded "1-a" 0) :=
  ⟨rfl, rfl, rfl, rfl, rfl, rfl, rfl, fun _ => rfl⟩

/-- The update that ends the first operation frees its reservation and not the second's. -/
theorem photosEnded_frees : ∃ w w', ReflTransGen (OpStep 256 1000) {} w ∧ OpStep 256 1000 w w' ∧
    ¬ Conflicts photosScope videoScope ∧ w.store.scopes["placement:acme/photos"]? = some "1-a" ∧
    w'.store.scopes["placement:acme/photos"]? = none ∧
    w'.store.scopes["placement:acme/video"]? = w.store.scopes["placement:acme/video"]? := by
  have run1 := photosVideo_run.tail
    (@OpStep.update _ _ _ 0 photosOp (photosEnded "1-a" 0) rfl (by decide) photosEnded_rewrites)
  have run2 := run1.tail (@OpStep.updateReads _ _ _ 0 _ _ rfl rfl rfl photosOp_stored rfl)
  have step := @OpStep.updateWrites 256 1000
    ((photosVideo.updates_ 0 ⟨photosEnded "1-a" 0, none, false⟩).updates_ 0
      ⟨photosEnded "1-a" 0, some 1, false⟩) 0 1 _ _ rfl rfl rfl photosOp_stored rfl
  obtain ⟨apart, reserved, frees⟩ := scopes_exclude run2
  have first : Unfinished photosVideo.store "1-a" photosScope 1 :=
    ⟨_, photosOp_stored, rfl, rfl, rfl⟩
  have second : Unfinished photosVideo.store "2-b" videoScope 2 :=
    ⟨⟨2, 2, videoOp⟩, create_ops.trans (if_pos rfl), rfl, rfl, rfl⟩
  have gone : Over (photosVideo.store.update ⟨1, 1, photosOp⟩ (photosEnded "1-a" 0)) "1-a" := by
    intro e found
    have wrote := update_ops.symm.trans found
    cases wrote
    rfl
  obtain ⟨freed, others⟩ := frees _ step "1-a" photosScope 1 first gone
  exact ⟨_, _, run2, step, apart "1-a" "2-b" _ _ 1 2 first second (by decide),
    reserved _ _ _ first, freed, others _ (by decide)⟩

theorem photosEnded_linear : ∃ w, ReflTransGen (OpStep 256 1000) {} w ∧
    photosOp ∈ w.history ∧ photosEnded "1-a" 0 ∈ w.history ∧ Over w.store "1-a" ∧
    SameIntent photosOp (photosEnded "1-a" 0) := by
  have run := photosVideo_run.trans (@update_run _ _ _ photosOp (photosEnded "1-a" 0) _ 0 rfl
    (by decide) photosEnded_rewrites photosOp_stored rfl)
  have ended : photosEnded "1-a" 0 ∈ (photosVideo.writes ⟨1, 1, photosOp⟩
    (photosEnded "1-a" 0)).history := mem_cons_self
  have begun : photosOp ∈ (photosVideo.writes ⟨1, 1, photosOp⟩ (photosEnded "1-a" 0)).history :=
    mem_cons_of_mem _ (by decide)
  exact ⟨_, run, begun, ended, (records_linear run _ ended).1 rfl,
    ((records_linear run _ begun).2 _ ended rfl).1⟩

end Shunt.Cp
