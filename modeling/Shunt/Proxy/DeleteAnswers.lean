/-
What DeleteObjects on a spread bucket answers.

Every leg the request is sent to answers for every object.  An object's entry is the one of
the leg its key is on: counted over all legs it is there once, or once as an error when the
source of a move did not answer for a key that stays on it.
-/

import Shunt.Proxy.Requests
import Shunt.Proxy.SpreadDelete

namespace Shunt.Proxy

open Admission List
open Option hiding or_assoc
open Directory
open Migrate

section

variable {p : Placement}

theorem listingLegs_nodup (pre : Key) : (p.listingLegs pre).Nodup := by
  unfold Placement.listingLegs
  exact Std.ExtTreeMap.distinct_keys.imp fun apart eq => apart (Std.compare_eq_iff_eq.mpr eq)

theorem deleteLegs_perm : (deleteLegs p).Perm (p.listingLegs []) := by
  have each : ∀ ids legs : List String, (ids.foldl (fun legs id =>
      if p.move.any fun m => decide (id = m.source) then id :: legs else legs ++ [id]) legs).Perm
        (legs ++ ids) := by
    intro ids
    induction ids with
    | nil =>
      intro legs
      rw [append_nil]
      exact List.Perm.refl _
    | cons id rest ih =>
      intro legs
      rw [foldl_cons]
      split
      · exact (ih _).trans perm_middle.symm
      refine (ih _).trans ?_
      rw [append_assoc]
      exact List.Perm.refl _
  exact each (p.listingLegs []) []

theorem mem_deleteLegs {id : String} : id ∈ deleteLegs p ↔ id ∈ p.listingLegs [] :=
  deleteLegs_perm.mem_iff

theorem deleteLegs_nodup : (deleteLegs p).Nodup := deleteLegs_perm.nodup_iff.mpr
    (listingLegs_nodup [])

theorem deleteLegs_ne_nil (form : SpreadForm p) : deleteLegs p ≠ [] := by
  have owner : ownerID (fun _ => 0) p [] ∈ p.listingLegs [] := ownerID_listed form.toSpreadCore rfl
  exact ne_nil_of_mem (mem_deleteLegs.mpr owner)

theorem source_iff {id : String} : (p.move.any fun m => decide (id = m.source)) ↔
    ∃ m, p.move = some m ∧ id = m.source := by
  cases p.move with
  | none | some => simp

theorem Collected.mark_kept (c : Collected) (dispatched source : Bool) :
    (c.mark dispatched source).results = c.results ∧
      (c.mark dispatched source).sourceErr = c.sourceErr := by
  unfold Collected.mark
  split
  · split
    · exact ⟨rfl, rfl⟩
    · exact ⟨rfl, rfl⟩
  · exact ⟨rfl, rfl⟩

/-- What collecting the legs' answers leaves, when none of them fails the request. -/
structure Gathered (p : Placement) (backend : String → LegReply) (legs : List String)
    (c c' : Collected) : Prop where
  results : c'.results =
    c.results ++ legs.filterMap fun id => (backend id).read.toOption.map (Prod.mk id)
  failed : ∀ id ∈ legs, ∀ err, (backend id).read = .error err → ∃ m, p.move = some m ∧ id = m.source
  lost : ∀ err, c'.sourceErr = some err → c.sourceErr = some err ∨
    ∃ m, p.move = some m ∧ (backend m.source).read = .error err
  kept : ∀ m err, p.move = some m → (backend m.source).read = .error err →
    m.source ∈ legs ∨ c.sourceErr = some err → c'.sourceErr = some err

theorem collect_spec {backend : String → LegReply} {legs : List String} {c c' : Collected}
    (collected : collect p backend legs c = (c', none)) : Gathered p backend legs c c' := by
  induction legs generalizing c with
  | nil =>
    cases collected
    exact ⟨by simp, nofun, fun _ given => .inl given, fun _ _ _ _ given => by simpa using given⟩
  | cons id rest ih =>
    unfold collect at collected
    have eq := c.mark_kept (backend id).dispatched (p.move.any fun m => decide (id = m.source))
    cases answer : (backend id).read with
    | ok =>
      simp only [answer] at collected
      have gathered := ih collected
      refine ⟨?_, ?_, ?_, ?_⟩
      · rw [gathered.results, eq.1]
        simp [answer, Except.toOption]
      · intro other mem err failed
        rcases mem_cons.mp mem with rfl | later
        · rw [answer] at failed
          cases failed
        · exact gathered.failed other later err failed
      · intro err lost
        rw [← eq.2]
        exact gathered.lost err lost
      intro m err moves failed given
      refine gathered.kept m err moves failed ?_
      rcases given with mem | prev
      · rcases mem_cons.mp mem with here | later
        · rw [here, answer] at failed
          cases failed
        · exact .inl later
      · exact .inr (eq.2.trans prev)
    | error =>
      simp only [answer] at collected
      by_cases source : (p.move.any fun m => decide (id = m.source))
      · rw [if_pos source] at collected
        have gathered := ih collected
        obtain ⟨m, moves, rfl⟩ := source_iff.mp source
        have only : ∀ m', p.move = some m' → m' = m := fun m' moves' =>
          some.inj (moves'.symm.trans moves)
        refine ⟨?_, ?_, ?_, ?_⟩
        · rw [gathered.results, eq.1]
          simp [answer, Except.toOption]
        · intro other mem err' failed
          rcases mem_cons.mp mem with rfl | later
          · exact ⟨m, moves, rfl⟩
          · exact gathered.failed other later err' failed
        · intro err' lost
          rcases gathered.lost err' lost with here | there
          · cases here
            exact .inr ⟨m, moves, answer⟩
          · exact .inr there
        intro m' err' moves' failed _
        refine gathered.kept m' err' moves' failed (.inr ?_)
        rw [only m' moves', answer] at failed
        cases failed
        rfl
      · rw [if_neg source] at collected
        cases collected

end

section

variable {results : List (String × DeleteResult)}

def DeleteResult.keys (res : DeleteResult) : List Key :=
  res.deleted.map DeletedObject.key ++ res.errors.map DeleteError.key

variable {hash : Key → Hash} {p : Placement} {key : Key}

theorem count_filter_key {α : Type} (items : List α) (keyOf : α → Key) (id : String) :
    (((items.filter fun x => decide (answeringLeg hash p (keyOf x) = id)).map keyOf).count key) =
      if answeringLeg hash p key = id then (items.map keyOf).count key else 0 := by
  induction items with
  | nil => simp
  | cons x rest ih =>
    by_cases here : answeringLeg hash p (keyOf x) = id
    · rw [filter_cons_of_pos (by simpa using here), map_cons, map_cons, count_cons, count_cons, ih]
      by_cases eq : keyOf x = key
      · rw [eq] at here
        simp [here, eq]
      · simp [eq]
    rw [filter_cons_of_neg (by simpa using here), ih, map_cons, count_cons]
    by_cases eq : keyOf x = key
    · rw [eq] at here
      simp [here]
    · simp [eq]

theorem count_mergeResults_cons (id : String) (res : DeleteResult)
    (rest : List (String × DeleteResult)) :
    (mergeResults hash p ((id, res) :: rest)).keys.count key =
      (if answeringLeg hash p key = id then res.keys.count key else 0) +
        (mergeResults hash p rest).keys.count key := by
  simp only [mergeResults, DeleteResult.keys, flatMap_cons, map_append, count_append,
    count_filter_key]
  split
  · omega
  · omega

theorem count_mergeResults_none (away : answeringLeg hash p key ∉ results.map Prod.fst) :
    (mergeResults hash p results).keys.count key = 0 := by
  induction results with
  | nil => rfl
  | cons r rest ih =>
    obtain ⟨id, res⟩ := r
    simp only [map_cons, mem_cons, not_or] at away
    rw [count_mergeResults_cons, if_neg away.1, ih away.2]

theorem count_mergeResults {res : DeleteResult} (uniq : (results.map Prod.fst).Nodup)
    (mem : (answeringLeg hash p key, res) ∈ results) :
    (mergeResults hash p results).keys.count key = res.keys.count key := by
  induction results with
  | nil => cases mem
  | cons r rest ih =>
    obtain ⟨id, other⟩ := r
    obtain ⟨apart, distinctRest⟩ := nodup_cons.mp uniq
    rw [count_mergeResults_cons]
    rcases mem_cons.mp mem with eq | later
    · cases eq
      rw [if_pos rfl, count_mergeResults_none apart, Nat.add_zero]
    have elsewhere : answeringLeg hash p key ≠ id := by
      rintro rfl
      exact apart (List.mem_map.mpr ⟨_, later, rfl⟩)
    rw [if_neg elsewhere, ih distinctRest later, Nat.zero_add]

theorem mem_answered {β : Type} (part : DeleteResult → List β) (keyOf : β → Key) {b : β} :
    b ∈ results.flatMap (fun r => (part r.2).filter fun b =>
        decide (answeringLeg hash p (keyOf b) = r.1)) ↔
      ∃ res, (answeringLeg hash p (keyOf b), res) ∈ results ∧ b ∈ part res := by
  simp only [mem_flatMap, List.mem_filter, decide_eq_true_eq]
  constructor
  · rintro ⟨r, mem, isIn, eq⟩
    exact ⟨r.2, by rw [eq]; exact mem, isIn⟩
  · rintro ⟨res, mem, isIn⟩
    exact ⟨_, mem, isIn, rfl⟩

theorem mem_mergeResults_deleted {d : DeletedObject} : d ∈ (mergeResults hash p results).deleted ↔
      ∃ res, (answeringLeg hash p d.key, res) ∈ results ∧ d ∈ res.deleted :=
  mem_answered DeleteResult.deleted DeletedObject.key

theorem mem_mergeResults_errors {e : DeleteError} : e ∈ (mergeResults hash p results).errors ↔
      ∃ res, (answeringLeg hash p e.key, res) ∈ results ∧ e ∈ res.errors :=
  mem_answered DeleteResult.errors DeleteError.key

end

section

variable (named : String → Key → Hash) (p : Placement) (backend : String → LegReply)
variable {c : Collected} {out : DeleteResult}

def keyLeg (key : Key) : String :=
  match p.move with
  | none => ownerID (named p.keyHash) p key
  | some m =>
    if inMove (named p.keyHash) p key then m.dest else ownerID (named p.keyHash) p key

/-- An answer with one entry for each object, from the leg that answers for its key: deleted
only if that leg reports it deleted, and an error of its own only if that leg has no answer. -/
structure FromKeyLegs (objects : List DeleteObject) (out : DeleteResult) : Prop where
  once : out.keys.Perm (objects.map DeleteObject.key)
  deleted : ∀ d ∈ out.deleted, ∃ res,
    (backend (keyLeg named p d.key)).read = .ok res ∧ d ∈ res.deleted
  errors : ∀ e ∈ out.errors,
    (∃ res, (backend (keyLeg named p e.key)).read = .ok res ∧ e ∈ res.errors) ∨
      ∃ err, (backend (keyLeg named p e.key)).read = .error err

/-- The request fails as a whole or answers for each object, and is sent to no leg when this
build does not have the hash that splits the keys. -/
def AnswersEachKey (objects : List DeleteObject) (o : DeleteOutcome) : Prop :=
  (∀ out, o.reply = .result out → FromKeyLegs named p backend objects out) ∧
    (p.keyHash ≠ rampHash → o.sent = [])

/-- A request to a bucket at rest is turned away: the bucket or a leg's cluster is read-only
or paused, a cluster is not there, or the bucket's gate does not let it in. -/
def TurnedAway (rt : DeleteRuntime) : Prop :=
  p.readOnly = true ∨ (∃ b, p.barrier = some b ∧ b.kind = .mutations) ∨
    (∃ id ∈ p.listingLegs [], rt.connected (legIn p.legs id).cluster = false ∨
      ∃ c, rt.clusters[(legIn p.legs id).cluster]? = some c ∧
        (c.readOnly = true ∨ c.barrier ≠ none)) ∨
    rt.gate.closed .mutations ≠ "" ∨ rt.version < rt.gate.from_

variable {named p backend} {rt : DeleteRuntime} {objects : List DeleteObject}

theorem answeringLeg_known (named : String → Key → Hash) (form : SpreadForm p)
    (has : p.keyHash = rampHash) (key : Key) :
    answeringLeg (named rampHash) p key = keyLeg named p key := by
  cases moves : p.move with
  | none | some =>
    simp only [answeringLeg, keyLeg, moves, ownerOf_known form.toSpreadCore has, has]

theorem keyLeg_listed (named : String → Key → Hash) (form : SpreadForm p) (key : Key) :
    keyLeg named p key ∈ p.listingLegs [] := by
  have owner : ownerID (named p.keyHash) p key ∈ p.listingLegs [] :=
    ownerID_listed form.toSpreadCore rfl
  unfold keyLeg
  cases moves : p.move with
  | none => exact owner
  | some m =>
    simp only
    split
    · exact mem_listingLegs.mpr (.inr (.inr ⟨m, moves, .inr rfl⟩))
    · exact owner

theorem mem_gathered (gathered : Gathered p backend (deleteLegs p) {} c)
    {id : String} {res : DeleteResult} :
    (id, res) ∈ c.results ↔ id ∈ p.listingLegs [] ∧ (backend id).read = .ok res := by
  rw [gathered.results]
  simp only [nil_append, List.mem_filterMap, mem_deleteLegs, map_eq_some_iff, Prod.mk.injEq]
  constructor
  · rintro ⟨other, listed, got, read, rfl, rfl⟩
    refine ⟨listed, ?_⟩
    cases answer : (backend other).read with
    | error =>
      rw [answer] at read
      cases read
    | ok =>
      rw [answer] at read
      cases read
      rfl
  · rintro ⟨listed, read⟩
    exact ⟨id, listed, res, by rw [read]; rfl, rfl, rfl⟩

theorem gathered_nodup (gathered : Gathered p backend (deleteLegs p) {} c) :
    (c.results.map Prod.fst).Nodup := by
  rw [gathered.results, nil_append]
  have sub : (((deleteLegs p).filterMap fun id =>
      (backend id).read.toOption.map (Prod.mk id)).map Prod.fst).Sublist (deleteLegs p) := by
    generalize deleteLegs p = legs
    induction legs with
    | nil => exact List.Sublist.refl _
    | cons id rest ih =>
      cases answer : (backend id).read with
      | error => simpa [answer, Except.toOption] using ih.cons id
      | ok => simpa [answer, Except.toOption] using ih.cons_cons id
  exact sub.nodup deleteLegs_nodup

theorem count_gathered (named : String → Key → Hash) (form : SpreadForm p)
    (has : p.keyHash = rampHash)
    (covers : ∀ id ∈ p.listingLegs [], ∀ res, (backend id).read = .ok res →
      res.keys.Perm (objects.map DeleteObject.key))
    (gathered : Gathered p backend (deleteLegs p) {} c) (key : Key) :
    (mergeResults (named rampHash) p c.results).keys.count key =
      match (backend (keyLeg named p key)).read with
      | .error _ => 0
      | .ok _ => (objects.map DeleteObject.key).count key := by
  have eq := answeringLeg_known named form has key
  have listed := keyLeg_listed named form key
  cases answer : (backend (keyLeg named p key)).read with
  | error =>
    refine count_mergeResults_none fun isIn => ?_
    obtain ⟨r, mem, here⟩ := List.mem_map.mp isIn
    have read := ((mem_gathered gathered).mp (show (r.1, r.2) ∈ c.results from mem)).2
    rw [here, eq, answer] at read
    cases read
  | ok res =>
    rw [count_mergeResults (gathered_nodup gathered)
      (by rw [eq]; exact (mem_gathered gathered).mpr ⟨listed, answer⟩)]
    exact (covers _ listed res answer).count_eq key

theorem mergeResults_from (named : String → Key → Hash) (form : SpreadForm p)
    (has : p.keyHash = rampHash) (gathered : Gathered p backend (deleteLegs p) {} c) :
    (∀ d ∈ (mergeResults (named rampHash) p c.results).deleted, ∃ res,
      (backend (keyLeg named p d.key)).read = .ok res ∧ d ∈ res.deleted) ∧
    ∀ e ∈ (mergeResults (named rampHash) p c.results).errors, ∃ res,
      (backend (keyLeg named p e.key)).read = .ok res ∧ e ∈ res.errors := by
  constructor
  · intro d mem
    obtain ⟨res, held, isIn⟩ := mem_mergeResults_deleted.mp mem
    rw [answeringLeg_known named form has] at held
    exact ⟨res, ((mem_gathered gathered).mp held).2, isIn⟩
  intro e mem
  obtain ⟨res, held, isIn⟩ := mem_mergeResults_errors.mp mem
  rw [answeringLeg_known named form has] at held
  exact ⟨res, ((mem_gathered gathered).mp held).2, isIn⟩

theorem mergedReply_from (form : SpreadForm p) (has : p.keyHash = rampHash)
    (covers : ∀ id ∈ p.listingLegs [], ∀ res, (backend id).read = .ok res →
      res.keys.Perm (objects.map DeleteObject.key))
    (gathered : Gathered p backend (deleteLegs p) {} c)
    (merged : (mergedReply (named rampHash) p (.ok objects) c).1 = .result out) :
    FromKeyLegs named p backend objects out := by
  obtain ⟨ofDeleted, ofErrors⟩ := mergeResults_from named form has gathered
  have counts := count_gathered named form has covers gathered
  cases lost : c.sourceErr with
  | none =>
    simp only [mergedReply, lost] at merged
    cases merged
    refine ⟨perm_iff_count.mpr fun key => ?_, ofDeleted, fun e mem =>
      .inl (ofErrors e mem)⟩
    rw [counts key]
    cases answer : (backend (keyLeg named p key)).read with
    | ok => rfl
    | error err =>
      -- only the move's source may fail, and that is recorded
      have listed := mem_deleteLegs.mpr (keyLeg_listed named form key)
      obtain ⟨m, moves, here⟩ := gathered.failed _ listed err answer
      rw [here] at answer listed
      rw [gathered.kept m err moves answer (.inl listed)] at lost
      cases lost
  | some err =>
    obtain ⟨m, moves, failed⟩ := (gathered.lost err lost).resolve_left nofun
    simp only [mergedReply, lost, moves] at merged
    cases merged
    refine ⟨perm_iff_count.mpr fun key => ?_, ofDeleted, fun e mem => ?_⟩
    · have unanswered : ∀ objs : List DeleteObject,
          (objs.map (unansweredError err)).map DeleteError.key = objs.map DeleteObject.key := by
        intro objs
        rw [List.map_map]
        rfl
      have split : (mergeResults (named rampHash) p c.results).keys.count key +
          ((objects.filter fun obj => decide
            (answeringLeg (named rampHash) p obj.key = m.source)).map
              DeleteObject.key).count key = (objects.map DeleteObject.key).count key := by
        rw [counts key, count_filter_key, answeringLeg_known named form has]
        cases answer : (backend (keyLeg named p key)).read with
        | ok =>
          rw [if_neg fun here => by rw [here, failed] at answer; cases answer]
          exact Nat.add_zero _
        | error err' =>
          have listed := mem_deleteLegs.mpr (keyLeg_listed named form key)
          obtain ⟨m', moves', here⟩ := gathered.failed _ listed err' answer
          rw [moves] at moves'
          cases moves'
          rw [if_pos here]
          exact Nat.zero_add _
      rw [← split]
      simp only [DeleteResult.keys, map_append, unanswered, count_append]
      omega
    · rcases mem_append.mp mem with here | there
      · exact .inl (ofErrors e here)
      obtain ⟨obj, isIn, rfl⟩ := List.mem_map.mp there
      have leg := of_decide_eq_true (List.mem_filter.mp isIn).2
      rw [answeringLeg_known named form has] at leg
      refine .inr ⟨err, ?_⟩
      change (backend (keyLeg named p obj.key)).read = _
      rw [leg]
      exact failed

theorem refuseReadOnly_ne {reason message : String} {reject : Bool} :
    refuseReadOnly reason message reject ≠ .result out := by
  unfold refuseReadOnly
  split
  · nofun
  · nofun

theorem refuseGate_ne {barrier : String} : refuseGate barrier ≠ .result out := by
  unfold refuseGate
  split
  · nofun
  · nofun

theorem refusal_ne {reply : DeleteReply} (fails : refusal p rt = some reply)
    (out : DeleteResult) : reply ≠ .result out := by
  rintro rfl
  rcases or_eq_some_iff.mp fails with placement | ⟨-, later⟩
  · unfold placementRefusal at placement
    split at placement
    · exact refuseReadOnly_ne (some.inj placement)
    iterate 5
      split at placement
      · cases placement
    · cases placement
  · rcases or_eq_some_iff.mp later with legs | ⟨-, gate⟩
    · obtain ⟨id, -, leg⟩ := exists_of_findSome?_eq_some legs
      unfold legRefusal at leg
      simp only at leg
      split at leg
      · cases leg
      split at leg
      · cases leg
      split at leg
      · exact refuseReadOnly_ne (some.inj leg)
      split at leg
      · cases leg
      · cases leg
    · unfold gateRefusal at gate
      split at gate
      · exact refuseGate_ne (some.inj gate)
      split at gate
      · cases gate
      simp only at gate
      split at gate
      · split at gate
        · exact refuseGate_ne (some.inj gate)
        · cases gate
      split at gate
      · cases gate
      · cases gate

theorem legFailure_ne {id err : String} {reply : LegReply} :
    legFailure p id reply err ≠ .result out := by
  unfold legFailure
  cases reply with
  | failed => nofun
  | answered =>
    simp only
    split
    · nofun
    · nofun

theorem collect_failed_ne {legs : List String} {c' : Collected} {reply : DeleteReply}
    (collected : collect p backend legs c = (c', some reply)) (out : DeleteResult) :
    reply ≠ .result out := by
  induction legs generalizing c with
  | nil => cases collected
  | cons id rest ih =>
    unfold collect at collected
    cases answer : (backend id).read with
    | ok =>
      simp only [answer] at collected
      exact ih collected
    | error =>
      simp only [answer] at collected
      split at collected
      · exact ih collected
      · cases collected
        exact legFailure_ne

theorem placementRefusal_rest (rests : p.move = none) : placementRefusal p rt ≠ none ↔
    p.readOnly ∨ ∃ b, p.barrier = some b ∧ b.kind = .mutations := by
  unfold placementRefusal
  cases readOnly : p.readOnly with
  | true => simp
  | false =>
    cases carried : p.barrier with
    | none => simp [rests]
    | some b =>
      by_cases kind : b.kind = .mutations
      · simp [kind]
      · simp [kind, rests]

theorem legRefusal_ne_none {id : String} : legRefusal p rt id ≠ none ↔
    rt.connected (legIn p.legs id).cluster = false ∨
      ∃ c, rt.clusters[(legIn p.legs id).cluster]? = some c ∧ (c.readOnly ∨ c.barrier ≠ none) := by
  unfold legRefusal
  simp only
  cases rt.connected (legIn p.legs id).cluster with
  | false => simp
  | true =>
    cases rt.clusters[(legIn p.legs id).cluster]? with
    | none => simp
    | some c =>
      cases readOnly : c.readOnly with
      | true => simp [readOnly]
      | false =>
        cases carried : c.barrier with
        | none | some => simp [readOnly, carried]

theorem gateRefusal_rest (rests : p.move = none) : gateRefusal p rt ≠ none ↔
    rt.gate.closed .mutations ≠ "" ∨ rt.version < rt.gate.from_ := by
  unfold gateRefusal Gate.enter
  by_cases closed : rt.gate.closed .mutations ≠ ""
  · simp [closed]
  by_cases older : rt.version < rt.gate.from_
  · simp [closed, older]
  · simp [closed, older, rests]

theorem refusal_rest (rests : p.move = none) : refusal p rt ≠ none ↔ TurnedAway p rt := by
  unfold refusal TurnedAway
  rw [ne_eq, or_eq_none_iff, or_eq_none_iff, not_and_or, not_and_or, ← ne_eq, ← ne_eq,
    ← ne_eq, placementRefusal_rest rests, gateRefusal_rest rests, or_assoc]
  have legs : (p.listingLegs []).findSome? (legRefusal p rt) ≠ none ↔
      ∃ id ∈ p.listingLegs [], rt.connected (legIn p.legs id).cluster = false ∨
        ∃ c, rt.clusters[(legIn p.legs id).cluster]? = some c ∧
          (c.readOnly ∨ c.barrier ≠ none) := by
    rw [ne_eq, findSome?_eq_none_iff]
    push Not
    simp only [legRefusal_ne_none]
  rw [legs]

theorem refusal_foreign {m : Move} (moves : p.move = some m) (foreign : p.keyHash ≠ rampHash) :
    refusal p rt ≠ none := by
  have placement : placementRefusal p rt ≠ none := by
    unfold placementRefusal
    split
    · simp
    split
    · simp
    · rw [moves]
      nofun
  unfold refusal
  rw [ne_eq, or_eq_none_iff]
  exact fun both => placement both.1

/-- DeleteObjects on a spread bucket fails as a whole or answers for each object from the leg
its key is on, and reaches no leg without the hash that splits the keys, exactly when this
build has that hash, or a move is under way, or the request is turned away. -/
theorem delete_answers_each_key_iff (valid : p.Valid) (spread : p.spread = true)
    (covers : ∀ id ∈ p.listingLegs [], ∀ res, (backend id).read = .ok res →
      res.keys.Perm (objects.map DeleteObject.key)) : AnswersEachKey named p backend objects
        (spreadDeleteObjects (named rampHash) p rt (.ok (.ok objects)) backend) ↔
      p.keyHash = rampHash ∨ p.move ≠ none ∨ TurnedAway p rt := by
  have form := valid.formed.spreading spread
  unfold spreadDeleteObjects
  cases fails : refusal p rt with
  | some =>
    refine ⟨fun _ => ?_, fun _ => ⟨fun out eq => absurd eq (refusal_ne fails out), fun _ => rfl⟩⟩
    by_cases rests : p.move = none
    · exact .inr (.inr ((refusal_rest rests).mp (by simp [fails])))
    · exact .inr (.inl rests)
  | none =>
    have known_iff : p.keyHash = rampHash ∨ p.move ≠ none ∨ TurnedAway p rt ↔
        p.keyHash = rampHash := by
      refine ⟨fun either => ?_, Or.inl⟩
      by_contra foreign
      rcases either.resolve_left foreign with moves | turned
      · obtain ⟨m, moves⟩ := ne_none_iff_exists'.mp moves
        exact refusal_foreign moves foreign fails
      by_cases rests : p.move = none
      · exact (refusal_rest rests).mpr turned fails
      · obtain ⟨m, moves⟩ := ne_none_iff_exists'.mp rests
        exact refusal_foreign moves foreign fails
    rw [known_iff]
    simp only
    cases collected : collect p backend (deleteLegs p) {} with
    | mk c failed =>
      cases failed with
      | some =>
        refine ⟨fun each => ?_, fun has => ⟨fun out eq => ?_, fun foreign => ?_⟩⟩
        · by_contra foreign
          exact deleteLegs_ne_nil form (each.2 foreign)
        · exact absurd eq (collect_failed_ne collected out)
        · exact absurd has foreign
      | none =>
        refine ⟨fun each => ?_, fun has => ⟨fun out eq => ?_, fun foreign => ?_⟩⟩
        · by_contra foreign
          exact deleteLegs_ne_nil form (each.2 foreign)
        · exact mergedReply_from form has covers (collect_spec collected) eq
        · exact absurd has foreign

end

def photosForeign : Placement := { photosSpread with keyHash := "xxh3-v1" }

def inTouch : DeleteRuntime where
  clusters := ∅
  connected := fun _ => true
  gate := {}
  version := 1
  stale := false

def oneDeleted : String → LegReply := fun _ =>
  .answered 200 "" (.ok { deleted := [{ key := [100] }] })

theorem oneDeleted_covers (id : String) (res : DeleteResult)
    (read : (oneDeleted id).read = .ok res) :
    res.keys.Perm ([({ key := [100] } : DeleteObject)].map DeleteObject.key) := by
  cases read
  exact List.Perm.refl _

theorem photos_delete_answered :
    AnswersEachKey (fun _ _ => 0) photosSpread oneDeleted [{ key := [100] }]
      (spreadDeleteObjects (fun _ => 0) photosSpread inTouch (.ok (.ok [{ key := [100] }]))
        oneDeleted) :=
  (delete_answers_each_key_iff photosSpread_valid (by decide)
    (fun id _ => oneDeleted_covers id)).mpr (Or.inl rfl)

/-- At rest the request goes to every leg, whatever hash splits the keys, and the answer has
no entry for the object they all deleted. -/
theorem photosForeign_deleted : photosForeign.Valid ∧ photosForeign.spread = true ∧
    (spreadDeleteObjects (fun _ => 0) photosForeign inTouch (.ok (.ok [{ key := [100] }]))
      oneDeleted).sent = ["a", "z"] ∧
    (spreadDeleteObjects (fun _ => 0) photosForeign inTouch (.ok (.ok [{ key := [100] }]))
      oneDeleted).reply = .result {} ∧
    ¬ AnswersEachKey (fun _ _ => 0) photosForeign oneDeleted [{ key := [100] }]
      (spreadDeleteObjects (fun _ => 0) photosForeign inTouch (.ok (.ok [{ key := [100] }]))
        oneDeleted) := by
  have sent : (spreadDeleteObjects (fun _ => 0) photosForeign inTouch
      (.ok (.ok [{ key := [100] }])) oneDeleted).sent = ["a", "z"] := by decide
  refine ⟨valid_of_directory rfl (by decide), by decide, sent, by decide, ?_⟩
  intro each
  rw [each.2 (by decide)] at sent
  cases sent

end Shunt.Proxy
