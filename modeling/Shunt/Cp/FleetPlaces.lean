/-
The places a member's record gives its incarnations: the current process and the
unresolved ones.  An accepted heartbeat seats its own process whatever the record holds of
it; every other call leaves each place where it is or frees it.
-/

import Mathlib.Data.List.Nodup
import Shunt.Cp.FleetEvidence

namespace Shunt.Cp

open List
open Option hiding join

def MemberRecord.places (rec : MemberRecord) : List String :=
  (rec.current.map Incarnation.id).toList ++ rec.unresolved.map Incarnation.id

section

open MemberRecord

variable {rec rec' : MemberRecord} {p cur inc : Incarnation} {hb : Heartbeat} {id : String}
  {proxy incarnation attestation actor : String} {now : Nat} {forgotten : List String}
  {uncertain : Int} {live : Bool}

theorem places_nodup (current : rec.current = some cur) : rec.places.Nodup ↔
      cur.id ∉ rec.unresolved.map Incarnation.id ∧ (rec.unresolved.map Incarnation.id).Nodup := by
  unfold places
  rw [current, map_some, toList_some, singleton_append, nodup_cons]

theorem places_none (current : rec.current = none) :
    rec.places = rec.unresolved.map Incarnation.id := by
  unfold places
  rw [current]
  rfl

theorem places_sublist (current : rec'.current.map Incarnation.id = rec.current.map Incarnation.id)
    (unresolved : (rec'.unresolved.map Incarnation.id).Sublist
    (rec.unresolved.map Incarnation.id)) : rec'.places.Sublist rec.places := by
  unfold places
  rw [current]
  exact unresolved.append_left _

theorem places_park (nodup : rec.places.Nodup) (held : rec.current = some cur)
    (eq : inc.id = cur.id) :
    { rec with current := none, unresolved := rec.unresolved ++ [inc] }.places.Nodup := by
  rw [places_none rfl, map_append]
  obtain ⟨apart, inner⟩ := (places_nodup held).mp nodup
  refine List.Nodup.append inner (nodup_singleton _) ?_
  intro x isIn own
  rw [map_singleton, mem_singleton, eq] at own
  exact apart (own ▸ isIn)

theorem takeReport_unresolved :
    ((takeReport now incarnation rec p).unresolved.map Incarnation.id).Sublist
        (rec.unresolved.map Incarnation.id) ∧
      (p.id ≠ id → id ∈ rec.unresolved.map Incarnation.id →
        id ∈ (takeReport now incarnation rec p).unresolved.map Incarnation.id) := by
  have discharged : ((rec.discharge p).unresolved.map Incarnation.id).Sublist
        (rec.unresolved.map Incarnation.id) ∧
      (p.id ≠ id → id ∈ rec.unresolved.map Incarnation.id →
        id ∈ (rec.discharge p).unresolved.map Incarnation.id) := by
    unfold discharge
    split
    · refine ⟨filter_sublist.map _, ?_⟩
      intro other isIn
      obtain ⟨entry, mem, rfl⟩ := List.mem_map.mp isIn
      refine List.mem_map_of_mem (List.mem_filter.mpr ⟨mem, decide_eq_true ?_⟩)
      exact fun eq => other eq.symm
    · exact ⟨List.Sublist.refl _, fun _ isIn => isIn⟩
  unfold takeReport
  split
  · exact ⟨List.Sublist.refl _, fun _ isIn => isIn⟩
  split
  · split
    · exact ⟨List.Sublist.refl _, fun _ isIn => isIn⟩
    · exact discharged
  · exact discharged

theorem takeReports_unresolved (previous : List Incarnation) :
    ((previous.foldl (takeReport now incarnation) rec).unresolved.map Incarnation.id).Sublist
        (rec.unresolved.map Incarnation.id) ∧
      ((∀ p ∈ previous, p.id ≠ id) → id ∈ rec.unresolved.map Incarnation.id →
        id ∈ (previous.foldl (takeReport now incarnation) rec).unresolved.map Incarnation.id) := by
  induction previous generalizing rec with
  | nil => exact ⟨List.Sublist.refl _, fun _ isIn => isIn⟩
  | cons p rest ih =>
    obtain ⟨less, stays⟩ := @takeReport_unresolved rec p id incarnation now
    obtain ⟨lessRest, staysRest⟩ := @ih (takeReport now incarnation rec p)
    refine ⟨lessRest.trans less, ?_⟩
    intro others isIn
    exact staysRest (fun q mem => others q (mem_cons_of_mem p mem))
      (stays (others p mem_cons_self) isIn)

theorem endCurrent_places (ended : rec.endCurrent proxy now incarnation = .ok rec') :
    (rec.current.map Incarnation.id = some incarnation ∧ rec' = rec ∨
      rec.current.map Incarnation.id ≠ some incarnation ∧ rec'.current = none) ∧
    (rec.places.Nodup → rec'.places.Nodup) ∧
    (id ∈ rec.unresolved.map Incarnation.id → id ∈ rec'.unresolved.map Incarnation.id) ∧
    ∀ x ∈ rec'.unresolved.map Incarnation.id, x ∈ rec.places := by
  unfold endCurrent at ended
  cases held : rec.current with
  | none =>
    rw [held] at ended
    cases ended
    exact ⟨.inr ⟨nofun, held⟩, fun nodup => nodup, fun isIn => isIn,
      fun x isIn => mem_append_right _ isIn⟩
  | some cur =>
    rw [held] at ended
    dsimp only at ended
    split at ended
    · next eq =>
        cases ended
        exact ⟨.inl ⟨congrArg some eq, rfl⟩, fun nodup => nodup, fun isIn => isIn,
          fun x isIn => mem_append_right _ isIn⟩
    next ne =>
    have other : Option.map Incarnation.id (some cur) ≠ some incarnation :=
      fun eq => ne (some.inj eq)
    split at ended
    · split at ended
      · cases ended
      next added adds =>
        cases ended
        rw [addUnresolved_ok adds]
        refine ⟨.inr ⟨other, rfl⟩, fun nodup => places_park nodup held rfl, ?_, ?_⟩
        · intro isIn
          rw [map_append]
          exact mem_append_left _ isIn
        intro x isIn
        rw [map_append] at isIn
        rcases mem_append.mp isIn with old | own
        · exact mem_append_right _ old
        refine mem_append_left _ ?_
        rw [held, mem_singleton.mp own]
        exact mem_singleton.mpr rfl
    · cases ended
      refine ⟨.inr ⟨other, rfl⟩, fun nodup => ?_, fun isIn => isIn,
        fun x isIn => mem_append_right _ isIn⟩
      rw [places_none rfl]
      exact ((places_nodup held).mp nodup).2

theorem addReport_places (added : rec.addReport proxy now forgotten p = .ok rec') :
    rec'.current = rec.current ∧ (rec.places.Nodup → rec'.places.Nodup) ∧
      (id ∈ rec.unresolved.map Incarnation.id → id ∈ rec'.unresolved.map Incarnation.id) := by
  unfold addReport at added
  split at added
  · cases added
    exact ⟨rfl, fun nodup => nodup, fun isIn => isIn⟩
  next unknown =>
  split at added
  · split at added
    · cases added
    next grown adds =>
      cases added
      rw [addUnresolved_ok adds]
      refine ⟨rfl, ?_, ?_⟩
      · intro nodup
        unfold places
        rw [map_append, ← append_assoc]
        refine List.Nodup.append nodup (nodup_singleton _) ?_
        intro x isIn own
        rw [map_singleton, mem_singleton] at own
        subst own
        refine unknown (.inl ?_)
        simp only [knows, Bool.or_eq_true, decide_eq_true_eq, List.any_eq_true]
        rcases mem_append.mp isIn with current | among
        · exact .inl (.inl (mem_toList.mp current))
        · obtain ⟨inc, mem, eq⟩ := List.mem_map.mp among
          exact .inl (.inr ⟨inc, mem, eq⟩)
      · intro isIn
        rw [map_append]
        exact mem_append_left _ isIn
  · cases added
    exact ⟨rfl, fun nodup => nodup, fun isIn => isIn⟩

theorem addReports_places {previous : List Incarnation}
    (added : previous.foldlM (addReport proxy now forgotten) rec = .ok rec') :
    rec'.current = rec.current ∧ (rec.places.Nodup → rec'.places.Nodup) ∧
      (id ∈ rec.unresolved.map Incarnation.id → id ∈ rec'.unresolved.map Incarnation.id) := by
  induction previous generalizing rec with
  | nil =>
    cases added
    exact ⟨rfl, fun nodup => nodup, fun isIn => isIn⟩
  | cons p rest ih =>
    rw [foldlM_cons] at added
    cases first : rec.addReport proxy now forgotten p with
    | error =>
      rw [first] at added
      cases added
    | ok =>
      rw [first] at added
      obtain ⟨current, nodup, stays⟩ := @addReport_places _ _ _ id _ _ _ first
      obtain ⟨currentRest, nodupRest, staysRest⟩ := ih added
      exact ⟨currentRest.trans current, fun all => nodupRest (nodup all),
        fun isIn => staysRest (stays isIn)⟩

theorem heartbeat_places (others : ∀ p ∈ hb.previous, p.id ≠ hb.incarnation)
    (ok : rec.heartbeat proxy now forgotten hb = .ok rec') :
    rec'.current.map Incarnation.id = some hb.incarnation ∧
    (hb.incarnation ∈ rec.unresolved.map Incarnation.id →
      hb.incarnation ∈ rec'.unresolved.map Incarnation.id) ∧
    (rec.places.Nodup → hb.incarnation ∉ rec.unresolved.map Incarnation.id →
      rec'.places.Nodup) := by
  unfold MemberRecord.heartbeat at ok
  generalize is_ : hb.previous.foldl (takeReport now hb.incarnation) (rec.join now) = told
    at ok
  have joined : (rec.join now).unresolved = rec.unresolved := by
    unfold join
    split
    · rfl
    · rfl
  have seat : told.current.map Incarnation.id = rec.current.map Incarnation.id := by
    rw [← is_, takeReports_current, join_current]
  obtain ⟨less, stays⟩ := @takeReports_unresolved (rec.join now) hb.incarnation hb.incarnation now
    hb.previous
  rw [is_, joined] at less stays
  cases freed : told.endCurrent proxy now hb.incarnation with
  | error =>
    dsimp only at ok
    rw [freed] at ok
    cases ok
  | ok free =>
    dsimp only at ok
    rw [freed] at ok
    change hb.previous.foldlM _ (free.register hb) = _ at ok
    obtain ⟨which, freeNodup, freeStays, lt⟩ := @endCurrent_places _ _ hb.incarnation _ _ _ freed
    obtain ⟨current, nodup, endStays⟩ := @addReports_places _ _ hb.incarnation _ _ _ _ ok
    have unresolved : (free.register hb).unresolved = free.unresolved := by
      unfold register
      split
      · rfl
      · rfl
    rcases which with ⟨eq, rfl⟩ | ⟨ne, none_⟩
    · have unchanged : free.register hb = free := by
        unfold register
        cases held : free.current with
        | none =>
          rw [held] at eq
          cases eq
        | some => rfl
      rw [unchanged] at current nodup endStays
      refine ⟨by rw [current, eq], fun isIn => endStays (stays others isIn), ?_⟩
      intro all _
      exact nodup ((places_sublist seat less).nodup all)
    · have seated : (free.register hb).current =
          some { id := hb.incarnation, started := hb.started, state := .active } := by
        unfold register
        rw [none_]
      refine ⟨by rw [current, seated]; rfl, ?_, ?_⟩
      · intro isIn
        refine endStays ?_
        rw [unresolved]
        exact freeStays (stays others isIn)
      intro all gone
      refine nodup ((places_nodup seated).mpr ?_)
      rw [unresolved]
      have toldNodup : told.places.Nodup := (places_sublist seat less).nodup all
      have freeAll := freeNodup toldNodup
      rw [places_none none_] at freeAll
      refine ⟨?_, freeAll⟩
      intro isIn
      rcases mem_append.mp (lt _ isIn) with was | listed
      · exact ne (mem_toList.mp was)
      · exact gone (less.subset listed)

theorem retireEarlier_sublist {unresolved left : List Incarnation}
    (got : retireEarlier now incarnation uncertain unresolved = some left) :
    (left.map Incarnation.id).Sublist (unresolved.map Incarnation.id) := by
  induction unresolved generalizing left with
  | nil => cases got
  | cons inc rest ih =>
    unfold retireEarlier at got
    split at got
    · cases got
      split
      · exact sublist_cons_self _ _
      · exact List.Sublist.refl _
    · obtain ⟨tail, hit, rfl⟩ := map_eq_some_iff.mp got
      exact (ih hit).cons_cons _

theorem takeUnresolved_sublist {unresolved others : List Incarnation}
    (got : takeUnresolved incarnation unresolved = some (inc, others)) :
    (others.map Incarnation.id).Sublist (unresolved.map Incarnation.id) := by
  induction unresolved generalizing others with
  | nil => cases got
  | cons first rest ih =>
    unfold takeUnresolved at got
    split at got
    · cases got
      exact sublist_cons_self _ _
    obtain ⟨⟨hit, tail⟩, taken, eq⟩ := map_eq_some_iff.mp got
    cases eq
    exact (ih taken).cons_cons _

/-- What a call that is no heartbeat does to the places: each stays its own, and no process
is newly seated. -/
structure KeepsPlaces (rec rec' : MemberRecord) : Prop where
  nodup : rec.places.Nodup → rec'.places.Nodup
  current : ∀ next, rec'.current = some next → rec.current.map Incarnation.id = some next.id

theorem KeepsPlaces.fewer
    (current : rec'.current.map Incarnation.id = rec.current.map Incarnation.id)
    (unresolved : (rec'.unresolved.map Incarnation.id).Sublist
    (rec.unresolved.map Incarnation.id)) : KeepsPlaces rec rec' := by
  refine ⟨fun nodup => (places_sublist current unresolved).nodup nodup, ?_⟩
  intro next held
  rw [← current, held]
  rfl

theorem retireOther_places (ok : rec.retireOther proxy now incarnation uncertain = .ok rec') :
    KeepsPlaces rec rec' := by
  unfold retireOther at ok
  split at ok
  · next left got =>
      cases ok
      exact .fewer rfl (retireEarlier_sublist got)
  split at ok
  · cases ok
    exact .fewer rfl (List.Sublist.refl _)
  · cases ok

theorem retire_places (ok : rec.retire proxy now incarnation uncertain = .ok rec') :
    KeepsPlaces rec rec' := by
  unfold MemberRecord.retire at ok
  cases held : rec.current with
  | none =>
    rw [held] at ok
    exact retireOther_places ok
  | some =>
    rw [held] at ok
    dsimp only at ok
    split at ok
    · split at ok
      · cases ok
        exact .fewer rfl (List.Sublist.refl _)
      unfold retireCurrent at ok
      split at ok
      · split at ok
        · cases ok
        next added adds =>
          cases ok
          rw [addUnresolved_ok adds]
          exact ⟨fun nodup => places_park nodup held rfl, nofun⟩
      cases ok
      refine .fewer ?_ (List.Sublist.refl _)
      rw [held]
      rfl
    · exact retireOther_places ok

theorem requestRetire_places (ok : rec.requestRetire proxy = .ok rec') : KeepsPlaces rec rec' := by
  unfold MemberRecord.requestRetire at ok
  split at ok
  · split at ok
    · cases ok
      exact .fewer rfl (List.Sublist.refl _)
    · cases ok
  · cases ok

theorem resolve_places (ok : rec.resolve proxy now live incarnation attestation actor = .ok rec') :
    KeepsPlaces rec rec' := by
  unfold MemberRecord.resolve at ok
  split at ok
  · next inc others got =>
      cases ok
      exact .fewer rfl (takeUnresolved_sublist got)
  split at ok
  · next cur held =>
      split at ok
      · cases ok
      cases ok
      refine ⟨fun nodup => ?_, nofun⟩
      exact List.Sublist.nodup (sublist_append_right _ _) nodup
  split at ok
  · cases ok
  · cases ok

theorem FleetCall.keeps_places {call : FleetCall} {read : Option MemberRecord}
    (other : call.isHeartbeat = false)
    (ok : call.apply proxy now live forgotten read = .ok (.put rec')) :
    KeepsPlaces (read.getD {}) rec' := by
  cases read with
  | none => cases call <;> first | cases ok | cases other
  | some =>
    cases call with
    | heartbeat => cases other
    | retire | requestRetire | resolve =>
      obtain ⟨a, ran, eq⟩ := map_ok ok
      cases eq
      first | exact retire_places ran | exact requestRetire_places ran | exact resolve_places ran
    | forget =>
      obtain ⟨a, -, eq⟩ := map_ok ok
      cases eq

end

end Shunt.Cp
