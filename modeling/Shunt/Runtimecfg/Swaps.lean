/-
The publisher's swaps: a bundle made current while another is replaced, and what every
interleaving of publishing, acquiring and releasing keeps.
-/

import Shunt.Runtimecfg.Counts

namespace Shunt.Runtimecfg

open List Option Relation
open Function (update update_of_ne update_self)

open Library (Resumes)

section

variable {p p' : Publisher} {acts acts' old new : List Act} {phase : Nat → Phase} {b : Nat}
  {x : Phase}

def Publisher.promoted (p : Publisher) (n : Nat) : Publisher :=
  { p with pending := none, cur := n, retired := p.retired + 1, held := p.cur :: p.held }

theorem Fits.pending_phase (fits : Fits p acts phase) (waits : p.pending = some b) :
    phase b = .waiting :=
  Phase.waiting_of_place ((fits.placed.pending b).mpr waits)

theorem place_update (phase : Nat → Phase) (b : Nat) (x : Phase) (c : Nat) :
    (update phase b x c).place = if c = b then x.place else (phase c).place := by
  rw [Function.update_apply, apply_ite Phase.place]

theorem Placed.promoted (placed : Placed p phase) {n : Nat} (waits : p.pending = some n)
    (slack : p.retired < p.limit) : Placed (p.promoted n)
      (update (update phase p.cur .retired) n .current) := by
  have waiting : phase n = .waiting := Phase.waiting_of_place ((placed.pending n).mpr waits)
  have current := placed.cur_phase
  have ne : p.cur ≠ n := by
    intro eq
    rw [eq, waiting] at current
    cases current
  have place : ∀ c, (update (update phase p.cur .retired) n .current c).place =
      if c = n then .current else if c = p.cur then .held else (phase c).place := by
    intro c
    rw [place_update, place_update]
    rfl
  have unheld : p.cur ∉ p.held := by
    intro mem
    have held := (placed.held p.cur).mpr mem
    rw [current] at held
    cases held
  have nWithin : n < p.accepted := placed.within (by rw [waiting]; decide)
  have curWithin : p.cur < p.accepted := placed.within (by rw [current]; decide)
  refine ⟨?_, ?_, ?_, ?_, ?_, ?_, ?_, placed.room, ?_, ?_⟩
  · intro c
    rw [place]
    split
    · rename_i here
      subst here
      simp only [reduceCtorEq, false_iff]
      exact Nat.not_le.mpr nWithin
    split
    · rename_i old
      subst old
      simp only [reduceCtorEq, false_iff]
      exact Nat.not_le.mpr curWithin
    · exact placed.accepted c
  · intro c
    rw [place]
    split
    · rename_i here
      exact ⟨fun _ => here, fun _ => rfl⟩
    rename_i other
    split
    · simp only [reduceCtorEq, false_iff]
      exact other
    rename_i notCur
    rw [placed.cur c]
    exact ⟨fun eq => absurd eq notCur, fun eq => absurd eq other⟩
  · intro c
    rw [place]
    simp only [Publisher.promoted, reduceCtorEq, iff_false]
    split
    · decide
    rename_i other
    split
    · decide
    · rw [placed.pending c, waits]
      exact fun eq => other (some.inj eq).symm
  · intro c
    rw [place]
    simp only [Publisher.promoted, mem_cons]
    split
    · rename_i here
      subst here
      have unlisted : c ∉ p.held := by
        intro mem
        have held := (placed.held c).mpr mem
        rw [waiting] at held
        cases held
      simp [Ne.symm ne, unlisted]
    split
    · rename_i old
      simp [old]
    · rename_i notCur
      simp [notCur, placed.held c]
  · exact nodup_cons.mpr ⟨unheld, placed.nodup⟩
  · simp only [Publisher.promoted, length_cons, placed.retired]
    omega
  · simp only [Publisher.promoted]
    omega
  · have newest := placed.newest
    simp only [Publisher.latest, waits, getD_some] at newest
    simpa only [Publisher.latest, Publisher.promoted, getD_none] using newest
  · rintro c ⟨⟩

theorem Fits.promoted (fits : Fits p acts phase) {n : Nat} (waits : p.pending = some n)
    (slack : p.retired < p.limit) :
    ∃ phase', Fits (p.promoted n) ([.release p.cur, .published n] ++ acts) phase' := by
  have waiting := fits.pending_phase waits
  have current := fits.placed.cur_phase
  have ne : n ≠ p.cur := by
    intro eq
    rw [← eq, waiting] at current
    cases current
  refine ⟨_, fits.placed.promoted waits slack, ?_, ?_⟩
  · have retired : Tallied p (.release p.cur :: acts) (update phase p.cur .retired) := by
      refine Tallied.at_ [] [.release p.cur] fits.tallied
        (fun _ _ => rfl) (fun _ _ => rfl) (by simp [Act.concerns]) ?_
      have mine := fits.tallied p.cur
      rw [current] at mine
      rw [singleton_append, filter_cons_of_pos (by simp [Act.concerns])]
      exact mine.retire
    have promoted : Tallied (p.promoted n) (.release p.cur :: acts)
        (update (update phase p.cur .retired) n .current) := by
      refine Tallied.at_ [] [] retired (fun _ _ => rfl) (fun _ _ => rfl) (by simp) ?_
      have mine := retired n
      rw [update_of_ne ne, waiting] at mine
      exact mine.promote
    intro c
    have mine := promoted c
    rwa [cons_append, singleton_append, filter_cons, filter_cons,
      if_neg (by simp [Act.concerns] : ¬ Act.concerns c (.published n) = true),
      ← filter_cons]
  · have lt : p.cur < p.accepted := fits.placed.within (by rw [current]; decide)
    have nWithin : n < p.accepted := fits.placed.within (by rw [waiting]; decide)
    have once := fits.sets.move (x := .retired) lt (by rw [current]; rfl)
    exact once.move (b := n) (x := .current) nWithin (by rw [update_of_ne ne, waiting]; rfl)

theorem swapLocked_room {n : Nat} (slack : p.retired < p.limit) :
    ({ p with pending := none } : Publisher).swapLocked n =
      (p.promoted n, [.release p.cur, .published n]) := by
  unfold Publisher.swapLocked
  rw [if_neg (by simpa using slack)]
  rfl

theorem Fits.leave (fits : Fits p (.drained b :: acts) phase) :
    ∃ phase', Fits { p with retired := p.retired - 1, held := p.held.erase b } acts phase' := by
  obtain ⟨mine, phased⟩ := fits.ending (b := b) (by simp [Act.concerns]) rfl
  have emptied := phased .emptied rfl
  have isIn : b ∈ p.held := (fits.placed.held b).mp (by rw [emptied]; rfl)
  have lt : b < p.accepted := fits.placed.within (by rw [emptied]; decide)
  have some := length_pos_of_mem isIn
  have placed := fits.placed
  refine ⟨update phase b .gone, ?_, ?_, ?_⟩
  · have place : ∀ c, (update phase b Phase.gone c).place =
        if c = b then .out else (phase c).place := place_update phase b .gone
    have notCur : b ≠ p.cur := by
      intro eq
      have current := placed.cur_phase
      rw [← eq, emptied] at current
      cases current
    refine ⟨?_, ?_, ?_, ?_, placed.nodup.erase b, ?_, ?_, placed.room, placed.newest,
      placed.forward⟩
    · intro c
      rw [place]
      split
      · rename_i here
        subst here
        simp only [reduceCtorEq, false_iff]
        exact Nat.not_le.mpr lt
      · exact placed.accepted c
    · intro c
      rw [place]
      split
      · rename_i here
        subst here
        simp only [reduceCtorEq, false_iff]
        exact notCur
      · exact placed.cur c
    · intro c
      rw [place]
      split
      · rename_i here
        subst here
        have waits := placed.pending c
        rw [emptied] at waits
        simpa [Phase.place] using waits
      · exact placed.pending c
    · intro c
      rw [place, placed.nodup.mem_erase_iff]
      split
      · rename_i here
        simp [here]
      · rename_i other
        simp [other, placed.held c]
    · have length := length_erase_of_mem isIn
      simp only [placed.retired, length]
      omega
    have bound := placed.bound
    simp only
    omega
  · refine Tallied.at_ [.drained b] [] fits.tallied
      (fun _ _ => rfl) (fun _ _ => rfl) (by simp [Act.concerns]) ?_
    exact @Tally.spend b _ _ _ _ _ .gone [] mine (by rw [emptied]; rfl) (by rw [emptied]; rfl) rfl
      rfl
  · exact fits.sets.move lt (by rw [emptied]; rfl)

/-- A bundle waits only while the bound is reached. -/
def Publisher.Full (p : Publisher) : Prop := p.pending ≠ none → p.retired = p.limit

theorem Fits.drain (fits : Fits p (.drained b :: acts) phase) :
    (p.drain b).1.Full ∧ ∃ phase', Fits (p.drain b).1 ((p.drain b).2 ++ acts) phase' := by
  obtain ⟨phase', left⟩ := fits.leave
  have bound := fits.placed.bound
  unfold Publisher.drain
  cases waits : p.pending with
  | none =>
    rw [waits] at left
    exact ⟨fun wait => absurd rfl wait, phase', left⟩
  | some next =>
    have slack : p.retired - 1 < p.limit := by omega
    have swap := swapLocked_room (p := { p with
      retired := p.retired - 1, held := p.held.erase b }) (n := next) slack
    simp only
    rw [swap]
    exact ⟨fun wait => absurd rfl wait, left.promoted waits slack⟩

theorem refuses_none {bundle : Bundle} (passes : p.refuses bundle = none) :
    (p.bundle p.latest).version ≤ bundle.version ∧ 0 < p.setRefs bundle.clusters := by
  unfold Publisher.refuses at passes
  simp only at passes
  iterate 3
    split at passes
    · cases passes
  · omega

def Publisher.queued (p : Publisher) (phase : Nat → Phase) : Nat → Phase :=
  update
    (match p.pending with
      | some d => update phase d .discarding
      | none => phase) p.accepted .waiting

theorem Placed.queued (placed : Placed p phase) {bundle : Bundle}
    (passes : p.refuses bundle = none) :
    Placed { p.accept bundle with pending := some p.accepted } (p.queued phase) := by
  have curWithin : p.cur < p.accepted := placed.within (by rw [placed.cur_phase]; decide)
  have place : ∀ c, (p.queued phase c).place =
      if c = p.accepted then .waiting
      else if p.pending = some c then .out else (phase c).place := by
    intro c
    unfold Publisher.queued
    rw [place_update]
    cases p.pending with
    | none => simp [Phase.place]
    | some d =>
      simp only [place_update, Option.some.injEq, eq_comm (a := c)]
      rfl
  have waits_place : ∀ c, p.pending = some c → (phase c).place = .waiting :=
    fun c => (placed.pending c).mpr
  refine ⟨?_, ?_, ?_, ?_, placed.nodup, placed.retired, placed.bound, placed.room, rfl, ?_⟩
  · intro c
    have was := placed.accepted c
    rw [place]
    simp only [Publisher.accept]
    split
    · simp only [reduceCtorEq, false_iff]
      omega
    split
    · rename_i waits
      rw [waits_place c waits] at was
      simp only [reduceCtorEq, false_iff] at was ⊢
      omega
    · rw [was]
      omega
  · intro c
    have was := placed.cur c
    rw [place]
    simp only [Publisher.accept]
    split
    · simp only [reduceCtorEq, false_iff]
      omega
    split
    · rename_i waits
      rw [waits_place c waits] at was
      simpa using was
    · exact was
  · intro c
    have was := placed.pending c
    rw [place]
    split
    · rename_i here
      simp [here]
    rename_i other
    have notNew : ¬ some p.accepted = some c := fun eq => other (some.inj eq).symm
    split
    · simpa using notNew
    rename_i idle
    simp only [notNew, iff_false]
    exact fun waiting => idle (was.mp waiting)
  · intro c
    have was := placed.held c
    rw [place]
    simp only [Publisher.accept]
    split
    · rename_i here
      have gone := (placed.accepted c).mpr (by omega)
      rw [gone] at was
      simpa using was
    split
    · rename_i waits
      rw [waits_place c waits] at was
      simpa using was
    · exact was
  · intro c waits
    cases waits
    have latest := (refuses_none passes).1
    simp only [Publisher.accept, update_self, update_of_ne (show p.cur ≠ p.accepted by omega)]
    refine le_trans ?_ latest
    unfold Publisher.latest
    cases waits : p.pending with
    | none => exact le_rfl
    | some d => exact placed.forward d waits

theorem Fits.queued (fits : Fits p acts phase) {bundle : Bundle}
    (passes : p.refuses bundle = none) :
    Fits { p.accept bundle with pending := some p.accepted }
      (p.pending.toList.map .discard ++ acts) (p.queued phase) := by
  have gone : phase p.accepted = .absent :=
    Phase.absent_of_place ((fits.placed.accepted p.accepted).mpr le_rfl)
  -- The older bundle that waited, if there is one, is discarded first.
  have dropped : ∃ prev : Nat → Phase, p.queued phase =
      update prev p.accepted .waiting ∧ prev p.accepted = .absent ∧
      Tallied p (p.pending.toList.map .discard ++ acts) prev ∧ SetsHeld p prev := by
    cases waits : p.pending with
    | none =>
      refine ⟨phase, ?_, gone, fits.tallied, fits.sets⟩
      simp only [Publisher.queued, waits]
    | some d =>
      have waiting := fits.pending_phase waits
      have ne : p.accepted ≠ d := by
        intro eq
        rw [← eq, gone] at waiting
        cases waiting
      refine ⟨update phase d .discarding, ?_, ?_, ?_, ?_⟩
      · simp only [Publisher.queued, waits]
      · rwa [update_of_ne ne]
      · refine Tallied.at_ [] [.discard d] fits.tallied
          (fun _ _ => rfl) (fun _ _ => rfl) (by simp [Act.concerns]) ?_
        have mine := fits.tallied d
        rw [waiting] at mine
        rw [singleton_append, filter_cons_of_pos (by simp [Act.concerns])]
        exact mine.drop
      · exact fits.sets.move (fits.placed.within (by rw [waiting]; decide)) (by rw [waiting]; rfl)
  obtain ⟨prev, queued, fresh, tallied, sets⟩ := dropped
  rw [queued]
  refine ⟨queued ▸ fits.placed.queued passes, ?_, ?_⟩
  · refine Tallied.at_ [] [] tallied (fun c ne => update_of_ne ne ..) (fun _ _ => rfl) (by simp) ?_
    have mine := tallied p.accepted
    rw [fresh] at mine
    have one : (p.accept bundle).refs p.accepted = 1 := update_self ..
    exact one ▸ mine.accept
  intro set
  have was := sets set
  have grown : Publisher.retaining { p.accept bundle with pending := some p.accepted }
      (update prev p.accepted .waiting) set =
        p.retaining prev set + if bundle.clusters = set then 1 else 0 := by
    unfold Publisher.retaining
    simp only [Publisher.accept]
    rw [range_succ, countP_append, countP_singleton]
    congr 1
    · refine countP_congr fun c mem => ?_
      have other : c ≠ p.accepted := Nat.ne_of_lt (mem_range.mp mem)
      simp only [update_of_ne other, Bool.and_eq_true, decide_eq_true_eq]
    · have retains : Phase.waiting.retains = true := rfl
      simp [retains]
  rw [grown]
  simp only [Publisher.accept]
  by_cases own : bundle.clusters = set
  · subst own
    simp only [update_self, if_true]
    omega
  · simp only [update_of_ne (Ne.symm own), own, if_false]
    omega

theorem Fits.publish (fits : Fits p acts phase) {bundle : Bundle}
    (accepted : p.publish bundle = .ok (p', new)) :
    p'.Full ∧ ∃ phase', Fits p' (new ++ acts) phase' := by
  unfold Publisher.publish at accepted
  split at accepted
  · cases accepted
  rename_i passes
  have queued := fits.queued passes
  have bound := fits.placed.bound
  by_cases slack : p.retired < p.limit
  · have swap := swapLocked_room
      (p := { p.accept bundle with pending := some p.accepted }) (n := p.accepted) slack
    simp only [swap, Except.ok.injEq, Prod.mk.injEq] at accepted
    obtain ⟨rfl, rfl⟩ := accepted
    obtain ⟨phase', promoted⟩ := queued.promoted rfl slack
    refine ⟨fun wait => absurd rfl wait, phase', promoted.perm ?_⟩
    rw [← append_assoc]
    exact perm_append_comm.append_right acts
  have park : ({ p.accept bundle with pending := none } : Publisher).swapLocked p.accepted =
      ({ p.accept bundle with pending := some p.accepted }, []) := by
    unfold Publisher.swapLocked
    rw [if_pos (by simpa [Publisher.accept] using slack)]
  simp only [park, append_nil, Except.ok.injEq, Prod.mk.injEq] at accepted
  obtain ⟨rfl, rfl⟩ := accepted
  refine ⟨fun _ => ?_, _, queued⟩
  simp only [Publisher.accept]
  omega

end

def Publisher.acts (p : Publisher) : List Act := p.calls.flatten

def Publisher.Inv (p : Publisher) : Prop := p.Full ∧ ∃ phase, Fits p p.acts phase

section

variable {p p' : Publisher} {acts new : List Act} {phase : Nat → Phase} {b : Nat}

theorem newPublisher_inv (first : Bundle) : (newPublisher first).Inv := by
  refine ⟨fun wait => absurd rfl wait, update (fun _ => .absent) 0 .current, ?_, ?_, ?_⟩
  · refine ⟨?_, ?_, ?_, ?_, nodup_nil, rfl, ?_, ?_, rfl, ?_⟩
    iterate 4
      · intro b
        cases b with
        | zero | succ => simp [newPublisher, Phase.place]
    · simp [newPublisher, maxRetired]
    · simp [newPublisher, maxRetired]
    · rintro b ⟨⟩
  · intro b
    cases b with
    | zero =>
      refine ⟨fun _ => rfl, fun _ => rfl, ?_, ?_, rfl⟩
      · rintro ⟨⟩
      · rintro ⟨⟩
    | succ =>
      refine ⟨?_, ?_, ?_, ?_, rfl⟩
      · rintro (some | mem | mem)
        · cases some
        · cases mem
        · cases mem
      · rintro (was | eq)
        · cases was
        · cases eq
      · rintro ⟨⟩
      · rintro ⟨⟩
  · intro set
    by_cases own : first.clusters = set
    · subst own
      simp [newPublisher, Publisher.retaining, Phase.retains, range_succ]
    · simp [newPublisher, Publisher.retaining, range_succ, own, update_of_ne (Ne.symm own)]

theorem Resumes.fits {a : Act} {calls calls' : List (List Act)}
    (turn : Resumes a new calls calls') (fits : Fits p calls.flatten phase) :
    ∃ rest, Fits p (a :: rest) phase ∧ ∀ (q : Publisher) (post : Nat → Phase),
      Fits q (new ++ rest) post → Fits { q with calls := calls' } calls'.flatten post := by
  obtain ⟨rest, prev, post⟩ := turn.trades
  exact ⟨rest, fits.perm prev.symm, fun q phase' done => (done.perm post).withCalls _⟩

theorem SetsHeld.newSet {set : Nat} (sets : SetsHeld p phase) (fresh : p.setRefs set = 0)
    (unused : ∀ b < p.accepted, (p.bundle b).clusters ≠ set) :
    SetsHeld { p with
      setRefs := update p.setRefs set 1, registry := set :: p.registry } phase := by
  intro other
  have was := sets other
  by_cases here : other = set
  · subst here
    have none : p.retaining phase other = 0 :=
      countP_eq_zero.mpr fun b mem => by
        simp [unused b (mem_range.mp mem)]
    change update p.setRefs other 1 other =
      (other :: p.registry).count other + p.retaining phase other
    rw [update_self, count_cons_self]
    omega
  change update p.setRefs set 1 other =
    (set :: p.registry).count other + p.retaining phase other
  rw [update_of_ne here, count_cons_of_ne (Ne.symm here)]
  exact was

theorem SetsHeld.dropSet {set : Nat} (sets : SetsHeld p phase) (live : set ∈ p.registry) :
    SetsHeld { p with
      setRefs := update p.setRefs set (p.setRefs set - 1)
      registry := p.registry.erase set } phase := by
  intro other
  have was := sets other
  change update p.setRefs set (p.setRefs set - 1) other =
    (p.registry.erase set).count other + p.retaining phase other
  by_cases here : other = set
  · subst here
    have some := count_pos_iff.mpr live
    rw [update_self, count_erase_self]
    omega
  · rw [update_of_ne here, count_erase_of_ne here]
    exact was

theorem Work.inv (work : Work p p') (inv : p.Inv) : p'.Inv := by
  obtain ⟨full, phase, fits⟩ := inv
  cases work with
  | newSet fresh unused =>
    exact ⟨full, phase, fits.placed.of_eq rfl rfl rfl rfl rfl rfl rfl, fits.tallied,
      fits.sets.newSet fresh unused⟩
  | dropSet live =>
    exact ⟨full, phase, fits.placed.of_eq rfl rfl rfl rfl rfl rfl rfl, fits.tallied,
      fits.sets.dropSet live⟩
  | publish accepted =>
    obtain ⟨full', phase', fits'⟩ := fits.publish accepted
    exact ⟨full', phase', fits'.withCalls _⟩
  | acquire => exact ⟨full, phase, fits.acquire.withCalls _⟩
  | retry turn =>
    obtain ⟨rest, prev, post⟩ := Resumes.fits turn fits
    exact ⟨full, phase, post p phase prev.giveUp.acquire⟩
  | take turn live =>
    obtain ⟨rest, prev, post⟩ := Resumes.fits turn fits
    exact ⟨full, phase, post _ phase (prev.take live)⟩
  | giveBack holds => exact ⟨full, phase, (fits.giveBack holds).withCalls _⟩
  | release turn =>
    obtain ⟨rest, prev, post⟩ := Resumes.fits turn fits
    obtain ⟨phase', fits'⟩ := prev.release
    exact ⟨full, phase', post _ phase' fits'⟩
  | closeSet turn =>
    obtain ⟨rest, prev, post⟩ := Resumes.fits turn fits
    obtain ⟨phase', fits'⟩ := prev.closeSet
    exact ⟨full, phase', post _ phase' fits'⟩
  | drained turn =>
    obtain ⟨rest, prev, post⟩ := Resumes.fits turn fits
    obtain ⟨full', phase', fits'⟩ := prev.drain
    exact ⟨full', phase', post _ phase' fits'⟩
  | discard turn =>
    obtain ⟨rest, prev, post⟩ := Resumes.fits turn fits
    obtain ⟨phase', fits'⟩ := prev.discard
    exact ⟨full, phase', post _ phase' fits'⟩

theorem Step.inv (step : Step p p') (inv : p.Inv) : p'.Inv := by
  cases step with
  | work work => exact work.inv inv
  | deliver turn =>
    obtain ⟨full, phase, fits⟩ := inv
    obtain ⟨rest, prev, post⟩ := Resumes.fits turn fits
    refine ⟨full, phase, post p phase ?_⟩
    exact (Fits.silent fun _ => rfl).mpr ((Fits.silent fun _ => rfl).mp prev)
  | returned turn =>
    obtain ⟨full, phase, fits⟩ := inv
    obtain ⟨rest, prev, post⟩ := Resumes.fits turn fits
    exact ⟨full, phase, post p phase ((Fits.silent fun _ => rfl).mp prev)⟩

theorem run_inv {first : Bundle} (run : ReflTransGen Step (newPublisher first) p) : p.Inv := by
  induction run with
  | refl => exact newPublisher_inv first
  | tail _ step ih => exact step.inv ih

theorem swapLocked_cur (p : Publisher) (b : Nat) : (p.swapLocked b).1.bundle = p.bundle ∧
      ((p.swapLocked b).1.cur = p.cur ∨ (p.swapLocked b).1.cur = b) := by
  unfold Publisher.swapLocked
  split
  · exact ⟨rfl, .inl rfl⟩
  · exact ⟨rfl, .inr rfl⟩

theorem Publisher.Inv.version_publish (inv : p.Inv) {bundle : Bundle}
    (accepted : p.publish bundle = .ok (p', new)) :
    (p.bundle p.cur).version ≤ (p'.bundle p'.cur).version := by
  obtain ⟨-, phase, fits⟩ := inv
  have lt : p.cur < p.accepted := fits.placed.within (by rw [fits.placed.cur_phase]; decide)
  unfold Publisher.publish at accepted
  split at accepted
  · cases accepted
  rename_i passes
  have placed := fits.placed.queued passes
  have forward := placed.forward p.accepted rfl
  cases accepted
  obtain ⟨eq, stays | swapped⟩ := swapLocked_cur { p.accept bundle with pending := none } p.accepted
  · rw [eq, stays]
    simp only [Publisher.accept, update_of_ne (Nat.ne_of_lt lt)]
    exact le_rfl
  · rw [eq, swapped]
    simpa only [Publisher.accept, update_of_ne (Nat.ne_of_lt lt)] using forward

theorem Publisher.Inv.version_drain (inv : p.Inv) (b : Nat) :
    (p.bundle p.cur).version ≤ ((p.drain b).1.bundle (p.drain b).1.cur).version := by
  obtain ⟨-, phase, fits⟩ := inv
  unfold Publisher.drain
  cases waits : p.pending with
  | none => exact le_rfl
  | some next =>
    simp only
    obtain ⟨eq, stays | swapped⟩ := swapLocked_cur { p with
      retired := p.retired - 1, held := p.held.erase b, pending := none } next
    · rw [eq, stays]
    · rw [eq, swapped]
      exact fits.placed.forward next waits

theorem Work.version_le (work : Work p p') (inv : p.Inv) :
    (p.bundle p.cur).version ≤ (p'.bundle p'.cur).version := by
  cases work with
  | @publish q bundle acts accepted =>
    exact @Publisher.Inv.version_publish _ q _ inv _ accepted
  | @drained b => exact inv.version_drain b
  | _ => exact le_rfl

theorem Step.version_le (step : Step p p') (inv : p.Inv) :
    (p.bundle p.cur).version ≤ (p'.bundle p'.cur).version := by
  cases step with
  | work work => exact work.version_le inv
  | deliver | returned => exact le_rfl

theorem run_version_le (inv : p.Inv) (run : ReflTransGen Step p p') :
    (p.bundle p.cur).version ≤ (p'.bundle p'.cur).version := by
  have both : p'.Inv ∧ (p.bundle p.cur).version ≤ (p'.bundle p'.cur).version := by
    induction run with
    | refl => exact ⟨inv, le_rfl⟩
    | tail _ step ih => exact ⟨step.inv ih.1, ih.2.trans (step.version_le ih.1)⟩
  exact both.2

def Publisher.Idle (p : Publisher) : Prop := ∀ a ∈ p.acts, ∃ b, a = .acquire b

theorem Publisher.Inv.drained (inv : p.Inv) (free : p.holders = []) (idle : p.Idle) :
    p.held = [] ∧ p.pending = none ∧ p.cur + 1 = p.accepted := by
  obtain ⟨full, phase, fits⟩ := inv
  have nil : p.held = [] := by
    refine eq_nil_iff_forall_not_mem.mpr fun b mem => ?_
    have held := (fits.placed.held b).mpr mem
    have tally := fits.tallied b
    have quiet : ∀ a ∈ p.acts.filter (Act.concerns b), ∃ c, a = .acquire c :=
      fun a lt => idle a (List.mem_filter.mp lt).1
    have unended : (p.acts.filter (Act.concerns b)).filter Act.ends = [] := by
      refine filter_eq_nil_iff.mpr fun a lt => ?_
      obtain ⟨c, rfl⟩ := quiet a lt
      simp [Act.ends]
    have unreleased : (p.acts.filter (Act.concerns b)).count (.release b) = 0 := by
      refine count_eq_zero.mpr fun lt => ?_
      obtain ⟨c, no⟩ := quiet _ lt
      cases no
    have ends := tally.ends
    rw [unended] at ends
    cases at_ : phase b with
    | retired =>
      rw [at_] at tally
      have counted := tally.counted (.inl rfl)
      have live := tally.live rfl
      simp only [Phase.own, free, count_nil, unreleased] at counted
      omega
    | closing | emptied => rw [at_] at ends; cases ends
    | _ => rw [at_] at held; cases held
  have rests : p.pending = none := by
    by_contra waits
    have reached := full waits
    have retired := fits.placed.retired
    have room := fits.placed.room
    rw [nil] at retired
    simp only [length_nil] at retired
    omega
  refine ⟨nil, rests, ?_⟩
  have newest := fits.placed.newest
  simpa only [Publisher.latest, rests, getD_none] using newest

/-- Over every interleaving.  The replaced bundles still held are within the bound, and one
waits only while it is reached; the current version never goes back; a bundle handed out
has a reference on itself and on its cluster set; and once every holder has let go the
current bundle is the newest accepted, with none waiting. -/
theorem publisher_invariants {first : Bundle} {p : Publisher}
    (run : ReflTransGen Step (newPublisher first) p) :
    (p.retired = p.held.length ∧ p.retired ≤ p.limit ∧ p.held.Nodup ∧
      ∀ b ∈ p.holders, b ≠ p.cur → b ∈ p.held) ∧ (p.pending ≠ none → p.retired = p.limit) ∧
    (∀ p', ReflTransGen Step p p' → (p.bundle p.cur).version ≤ (p'.bundle p'.cur).version) ∧
    (∀ b ∈ p.holders, 0 < p.refs b ∧ 0 < p.setRefs (p.bundle b).clusters) ∧
    (p.holders = [] → p.Idle → p.cur + 1 = p.accepted ∧ p.pending = none) := by
  have inv := run_inv run
  obtain ⟨full, phase, fits⟩ := id inv
  have held : ∀ b ∈ p.holders, 0 < p.refs b ∧ (phase b = .current ∨ phase b = .retired) := by
    intro b mem
    have some := count_pos_iff.mpr mem
    have tally := fits.tallied b
    have was := tally.known (Or.inl some)
    have counted := tally.counted (Or.inl was)
    have live : 0 < p.refs b := by omega
    exact ⟨live, tally.wasCurrent_live was live⟩
  refine ⟨⟨fits.placed.retired, fits.placed.bound, fits.placed.nodup, ?_⟩, full,
    fun p' onward => run_version_le inv onward, ?_, ?_⟩
  · intro b mem replaced
    rcases (held b mem).2 with current | retired
    · exact absurd ((fits.placed.cur b).mp (by rw [current]; rfl)) replaced
    · exact (fits.placed.held b).mp (by rw [retired]; rfl)
  · intro b mem
    obtain ⟨live, current | retired⟩ := held b mem
    · exact ⟨live, fits.sets.positive (fits.placed.within (by rw [current]; decide))
        (by rw [current]; rfl)⟩
    · exact ⟨live, fits.sets.positive (fits.placed.within (by rw [retired]; decide))
        (by rw [retired]; rfl)⟩
  intro free idle
  obtain ⟨-, rests, newest⟩ := inv.drained free idle
  exact ⟨newest, rests⟩

end

def emptySnapshot : Admission.Snapshot := ⟨{}, by decide⟩

def firstBundle : Bundle := ⟨emptySnapshot, 0⟩

theorem publish_swaps {p : Publisher} {b : Bundle} (passes : p.refuses b = none)
    (idle : p.pending = none) (room : p.retired < p.limit) :
    p.publish b = .ok ((p.accept b).promoted p.accepted,
      [.release p.cur, .published p.accepted]) := by
  unfold Publisher.publish
  rw [passes, idle]
  simp only [swapLocked_room (p := p.accept b) room]
  rfl

/-- A request that acquired the first bundle holds it and its set once it is replaced. -/
theorem replaced_held : ∃ p, ReflTransGen Step (newPublisher firstBundle) p ∧ p.cur = 1 ∧
    0 ∈ p.holders ∧ 0 ∈ p.held ∧ 0 < p.refs 0 ∧ 0 < p.setRefs (p.bundle 0).clusters := by
  have loaded : Step (newPublisher firstBundle)
      { newPublisher firstBundle with calls := [[.acquire 0]] } := .work .acquire
  have taken := (ReflTransGen.single loaded).tail (.work (.take Resumes.here (by decide)))
  have run := taken.tail (.work (.publish (b := firstBundle)
    (publish_swaps (by decide) rfl (by decide))))
  obtain ⟨⟨_, _, _, held⟩, _, _, live, _⟩ := publisher_invariants run
  exact ⟨_, run, rfl, mem_cons_self .., held 0 (mem_cons_self ..) (by decide),
    live 0 (mem_cons_self ..)⟩

end Shunt.Runtimecfg
