/-
What the publisher's counts mean.  Every bundle is in one phase of its life; its count, the
acts that calls have still to do for it, its place in the publisher's fields and its
reference on its cluster set are read off its phase.
-/

import Shunt.Runtimecfg.Publisher

namespace Shunt.Runtimecfg

open List
open Function (update update_eq_self update_of_ne update_self)

open Library (Resumes)

inductive Phase where
  | absent
  | current
  | waiting
  | retired
  | closing
  | emptied
  | gone
  | discarding
  | discarded
  deriving DecidableEq

inductive Place where
  | absent
  | current
  | waiting
  | held
  | out
  deriving DecidableEq

def Phase.place : Phase → Place
  | .absent => .absent
  | .current => .current
  | .waiting => .waiting
  | .retired | .closing | .emptied => .held
  | .gone | .discarding | .discarded => .out

def Phase.own : Phase → Nat
  | .current | .waiting => 1
  | _ => 0

def Phase.retains : Phase → Bool
  | .current | .waiting | .retired | .closing | .discarding => true
  | _ => false

def Phase.wasCurrent : Phase → Bool
  | .current | .retired | .closing | .emptied | .gone => true
  | _ => false

def Phase.isSpent : Phase → Bool
  | .closing | .emptied | .gone => true
  | _ => false

def Phase.act (b : Nat) : Phase → List Act
  | .closing => [.closeSet b]
  | .emptied => [.drained b]
  | .discarding => [.discard b]
  | _ => []

def Act.concerns (b : Nat) : Act → Bool
  | .acquire c | .release c | .closeSet c | .drained c | .discard c => decide (c = b)
  | .published _ | .serving _ => false

def Act.ends : Act → Bool
  | .closeSet _ | .drained _ | .discard _ => true
  | _ => false

/-- A bundle's phase fits its count, the number of its holders and the acts to come. -/
structure Tally (b : Nat) (x : Phase) (refs : Int) (holders : Nat) (acts : List Act) : Prop where
  known : 0 < holders ∨ .release b ∈ acts ∨ .acquire b ∈ acts → x.wasCurrent = true
  counted : x.wasCurrent = true ∨ x = .waiting → refs = x.own + holders + acts.count (.release b)
  spent : x.isSpent = true → refs = 0
  live : x = .retired → 0 < refs
  ends : acts.filter Act.ends = x.act b

section

variable {b : Nat} {x : Phase} {refs : Int} {holders : Nat} {acts acts' : List Act}

theorem Phase.act_perm {l : List Act} (eq : l.Perm (x.act b)) : l = x.act b := by
  cases x <;> simp only [Phase.act] at eq ⊢ <;>
    first
    | exact perm_nil.mp eq
    | exact perm_singleton.mp eq

theorem Tally.perm (tally : Tally b x refs holders acts) (eq : acts'.Perm acts) :
    Tally b x refs holders acts' where
  known := by rw [eq.mem_iff, eq.mem_iff]; exact tally.known
  counted := by rw [eq.count_eq]; exact tally.counted
  spent := tally.spent
  live := tally.live
  ends := Phase.act_perm (tally.ends ▸ eq.filter _)

theorem Tally.acquire (tally : Tally b x refs holders acts) (was : x.wasCurrent) :
    Tally b x refs holders (.acquire b :: acts) where
  known := fun _ => was
  counted := by
    rw [count_cons_of_ne (by simp)]
    exact tally.counted
  spent := tally.spent
  live := tally.live
  ends := by simpa [Act.ends] using tally.ends

theorem Tally.retry (tally : Tally b x refs holders (.acquire b :: acts)) :
    Tally b x refs holders acts where
  known := by
    rintro (some | release | acquire)
    · exact tally.known (.inl some)
    · exact tally.known (.inr (.inl (mem_cons_of_mem _ release)))
    · exact tally.known (.inr (.inr (mem_cons_of_mem _ acquire)))
  counted := by
    have counted := tally.counted
    rwa [count_cons_of_ne (by simp)] at counted
  spent := tally.spent
  live := tally.live
  ends := by simpa [Act.ends] using tally.ends

theorem Tally.take (tally : Tally b x refs holders (.acquire b :: acts)) (some : 0 < refs) :
    Tally b x (refs + 1) (holders + 1) acts := by
  have was := tally.known (.inr (.inr (mem_cons_self ..)))
  have without := tally.retry
  refine ⟨fun _ => was, ?_, ?_, ?_, without.ends⟩
  · intro had
    have counted := without.counted had
    omega
  · intro spent
    have zero := without.spent spent
    omega
  · intro retired
    omega

theorem Tally.giveBack (tally : Tally b x refs (holders + 1) acts) :
    Tally b x refs holders (.release b :: acts) where
  known := fun _ => tally.known (.inl (Nat.succ_pos holders))
  counted := by
    intro had
    have counted := tally.counted had
    rw [count_cons_self]
    omega
  spent := tally.spent
  live := tally.live
  ends := by simpa [Act.ends] using tally.ends

theorem Tally.wasCurrent_live (tally : Tally b x refs holders acts) (was : x.wasCurrent)
    (some : 0 < refs) : x = .current ∨ x = .retired := by
  have spent := tally.spent
  cases x with
  | current => exact .inl rfl
  | retired => exact .inr rfl
  | closing | emptied | gone =>
    have zero := spent rfl
    omega
  | absent | waiting | discarding | discarded => cases was

theorem Tally.release (tally : Tally b x refs holders (.release b :: acts))
    (more : refs - 1 ≠ 0) : Tally b x (refs - 1) holders acts := by
  have was := tally.known (.inr (.inl (mem_cons_self ..)))
  have counted := tally.counted (.inl was)
  rw [count_cons_self] at counted
  refine ⟨fun _ => was, fun _ => by omega, ?_, fun _ => by omega, ?_⟩
  · intro spent
    have zero := tally.spent spent
    omega
  · simpa [Act.ends] using tally.ends

theorem Tally.lastRelease (tally : Tally b x refs holders (.release b :: acts))
    (last : refs - 1 = 0) :
    x = .retired ∧ Tally b .closing (refs - 1) holders (.closeSet b :: acts) := by
  have was := tally.known (.inr (.inl (mem_cons_self ..)))
  have counted := tally.counted (.inl was)
  rw [count_cons_self] at counted
  have retired : x = .retired := by
    rcases tally.wasCurrent_live was (by omega) with current | retired
    · rw [current, Phase.own] at counted
      omega
    · exact retired
  have ends := tally.ends
  rw [retired] at counted ends
  simp only [Phase.own] at counted
  refine ⟨retired, fun _ => rfl, fun _ => ?_, fun _ => last, ?_, ?_⟩
  · rw [count_cons_of_ne (by simp)]
    simp only [Phase.own]
    omega
  · rintro ⟨⟩
  rw [filter_cons_of_neg (by simp [Act.ends])] at ends
  rw [filter_cons_of_pos rfl, ends]
  rfl

theorem Tally.spend {act : Act} {y : Phase} {new : List Act}
    (tally : Tally b x refs holders (act :: acts)) (mine : x.act b = [act])
    (spent : x.isSpent) (post : y.isSpent) (next : new = y.act b) :
    Tally b y refs holders (new ++ acts) := by
  have zero := tally.spent spent
  have isEnd : act.ends := by
    cases x <;> simp only [Phase.act] at mine <;> cases mine <;> rfl
  have was : x.wasCurrent := by cases x <;> first | rfl | cases spent
  have had := tally.counted (.inl was)
  have wasCurrent : y.wasCurrent := by cases y <;> first | rfl | cases post
  have rest : acts.filter Act.ends = [] := by
    have ends := tally.ends
    rw [filter_cons_of_pos isEnd, mine] at ends
    exact (List.cons.inj ends).2
  have unowned : x.own = 0 ∧ y.own = 0 := by
    constructor
    · cases x <;> first | rfl | cases spent
    · cases y <;> first | rfl | cases post
  have silent : new.count (.release b) = 0 ∧ new.filter Act.ends = new := by
    subst next
    cases y <;> simp [Phase.act, Act.ends]
  have dropped : (act :: acts).count (.release b) = acts.count (.release b) := by
    refine count_cons_of_ne ?_
    rintro rfl
    cases isEnd
  refine ⟨fun _ => wasCurrent, fun _ => ?_, fun _ => zero, ?_, ?_⟩
  · rw [count_append, silent.1]
    omega
  · rintro rfl
    cases post
  · rw [filter_append, rest, silent.2, append_nil, next]

theorem Tally.discard (tally : Tally b .discarding refs holders (.discard b :: acts)) :
    Tally b .discarded refs holders acts := by
  refine ⟨?_, ?_, ?_, ?_, ?_⟩
  · rintro (some | release | acquire)
    · exact tally.known (.inl some)
    · exact tally.known (.inr (.inl (mem_cons_of_mem _ release)))
    · exact tally.known (.inr (.inr (mem_cons_of_mem _ acquire)))
  · rintro (was | eq)
    · cases was
    · cases eq
  · rintro ⟨⟩
  · rintro ⟨⟩
  have ends := tally.ends
  rw [filter_cons_of_pos rfl] at ends
  exact (List.cons.inj ends).2

theorem Tally.retire (tally : Tally b .current refs holders acts) :
    Tally b .retired refs holders (.release b :: acts) := by
  have counted := tally.counted (.inl rfl)
  rw [Phase.own] at counted
  refine ⟨fun _ => rfl, fun _ => ?_, ?_, fun _ => by omega, ?_⟩
  · rw [count_cons_self]
    simp only [Phase.own]
    omega
  · rintro ⟨⟩
  · rw [filter_cons_of_neg (by simp [Act.ends]), tally.ends]
    rfl

theorem Tally.promote (tally : Tally b .waiting refs holders acts) :
    Tally b .current refs holders acts where
  known := fun _ => rfl
  counted := fun _ => tally.counted (.inr rfl)
  spent := fun eq => by cases eq
  live := fun eq => by cases eq
  ends := tally.ends

theorem Tally.drop (tally : Tally b .waiting refs holders acts) :
    Tally b .discarding refs holders (.discard b :: acts) := by
  have unknown := mt tally.known (by simp [Phase.wasCurrent])
  simp only [not_or] at unknown
  refine ⟨?_, ?_, ?_, ?_, ?_⟩
  · rintro (some | release | acquire)
    · exact absurd some unknown.1
    · exact absurd (by simpa using release) unknown.2.1
    · exact absurd (by simpa using acquire) unknown.2.2
  · rintro (was | eq)
    · cases was
    · cases eq
  · rintro ⟨⟩
  · rintro ⟨⟩
  · rw [filter_cons_of_pos rfl, tally.ends]
    rfl

theorem Tally.accept (tally : Tally b .absent refs holders acts) :
    Tally b .waiting 1 holders acts := by
  have unknown := mt tally.known (by simp [Phase.wasCurrent])
  simp only [not_or] at unknown
  refine ⟨?_, fun _ => ?_, ?_, ?_, tally.ends⟩
  · rintro (some | release | acquire)
    · exact absurd some unknown.1
    · exact absurd release unknown.2.1
    · exact absurd acquire unknown.2.2
  · rw [Phase.own, count_eq_zero.mpr unknown.2.1]
    omega
  · rintro ⟨⟩
  · rintro ⟨⟩

end

def Tallied (p : Publisher) (acts : List Act) (phase : Nat → Phase) : Prop :=
  ∀ b, Tally b (phase b) (p.refs b) (p.holders.count b) (acts.filter (Act.concerns b))

structure Placed (p : Publisher) (phase : Nat → Phase) : Prop where
  accepted : ∀ b, (phase b).place = .absent ↔ p.accepted ≤ b
  cur : ∀ b, (phase b).place = .current ↔ b = p.cur
  pending : ∀ b, (phase b).place = .waiting ↔ p.pending = some b
  held : ∀ b, (phase b).place = .held ↔ b ∈ p.held
  nodup : p.held.Nodup
  retired : p.retired = p.held.length
  bound : p.retired ≤ p.limit
  room : 0 < p.limit
  newest : p.latest + 1 = p.accepted
  forward : ∀ b, p.pending = some b → (p.bundle p.cur).version ≤ (p.bundle b).version

def Publisher.retaining (p : Publisher) (phase : Nat → Phase) (set : Nat) : Nat :=
  (List.range p.accepted).countP fun b =>
    (phase b).retains && decide ((p.bundle b).clusters = set)

def SetsHeld (p : Publisher) (phase : Nat → Phase) : Prop :=
  ∀ set, p.setRefs set = p.registry.count set + p.retaining phase set

structure Fits (p : Publisher) (acts : List Act) (phase : Nat → Phase) : Prop where
  placed : Placed p phase
  tallied : Tallied p acts phase
  sets : SetsHeld p phase

section

variable {p p' : Publisher} {acts acts' old new : List Act} {phase : Nat → Phase} {b : Nat}
  {x : Phase}

theorem concerns_one {a : Act} (mine : a.concerns b) {c : Nat} (ne : c ≠ b) :
    a.concerns c = false := by
  cases a <;> simp_all [Act.concerns] <;> omega

theorem Tallied.perm (tallied : Tallied p acts phase) (eq : acts'.Perm acts) :
    Tallied p acts' phase :=
  fun b => (tallied b).perm (eq.filter _)

theorem Tallied.at_ (old new : List Act) (tallied : Tallied p (old ++ acts) phase)
    (refs : ∀ c, c ≠ b → p'.refs c = p.refs c)
    (holders : ∀ c, c ≠ b → p'.holders.count c = p.holders.count c)
    (about : ∀ a ∈ old ++ new, a.concerns b) (mine : Tally b x (p'.refs b) (p'.holders.count b)
      ((new ++ acts).filter (Act.concerns b))) : Tallied p' (new ++ acts) (update phase b x) := by
  intro c
  by_cases eq : c = b
  · subst eq
    rwa [update_self]
  have was := tallied c
  have silent : ∀ l : List Act, (∀ a ∈ l, a.concerns c = false) →
      l.filter (Act.concerns c) = [] := fun l none =>
    filter_eq_nil_iff.mpr fun a mem => by simp [none a mem]
  rw [filter_append,
    silent old fun a mem => concerns_one (about a (mem_append_left _ mem)) eq]
    at was
  rw [update_of_ne eq, refs c eq, holders c eq, filter_append,
    silent new fun a mem => concerns_one (about a (mem_append_right _ mem)) eq]
  exact was

theorem Placed.of_eq (placed : Placed p phase) (bundle : p'.bundle = p.bundle)
    (accepted : p'.accepted = p.accepted) (cur : p'.cur = p.cur) (retired : p'.retired = p.retired)
    (held : p'.held = p.held) (pending : p'.pending = p.pending) (limit : p'.limit = p.limit) :
    Placed p' phase := by
  obtain ⟨⟩ := p
  obtain ⟨⟩ := p'
  subst bundle accepted cur retired held pending limit
  exact ⟨placed.accepted, placed.cur, placed.pending, placed.held, placed.nodup, placed.retired,
    placed.bound, placed.room, placed.newest, placed.forward⟩

theorem Phase.current_of_place (at_ : x.place = .current) : x = .current := by
  cases x <;> first | rfl | cases at_

theorem Phase.waiting_of_place (at_ : x.place = .waiting) : x = .waiting := by
  cases x <;> first | rfl | cases at_

theorem Phase.absent_of_place (at_ : x.place = .absent) : x = .absent := by
  cases x <;> first | rfl | cases at_

theorem Placed.cur_phase (placed : Placed p phase) : phase p.cur = .current :=
  Phase.current_of_place ((placed.cur p.cur).mpr rfl)

theorem Placed.within (placed : Placed p phase) (there : (phase b).place ≠ .absent) :
    b < p.accepted := by
  by_contra beyond
  exact there ((placed.accepted b).mpr (by omega))

theorem Placed.move (placed : Placed p phase) (eq : x.place = (phase b).place) :
    Placed p (update phase b x) := by
  have unmoved : ∀ c, (update phase b x c).place = (phase c).place := by
    intro c
    by_cases here : c = b
    · subst here
      rw [update_self, eq]
    · rw [update_of_ne here]
  refine ⟨?_, ?_, ?_, ?_, placed.nodup, placed.retired, placed.bound, placed.room,
    placed.newest, placed.forward⟩
  · exact fun c => by rw [unmoved]; exact placed.accepted c
  · exact fun c => by rw [unmoved]; exact placed.cur c
  · exact fun c => by rw [unmoved]; exact placed.pending c
  · exact fun c => by rw [unmoved]; exact placed.held c

theorem countP_range_update {n : Nat} {f g : Nat → Bool} (within : b < n)
    (eq : ∀ c, c ≠ b → f c = g c) : (List.range n).countP f + (if g b then 1 else 0) =
      (List.range n).countP g + if f b then 1 else 0 := by
  induction n with
  | zero => omega
  | succ n ih =>
    rw [range_succ, countP_append, countP_append, countP_singleton, countP_singleton]
    by_cases last : b = n
    · subst last
      have prev : (List.range b).countP f = (List.range b).countP g :=
        countP_congr fun c mem => by
          rw [eq c (by have := mem_range.mp mem; omega)]
      omega
    have earlier := ih (by omega)
    rw [eq n (Ne.symm last)]
    omega

theorem retaining_update (within : b < p.accepted) (set : Nat) :
    p.retaining (update phase b x) set +
        (if (phase b).retains ∧ (p.bundle b).clusters = set then 1 else 0) = p.retaining phase set +
        if x.retains ∧ (p.bundle b).clusters = set then 1 else 0 := by
  have change := countP_range_update (n := p.accepted) (b := b)
    (f := fun c => (update phase b x c).retains && decide ((p.bundle c).clusters = set))
    (g := fun c => (phase c).retains && decide ((p.bundle c).clusters = set)) within
    (fun c ne => by simp only [update_of_ne ne])
  simpa [Publisher.retaining] using change

theorem SetsHeld.move (sets : SetsHeld p phase) (within : b < p.accepted)
    (eq : x.retains = (phase b).retains) : SetsHeld p (update phase b x) := by
  intro set
  have change := @retaining_update p phase b x within set
  rw [eq] at change
  have was := sets set
  omega

theorem SetsHeld.release (sets : SetsHeld p phase) (within : b < p.accepted)
    (had : (phase b).retains) (without : x.retains = false) :
    SetsHeld (p.releaseSet b) (update phase b x) := by
  intro set
  have change := @retaining_update p phase b x within set
  have was := sets set
  change update p.setRefs (p.bundle b).clusters
    (p.setRefs (p.bundle b).clusters - 1) set =
      p.registry.count set + p.retaining (update phase b x) set
  by_cases own : (p.bundle b).clusters = set
  · subst own
    simp only [had, without, true_and, if_true, Bool.false_eq_true, false_and, if_false] at change
    simp only [update_self]
    omega
  simp only [own, and_false, if_false] at change
  simp only [update_of_ne (Ne.symm own)]
  omega

theorem SetsHeld.positive (sets : SetsHeld p phase) (within : b < p.accepted)
    (had : (phase b).retains) : 0 < p.setRefs (p.bundle b).clusters := by
  have some : 0 < p.retaining phase (p.bundle b).clusters :=
    countP_pos_iff.mpr ⟨b, mem_range.mpr within, by simp [had]⟩
  have was := sets (p.bundle b).clusters
  omega

theorem Fits.perm (fits : Fits p acts phase) (eq : acts'.Perm acts) : Fits p acts' phase :=
  ⟨fits.placed, fits.tallied.perm eq, fits.sets⟩

theorem Fits.withCalls (fits : Fits p acts phase) (calls : List (List Act)) :
    Fits { p with calls := calls } acts phase :=
  ⟨fits.placed.of_eq rfl rfl rfl rfl rfl rfl rfl, fits.tallied, fits.sets⟩

theorem Fits.mine (old : List Act) (b : Nat) (fits : Fits p (old ++ acts) phase) :
    Tally b (phase b) (p.refs b) (p.holders.count b)
      (old.filter (Act.concerns b) ++ acts.filter (Act.concerns b)) := by
  have was := fits.tallied b
  rwa [filter_append] at was

theorem Fits.at_ (old new : List Act) (x : Phase) (fits : Fits p (old ++ acts) phase)
    (refs : Nat → Int) (holders : List Nat) (elsewhere : ∀ c, c ≠ b → refs c = p.refs c)
    (counts : ∀ c, c ≠ b → holders.count c = p.holders.count c)
    (about : ∀ a ∈ old ++ new, a.concerns b) (place : x.place = (phase b).place)
    (retains : x.retains = (phase b).retains) (there : (phase b).place ≠ .absent)
    (mine : Tally b x (refs b) (holders.count b) ((new ++ acts).filter (Act.concerns b))) :
    Fits { p with refs := refs, holders := holders } (new ++ acts)
      (update phase b x) := by
  refine ⟨(fits.placed.move place).of_eq rfl rfl rfl rfl rfl rfl rfl, ?_, ?_⟩
  · exact fits.tallied.at_ old new elsewhere counts about mine
  · exact fits.sets.move (fits.placed.within there) retains

theorem not_absent_of_wasCurrent (was : x.wasCurrent) : x.place ≠ .absent := by
  cases x <;> first | decide | cases was

theorem Fits.silent {a : Act} (none : ∀ c, a.concerns c = false) :
    Fits p (a :: acts) phase ↔ Fits p acts phase := by
  have eq : ∀ c, (a :: acts).filter (Act.concerns c) = acts.filter (Act.concerns c) :=
    fun c => filter_cons_of_neg (by simp [none c])
  constructor
  · intro fits
    exact ⟨fits.placed, fun c => eq c ▸ fits.tallied c, fits.sets⟩
  · intro fits
    exact ⟨fits.placed, fun c => (eq c).symm ▸ fits.tallied c, fits.sets⟩

theorem Fits.acquire (fits : Fits p acts phase) : Fits p (.acquire p.cur :: acts) phase := by
  have was : (phase p.cur).wasCurrent := by rw [fits.placed.cur_phase]; rfl
  have step := Fits.at_ [] [.acquire p.cur] (phase p.cur) (b := p.cur)
    fits p.refs p.holders (fun _ _ => rfl) (fun _ _ => rfl)
    (by simp [Act.concerns]) rfl rfl (not_absent_of_wasCurrent was)
    (by
      rw [singleton_append, filter_cons_of_pos (by simp [Act.concerns])]
      exact (fits.tallied p.cur).acquire was)
  rwa [update_eq_self] at step

theorem Fits.giveUp (fits : Fits p (.acquire b :: acts) phase) : Fits p acts phase := by
  have mine := Fits.mine [.acquire b] b fits
  rw [filter_cons_of_pos (by simp [Act.concerns])] at mine
  have was := mine.known (.inr (.inr (by simp)))
  have step := Fits.at_ [.acquire b] [] (phase b) (b := b)
    fits p.refs p.holders (fun _ _ => rfl) (fun _ _ => rfl)
    (by simp [Act.concerns]) rfl rfl (not_absent_of_wasCurrent was)
    mine.retry
  rwa [update_eq_self] at step

theorem Fits.take (fits : Fits p (.acquire b :: acts) phase) (live : 0 < p.refs b) :
    Fits { p with
      refs := update p.refs b (p.refs b + 1), holders := b :: p.holders }
      acts phase := by
  have mine := Fits.mine [.acquire b] b fits
  rw [filter_cons_of_pos (by simp [Act.concerns])] at mine
  have was := mine.known (.inr (.inr (by simp)))
  have step := Fits.at_ [.acquire b] [] (phase b) (b := b)
    fits (update p.refs b (p.refs b + 1)) (b :: p.holders)
    (fun c ne => update_of_ne ne ..)
    (fun c ne => count_cons_of_ne (Ne.symm ne))
    (by simp [Act.concerns]) rfl rfl (not_absent_of_wasCurrent was)
    (by
      rw [update_self, count_cons_self]
      exact mine.take live)
  rwa [update_eq_self] at step

theorem Fits.giveBack (fits : Fits p acts phase) (holds : b ∈ p.holders) :
    Fits { p with holders := p.holders.erase b } (.release b :: acts) phase := by
  have some := count_pos_iff.mpr holds
  have was := (fits.tallied b).known (.inl some)
  have step := Fits.at_ [] [.release b] (phase b) (b := b)
    fits p.refs (p.holders.erase b) (fun _ _ => rfl)
    (fun c ne => count_erase_of_ne ne)
    (by simp [Act.concerns]) rfl rfl (not_absent_of_wasCurrent was)
    (by
      rw [singleton_append, filter_cons_of_pos (by simp [Act.concerns]), count_erase_self]
      refine Tally.giveBack ?_
      rw [Nat.sub_add_cancel some]
      exact fits.tallied b)
  rwa [update_eq_self] at step

theorem Fits.release (fits : Fits p (.release b :: acts) phase) :
    ∃ phase', Fits { p with refs := update p.refs b (p.refs b - 1) }
      ((if p.refs b - 1 = 0 then [.closeSet b] else []) ++ acts) phase' := by
  have mine := Fits.mine [.release b] b fits
  rw [filter_cons_of_pos (by simp [Act.concerns])] at mine
  have was := mine.known (.inr (.inl (by simp)))
  by_cases last : p.refs b - 1 = 0
  · obtain ⟨retired, closing⟩ := mine.lastRelease last
    rw [if_pos last]
    refine ⟨_, Fits.at_ [.release b] _ .closing (b := b) fits _ p.holders
      (fun c ne => update_of_ne ne ..) (fun _ _ => rfl)
      (by simp [Act.concerns]) (by rw [retired]; rfl) (by rw [retired]; rfl)
      (not_absent_of_wasCurrent was) ?_⟩
    rw [singleton_append, filter_cons_of_pos (by simp [Act.concerns]), update_self]
    exact closing
  · rw [if_neg last]
    refine ⟨_, Fits.at_ [.release b] _ (phase b) (b := b) fits _ p.holders
      (fun c ne => update_of_ne ne ..) (fun _ _ => rfl)
      (by simp [Act.concerns]) rfl rfl
      (not_absent_of_wasCurrent was) ?_⟩
    rw [update_self]
    exact mine.release last

theorem Tally.phase_of_act {refs : Int} {holders : Nat} {a : Act}
    (tally : Tally b x refs holders (a :: acts)) (isEnd : a.ends) : x.act b = [a] := by
  have ends := tally.ends
  rw [filter_cons_of_pos isEnd] at ends
  cases x <;> simp only [Phase.act] at ends ⊢ <;> first | cases ends | rw [(List.cons.inj ends).1]

theorem Fits.ending {a : Act} (fits : Fits p (a :: acts) phase) (about : a.concerns b)
    (isEnd : a.ends) : Tally b (phase b) (p.refs b) (p.holders.count b)
      (a :: acts.filter (Act.concerns b)) ∧ ∀ x : Phase, x.act b = [a] → phase b = x := by
  have mine := Fits.mine [a] b fits
  rw [filter_cons_of_pos about] at mine
  have named := mine.phase_of_act isEnd
  refine ⟨mine, fun x acts => ?_⟩
  cases at_ : phase b <;> cases x <;> rw [at_] at named <;>
    first | rfl | (cases named <;> cases acts)

theorem Fits.closeSet (fits : Fits p (.closeSet b :: acts) phase) :
    ∃ phase', Fits (p.releaseSet b) (.drained b :: acts) phase' := by
  obtain ⟨mine, phased⟩ := fits.ending (b := b) (by simp [Act.concerns]) rfl
  have closing := phased .closing rfl
  refine ⟨update phase b .emptied, ?_, ?_, ?_⟩
  · exact (fits.placed.move (by rw [closing]; rfl)).of_eq rfl rfl rfl rfl rfl rfl rfl
  · refine Tallied.at_ [.closeSet b] [.drained b] fits.tallied
      (fun _ _ => rfl) (fun _ _ => rfl) (by simp [Act.concerns]) ?_
    rw [filter_append, filter_cons_of_pos (by simp [Act.concerns])]
    exact mine.spend (y := .emptied) (by rw [closing]; rfl) (by rw [closing]; rfl) rfl rfl
  · exact fits.sets.release (fits.placed.within (by rw [closing]; decide))
      (by rw [closing]; rfl) rfl

theorem Fits.discard (fits : Fits p (.discard b :: acts) phase) :
    ∃ phase', Fits (p.releaseSet b) acts phase' := by
  obtain ⟨mine, phased⟩ := fits.ending (b := b) (by simp [Act.concerns]) rfl
  have discarding := phased .discarding rfl
  rw [discarding] at mine
  refine ⟨update phase b .discarded, ?_, ?_, ?_⟩
  · exact (fits.placed.move (by rw [discarding]; rfl)).of_eq rfl rfl rfl rfl rfl rfl rfl
  · exact Tallied.at_ [.discard b] [] fits.tallied
      (fun _ _ => rfl) (fun _ _ => rfl) (by simp [Act.concerns])
      mine.discard
  · exact fits.sets.release (fits.placed.within (by rw [discarding]; decide))
      (by rw [discarding]; rfl) rfl

end

end Shunt.Runtimecfg
