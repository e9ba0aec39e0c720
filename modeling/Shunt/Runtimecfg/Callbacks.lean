/-
The publisher and the gate keeper together.  The publisher calls `Published` with each
bundle it makes current after it has let its lock go, so the calls of two swaps can reach
the keeper in either order.
-/

import Shunt.Admission.Keeper
import Shunt.Runtimecfg.Swaps

namespace Shunt.Runtimecfg

open Admission (Snapshot GateKeeper Sweep Visit carriesBarrier Gates)
open Config (BarrierKind)
open Directory List Relation
open Library (Resumes)

/-- A proxy: its publisher, its gates and their keeper, and whether the keeper's call under
way is one of `Installed`. -/
structure Proxy where
  pub : Publisher
  gates : Admission.World
  installing : Bool

def Proxy.start (first : Bundle) : Proxy where
  pub := newPublisher first
  gates := Admission.World.begin {} { served := some first.snapshot }
  installing := true

inductive Turn : Proxy → Proxy → Prop where
  | work {w pub} (work : Work w.pub pub) : Turn w { w with pub := pub }
  | visit {w gates} (visit : Visit w.gates gates) :
      Turn w { w with gates := gates }
  | installed {w} (s : Snapshot) (free : w.gates.call = none) :
      Turn w { w with
        gates := w.gates.begin { w.gates.keeper with installed := some s }
        installing := true }
  | installedReturns {w sw} (runs : w.gates.call = some sw)
      (own : w.installing = true) (done : sw.Done) :
      Turn w { w with gates := { w.gates with call := none }, installing := false }
  | published {w b calls} (free : w.gates.call = none)
      (turn : Resumes (.published b) [.serving b] w.pub.calls calls) :
      Turn w { w with
        pub := { w.pub with calls := calls }, gates := w.gates.begin
          { w.gates.keeper with served := some (w.pub.bundle b).snapshot } }
  | publishedReturns {w sw b calls}
      (runs : w.gates.call = some sw) (own : w.installing = false) (done : sw.Done)
      (turn : Resumes (.serving b) [] w.pub.calls calls) :
      Turn w { w with
        pub := { w.pub with calls := calls }, gates := { w.gates with call := none } }

def Act.isCallback : Act → Bool
  | .published _ | .serving _ => true
  | _ => false

def Publisher.callbacks (p : Publisher) : List Act := p.acts.filter Act.isCallback

/-- A bundle is made current only when no earlier one's `Published` is outstanding. -/
def CleanTurn (w w' : Proxy) : Prop :=
  Turn w w' ∧ (w'.pub.cur ≠ w.pub.cur → w.pub.callbacks = [])

section

variable {p p' : Publisher} {b : Nat} {w w' : Proxy}

theorem Resumes.callbacks {a : Act} {new : List Act} {calls calls' : List (List Act)}
    (turn : Resumes a new calls calls') : ∃ rest, (calls.flatten.filter Act.isCallback).Perm
        ([a].filter Act.isCallback ++ rest) ∧
      (calls'.flatten.filter Act.isCallback).Perm (new.filter Act.isCallback ++ rest) := by
  obtain ⟨rest, prev, post⟩ := turn.trades
  refine ⟨rest.filter Act.isCallback, ?_, ?_⟩
  · rw [← filter_append]
    exact prev.filter _
  · rw [← filter_append]
    exact post.filter _

theorem swapLocked_callbacks (p : Publisher) (n : Nat) :
    ((p.swapLocked n).1.cur = p.cur ∧ (p.swapLocked n).2.filter Act.isCallback = []) ∨
      ((p.swapLocked n).1.cur = n ∧ (p.swapLocked n).2.filter Act.isCallback = [.published n]) := by
  unfold Publisher.swapLocked
  split
  · exact .inl ⟨rfl, rfl⟩
  · exact .inr ⟨rfl, rfl⟩

theorem discards_silent (waits : Option Nat) :
    (waits.toList.map Act.discard).filter Act.isCallback = [] := by
  cases waits <;> rfl

theorem Publisher.Inv.cur_lt (inv : p.Inv) : p.cur < p.accepted := by
  obtain ⟨-, phase, fits⟩ := inv
  exact fits.placed.within (by rw [fits.placed.cur_phase]; decide)

theorem Publisher.Inv.pending_ne (inv : p.Inv) (waits : p.pending = some b) : b ≠ p.cur := by
  obtain ⟨-, phase, fits⟩ := inv
  rintro rfl
  have waiting := fits.pending_phase waits
  rw [fits.placed.cur_phase] at waiting
  cases waiting

theorem drain_callbacks (inv : p.Inv) (b : Nat) :
    ((p.drain b).1.cur = p.cur ∧ (p.drain b).2.filter Act.isCallback = []) ∨
      ((p.drain b).1.cur ≠ p.cur ∧
        (p.drain b).2.filter Act.isCallback = [.published (p.drain b).1.cur]) := by
  unfold Publisher.drain
  cases waits : p.pending with
  | none => exact .inl ⟨rfl, rfl⟩
  | some next =>
    simp only
    rcases swapLocked_callbacks { p with
      retired := p.retired - 1, held := p.held.erase b, pending := none } next with
      parked | ⟨swapped, told⟩
    · exact .inl parked
    · rw [told, swapped]
      exact .inr ⟨inv.pending_ne waits, rfl⟩

theorem Work.callbacks (work : Work p p') (inv : p.Inv) :
    (p'.cur = p.cur ∧ p'.callbacks.Perm p.callbacks) ∨
      (p'.cur ≠ p.cur ∧ p'.callbacks.Perm (.published p'.cur :: p.callbacks)) := by
  cases work with
  | newSet | dropSet | acquire | giveBack => exact .inl ⟨rfl, List.Perm.refl _⟩
  | @publish q bundle acts accepted =>
    have told : Publisher.callbacks { q with calls := acts :: p.calls } =
        acts.filter Act.isCallback ++ p.callbacks := by
      simp only [Publisher.callbacks, Publisher.acts, flatten_cons, filter_append]
    rw [told]
    unfold Publisher.publish at accepted
    split at accepted
    · cases accepted
    cases accepted
    rw [filter_append, discards_silent, nil_append]
    rcases swapLocked_callbacks { p.accept bundle with pending := none } p.accepted with
      ⟨stays, none⟩ | ⟨swapped, one⟩
    · exact .inl ⟨stays, by rw [none, nil_append]⟩
    · rw [one, swapped]
      exact .inr ⟨Nat.ne_of_gt inv.cur_lt, List.Perm.refl _⟩
  | retry turn | take turn | closeSet turn | discard turn =>
    obtain ⟨rest, prev, post⟩ := Resumes.callbacks turn
    exact .inl ⟨rfl, post.trans prev.symm⟩
  | @release b calls turn =>
    obtain ⟨rest, prev, post⟩ := Resumes.callbacks turn
    refine .inl ⟨rfl, (post.trans ?_).trans prev.symm⟩
    split <;> exact List.Perm.refl _
  | @drained b calls turn =>
    obtain ⟨rest, prev, post⟩ := Resumes.callbacks turn
    have old : p.callbacks.Perm rest := prev
    rcases drain_callbacks inv b with ⟨stays, none⟩ | ⟨moved, one⟩
    · rw [none] at post
      exact .inl ⟨stays, post.trans old.symm⟩
    · rw [one] at post
      exact .inr ⟨moved, post.trans (old.symm.cons _)⟩

theorem Work.bundle_cur (work : Work p p') (inv : p.Inv) (eq : p'.cur = p.cur) :
    p'.bundle p'.cur = p.bundle p.cur := by
  have lt := inv.cur_lt
  cases work with
  | @publish q bundle acts accepted =>
    unfold Publisher.publish at accepted
    split at accepted
    · cases accepted
    cases accepted
    have kept := (swapLocked_cur { p.accept bundle with pending := none } p.accepted).1
    simp only at eq ⊢
    rw [eq, kept]
    simp only [Publisher.accept, Function.update_of_ne (Nat.ne_of_lt lt)]
  | drained =>
    simp only at eq ⊢
    rw [eq]
    unfold Publisher.drain
    cases p.pending with
    | none => rfl
    | some next =>
      simp only
      rw [(swapLocked_cur _ next).1]
  | _ => rfl

def Proxy.ServesCurrent (w : Proxy) : Prop :=
  w.gates.keeper.served = some (w.pub.bundle w.pub.cur).snapshot

structure Proxy.Inv (w : Proxy) : Prop where
  pub : w.pub.Inv
  gates : w.gates.Inv
  exact_ : w.gates.Exact
  callbacks : (w.pub.callbacks = [] ∧ w.ServesCurrent) ∨ w.pub.callbacks = [.published w.pub.cur] ∨
    (w.pub.callbacks = [.serving w.pub.cur] ∧ w.ServesCurrent)

theorem CleanTurn.work_callbacks {pub : Publisher} (work : Work w.pub pub)
    (clean : pub.cur ≠ w.pub.cur → w.pub.callbacks = []) (inv : w.Inv) :
    (pub.callbacks = [] ∧ Proxy.ServesCurrent { w with pub := pub }) ∨
      pub.callbacks = [.published pub.cur] ∨
      (pub.callbacks = [.serving pub.cur] ∧ Proxy.ServesCurrent { w with pub := pub }) := by
  rcases work.callbacks inv.pub with ⟨eq, perm⟩ | ⟨moved, perm⟩
  · have kept := work.bundle_cur inv.pub eq
    have serves : w.ServesCurrent → Proxy.ServesCurrent { w with pub := pub } := by
      intro served
      rw [Proxy.ServesCurrent, kept]
      exact served
    rcases inv.callbacks with ⟨none, served⟩ | one | ⟨one, served⟩
    · exact .inl ⟨perm_nil.mp (none ▸ perm), serves served⟩
    · rw [one] at perm
      rw [eq]
      exact .inr (.inl (perm_singleton.mp perm))
    rw [one] at perm
    rw [eq]
    exact .inr (.inr ⟨perm_singleton.mp perm, serves served⟩)
  · rw [clean moved] at perm
    exact .inr (.inl (perm_singleton.mp perm))

theorem Proxy.Inv.only_callback {a : Act} {new : List Act} {calls : List (List Act)}
    (inv : w.Inv) (turn : Resumes a new w.pub.calls calls) (callback : a.isCallback) :
    w.pub.callbacks = [a] ∧
      (calls.flatten.filter Act.isCallback).Perm (new.filter Act.isCallback) := by
  obtain ⟨rest, prev, post⟩ := Resumes.callbacks turn
  have short : w.pub.callbacks.length ≤ 1 := by
    rcases inv.callbacks with ⟨none, -⟩ | one | ⟨one, -⟩
    · simp [none]
    · simp [one]
    · simp [one]
  rw [filter_cons_of_pos callback, filter_nil] at prev
  have nil : rest = [] := by
    have length := prev.length_eq
    rw [length_append, length_singleton] at length
    refine eq_nil_of_length_eq_zero ?_
    have bound : (w.pub.calls.flatten.filter Act.isCallback).length ≤ 1 := short
    omega
  subst nil
  exact ⟨perm_singleton.mp prev, by simpa using post⟩

theorem CleanTurn.inv (turn : CleanTurn w w') (inv : w.Inv) : w'.Inv := by
  obtain ⟨turn, clean⟩ := turn
  cases turn with
  | work work =>
    exact ⟨work.inv inv.pub, inv.gates, inv.exact_, CleanTurn.work_callbacks work clean inv⟩
  | @visit gates visit =>
    have kept : gates.keeper = w.gates.keeper := by cases visit <;> rfl
    refine ⟨inv.pub, visit.inv inv.gates, visit.exact_ inv.gates inv.exact_, ?_⟩
    simpa only [Proxy.ServesCurrent, kept] using inv.callbacks
  | installed s free =>
    exact ⟨inv.pub, Admission.World.begin_inv inv.gates free _, Admission.begin_exact _,
      inv.callbacks⟩
  | installedReturns runs own done =>
    exact ⟨inv.pub, Admission.World.return_inv inv.gates runs done.1,
      Admission.return_exact inv.gates inv.exact_ runs done, inv.callbacks⟩
  | @published b calls free turn =>
    obtain ⟨only, post⟩ := inv.only_callback turn rfl
    have current : b = w.pub.cur := by
      rcases inv.callbacks with ⟨none, -⟩ | one | ⟨one, -⟩
      · rw [none] at only
        cases only
      · rw [only] at one
        exact Act.published.inj (singleton_inj.mp one)
      · rw [only] at one
        cases one
    subst current
    refine ⟨Step.inv (.deliver turn) inv.pub, Admission.World.begin_inv inv.gates free _,
      Admission.begin_exact _, .inr (.inr ⟨perm_singleton.mp post, rfl⟩)⟩
  | @publishedReturns sw b calls runs own done turn =>
    obtain ⟨only, post⟩ := inv.only_callback turn rfl
    have serves : w.ServesCurrent := by
      rcases inv.callbacks with ⟨-, served⟩ | one | ⟨-, served⟩
      · exact served
      · rw [only] at one
        cases one
      · exact served
    refine ⟨Step.inv (.returned turn) inv.pub, Admission.World.return_inv inv.gates runs done.1,
      Admission.return_exact inv.gates inv.exact_ runs done,
      .inl ⟨perm_nil.mp post, serves⟩⟩

theorem start_inv (first : Bundle) : (Proxy.start first).Inv :=
  ⟨newPublisher_inv first, Admission.World.begin_inv Admission.start_inv rfl _,
    Admission.begin_exact _, .inl ⟨rfl, rfl⟩⟩

theorem clean_run_inv {first : Bundle}
    (run : ReflTransGen CleanTurn (Proxy.start first) w) : w.Inv := by
  induction run with
  | refl => exact start_inv first
  | tail _ turn ih => exact turn.inv ih

/-- In every run in which a bundle is made current only when no earlier one's `Published` is
outstanding: once no call is in progress the keeper was last given the directory of the
bundle `Acquire` returns, and, unless requests route by an older version than the installed
one, every closed gate is closed by a barrier of the installed or the served directory. -/
theorem keeper_ends_on_served {first : Bundle} {w : Proxy}
    (run : ReflTransGen CleanTurn (Proxy.start first) w) (quiet : w.pub.acts = [])
    (idle : w.gates.call = none) : w.gates.keeper.served = some (w.pub.bundle w.pub.cur).snapshot ∧
      (w.gates.keeper.sticky = false → ∀ key k, (w.gates.gates.gate key).closed k ≠ "" →
        ∃ s ∈ w.gates.keeper.snapshots, carriesBarrier s.file key k) := by
  have inv := clean_run_inv run
  have none : w.pub.callbacks = [] := by rw [Publisher.callbacks, quiet]; rfl
  refine ⟨?_, ?_⟩
  · rcases inv.callbacks with ⟨-, served⟩ | one | ⟨one, -⟩
    · exact served
    · rw [none] at one
      cases one
    · rw [none] at one
      cases one
  intro loose key k closed
  have exact_ := inv.exact_
  simp only [Admission.World.Exact, idle] at exact_
  exact GateKeeper.closures_closes.mp (exact_ loose key k closed)

end

def heldBundle : Bundle := ⟨Admission.heldSnapshot, 0⟩

def movedSnapshot : Snapshot :=
  ⟨{ Admission.heldDirectory with
      version := 5
      placements := (∅ : StrMap Placement).insert "acme/photos"
        { Admission.photosPlacement with barrier := none } }, by decide⟩

theorem movedSnapshot_open : ¬ carriesBarrier movedSnapshot.file "acme/photos" .mutations := by
  intro carried
  obtain ⟨c, got, -⟩ := (Admission.Barriers_closes movedSnapshot).mpr carried
  have none : (Admission.Barriers movedSnapshot.file)["acme/photos"]? = none := by decide +kernel
  rw [none] at got
  cases got

def movedBundle : Bundle := ⟨movedSnapshot, 0⟩

def Proxy.ready : Proxy :=
  { Proxy.start firstBundle with
    gates := { (Proxy.start firstBundle).gates with call := none }, installing := false }

theorem Turn.clean {w w' : Proxy} (turn : Turn w w') (eq : w'.pub.cur = w.pub.cur) :
    CleanTurn w w' :=
  ⟨turn, fun moved => absurd eq moved⟩

theorem ready_run : ReflTransGen CleanTurn (Proxy.start firstBundle) Proxy.ready := by
  have ranged : CleanTurn (Proxy.start firstBundle) _ :=
    Turn.clean (.visit (.range rfl (by decide) (by decide) rfl)) rfl
  exact (ReflTransGen.single ranged).tail
    (Turn.clean (.installedReturns rfl rfl ⟨by decide, .inr (by decide)⟩) rfl)

/-- A second bundle is published, the first is retired and drained, and the keeper ends on the
second, whose barrier closes a gate. -/
theorem heldBundle_served : ∃ w, ReflTransGen CleanTurn (Proxy.start firstBundle) w ∧
    w.pub.cur = 1 ∧ w.gates.keeper.served = some Admission.heldSnapshot ∧
    (w.gates.gates.gate "acme/photos").closed .mutations = "op-1" ∧
    ∀ key k, (w.gates.gates.gate key).closed k ≠ "" →
      ∃ s ∈ w.gates.keeper.snapshots, carriesBarrier s.file key k := by
  have swap : Turn Proxy.ready _ := .work (.publish (b := heldBundle)
    (publish_swaps (by decide) rfl (by decide)))
  have run1 := ready_run.tail ⟨swap, fun _ => rfl⟩
  have run2 := run1.tail (Turn.clean (.work (.release (b := 0) .here)) rfl)
  have run3 := run2.tail (Turn.clean (.work (.closeSet (b := 0) .here)) rfl)
  have run4 := run3.tail (Turn.clean (.work (.drained (b := 0) .here)) rfl)
  have run5 := run4.tail (Turn.clean (.published (b := 1) rfl .here) rfl)
  have run6 := run5.tail (Turn.clean (.visit (@Visit.close _ _ "acme/photos" _ rfl
    (by decide +kernel) (Admission.getElem?_listed (by decide +kernel)))) rfl)
  have run7 := run6.tail (Turn.clean
    (.visit (.range rfl (by decide +kernel) (by decide +kernel) rfl)) rfl)
  have run8 := run7.tail (Turn.clean (.visit (@Visit.pass _ _ _ "acme/photos" rfl rfl
    (by decide +kernel) (by decide +kernel))) rfl)
  have run9 := run8.tail (Turn.clean (.publishedReturns (b := 1) rfl rfl
    ⟨by decide +kernel, Or.inr (by decide +kernel)⟩ .here) rfl)
  obtain ⟨served, carried⟩ := keeper_ends_on_served run9 rfl rfl
  exact ⟨_, run9, rfl, served, by decide +kernel, carried rfl⟩

/-- The callbacks of two swaps reach the keeper in the other order. Nothing is in progress any
more, requests route by version 5, the keeper stays on version 4, and a gate stays closed for
a barrier that neither the installed nor the current directory carries. -/
theorem swapped_callbacks : ∃ w, ReflTransGen Turn (Proxy.start firstBundle) w ∧
    w.pub.acts = [] ∧ w.gates.call = none ∧ (w.pub.bundle w.pub.cur).snapshot = movedSnapshot ∧
    w.gates.keeper.installed = some movedSnapshot ∧
    w.gates.keeper.served = some Admission.heldSnapshot ∧
    (w.gates.gates.gate "acme/photos").closed .mutations = "op-1" ∧
    ¬ carriesBarrier movedSnapshot.file "acme/photos" .mutations := by
  have begun : ReflTransGen Turn (Proxy.start firstBundle) Proxy.ready :=
    ReflTransGen.mono (fun _ _ turn => turn.1) _ _ ready_run
  have first : Turn Proxy.ready _ := .work (.publish (b := heldBundle)
    (publish_swaps (by decide) rfl (by decide)))
  have run1 := begun.tail first
  have run2 := run1.tail (.work (.publish (b := movedBundle)
    (publish_swaps (by decide) rfl (by decide))))
  have run3 := run2.tail (.work (.release (b := 1) .here))
  have run4 := run3.tail (.work (.closeSet (b := 1) .here))
  have run5 := run4.tail (.work (.drained (b := 1) .here))
  have run6 := run5.tail (.published (b := 2) rfl .here)
  have run7 := run6.tail (.visit (.range rfl (by decide +kernel) (by decide +kernel) rfl))
  have run8 := run7.tail (.publishedReturns (b := 2) rfl rfl
    ⟨by decide +kernel, Or.inr (by decide +kernel)⟩ .here)
  have run9 := run8.tail (.installed movedSnapshot rfl)
  have run10 := run9.tail (.visit (.range rfl (by decide +kernel) (by decide +kernel) rfl))
  have run11 := run10.tail (.installedReturns rfl rfl
    ⟨by decide +kernel, Or.inr (by decide +kernel)⟩)
  have run12 := run11.tail (.work (.release (b := 0) (.later .here)))
  have run13 := run12.tail (.work (.closeSet (b := 0) (.later .here)))
  have run14 := run13.tail (.work (.drained (b := 0) (.later .here)))
  have run15 := run14.tail (.published (b := 1) rfl (.later .here))
  have run16 := run15.tail (.visit (@Visit.close _ _ "acme/photos" _ rfl (by decide +kernel)
    (Admission.getElem?_listed (by decide +kernel))))
  have run17 := run16.tail (.publishedReturns (b := 1) rfl rfl
    ⟨by decide +kernel, Or.inl (by decide +kernel)⟩ (.later .here))
  exact ⟨_, run17, rfl, rfl, rfl, rfl, rfl, by decide +kernel, movedSnapshot_open⟩

end Shunt.Runtimecfg
