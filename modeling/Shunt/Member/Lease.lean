/-
The lease of a member: heartbeats, answers that come in any order, late or again, directories
installed in between, and the checks by which an answer becomes the lease.
-/

import Shunt.Directory.Validate

namespace Shunt.Member

open List Relation

open Directory (Identity)

structure Beat where
  seq : Int
  sent : Int
  applied : Int

structure BeatAnswer where
  seq : Int
  identity : Identity
  version : Int
  leaseTTL : Int

structure Lease where
  seq : Int
  until_ : Int

abbrev Answered := Beat × BeatAnswer

/-- The installed directory's lineage and version, the lease, the heartbeats sent, and the
answers that have passed each check of `renew`, some of which are still at the next. An answer
of the right lineage stands with the lineage the member had at that check. -/
structure LeaseWorld where
  identity : Identity := {}
  version : Int := 0
  faulted : Bool := false
  seq : Int := 0
  lease : Option Lease := none
  beats : List Beat := []
  front : List Answered := []
  lineal : List (Answered × Identity) := []
  current : List Answered := []
  timely : List Answered := []

def Answered.until_ (ttl : Int) (p : Answered) : Int := p.1.sent + min p.2.leaseTTL ttl

namespace LeaseWorld

def stale (w : LeaseWorld) (now : Int) : Bool :=
  w.faulted || match w.lease with
    | none => true
    | some g => decide (g.until_ < now)

def install (w : LeaseWorld) (identity : Identity) (version : Int) (sound : Bool) : LeaseWorld :=
  if identity.validate ≠ none then w
  else if w.identity.isZero = false ∧ w.identity ≠ identity then { w with faulted := true }
  else if version ≤ w.version ∨ sound = false then w
  else { w with identity := identity, version := version }

def take (w : LeaseWorld) (ttl : Int) (p : Answered) : LeaseWorld :=
  match w.lease with
  | some g => if p.1.seq ≤ g.seq then w else { w with lease := some ⟨p.1.seq, p.until_ ttl⟩ }
  | none => { w with lease := some ⟨p.1.seq, p.until_ ttl⟩ }

end LeaseWorld

/-- The steps of a member with its own lease time. -/
inductive LeaseStep (ttl : Int) : LeaseWorld → LeaseWorld → Prop where
  | beat {w} (now applied : Int) :
      LeaseStep ttl w { w with seq := w.seq + 1, beats := ⟨w.seq + 1, now, applied⟩ :: w.beats }
  | install {w} (identity : Identity) (version : Int) (sound : Bool) :
      LeaseStep ttl w (w.install identity version sound)
  /-- The control plane refuses the member's lineage. -/
  | fault {w} : LeaseStep ttl w { w with faulted := true }
  | answer {w b a} (sent : b ∈ w.beats) (seq : a.seq = b.seq)
      (granted : 0 < a.leaseTTL) (ahead : b.applied ≤ a.version) :
      LeaseStep ttl w { w with front := (b, a) :: w.front }
  | lineage {w p} (passed : p ∈ w.front) (eq : w.identity = p.2.identity) :
      LeaseStep ttl w { w with lineal := (p, w.identity) :: w.lineal }
  | installed {w p i} (passed : (p, i) ∈ w.lineal) (has : p.2.version ≤ w.version) :
      LeaseStep ttl w { w with current := p :: w.current }
  | inTime {w p} (passed : p ∈ w.current) (now : Int) (early : now ≤ p.until_ ttl) :
      LeaseStep ttl w { w with timely := p :: w.timely }
  | take {w p} (passed : p ∈ w.timely) : LeaseStep ttl w (w.take ttl p)

/-- A heartbeat, sent and answered, that the lease at a time rests on. -/
structure Earned (ttl : Int) (w : LeaseWorld) (now : Int) (p : Answered) : Prop where
  sent : p.1 ∈ w.beats
  answered : p.2.seq = p.1.seq
  covers : now ≤ p.1.sent + min p.2.leaseTTL ttl
  installed : p.2.version ≤ w.version
  lineage : ∃ i, (p, i) ∈ w.lineal ∧ p.2.identity = i ∧ (i = w.identity ∨ i.isZero = true)

/-- The lease stays, or one of a later heartbeat takes its place. -/
def LeaseForward (w w' : LeaseWorld) : Prop :=
  ∀ g, w.lease = some g → ∃ g', w'.lease = some g' ∧ (g' = g ∨ g.seq < g'.seq)

structure LeaseWorld.Inv (ttl : Int) (w : LeaseWorld) : Prop where
  front : ∀ p ∈ w.front, p.1 ∈ w.beats ∧ p.2.seq = p.1.seq
  lineal : ∀ p ∈ w.lineal, p.1 ∈ w.front ∧ p.1.2.identity = p.2 ∧
    (p.2 = w.identity ∨ p.2.isZero = true)
  current : ∀ p ∈ w.current, (∃ i, (p, i) ∈ w.lineal) ∧ p.2.version ≤ w.version
  timely : ∀ p ∈ w.timely, p ∈ w.current
  lease : ∀ g, w.lease = some g → ∃ p ∈ w.timely, g = ⟨p.1.seq, p.until_ ttl⟩

variable {ttl : Int} {w w' : LeaseWorld}

theorem install_inv (inv : w.Inv ttl) (identity : Identity) (version : Int)
    (sound : Bool) : (w.install identity version sound).Inv ttl := by
  unfold LeaseWorld.install
  split
  · exact inv
  split
  · exact ⟨inv.front, inv.lineal, inv.current, inv.timely, inv.lease⟩
  split
  · exact inv
  rename_i eq newer
  rw [not_or, not_le] at newer
  refine ⟨inv.front, fun p mem => ?_, fun p mem => ?_, inv.timely, inv.lease⟩
  · obtain ⟨passed, answered, lineage⟩ := inv.lineal p mem
    refine ⟨passed, answered, lineage.elim (fun is_ => ?_) .inr⟩
    rw [not_and_not_right] at eq
    by_cases zero : w.identity.isZero
    · exact .inr (is_ ▸ zero)
    · exact .inl (is_.trans (eq (by simpa using zero)))
  · obtain ⟨passed, has⟩ := inv.current p mem
    exact ⟨passed, has.trans newer.1.le⟩

theorem LeaseStep.inv (step : LeaseStep ttl w w') (inv : w.Inv ttl) : w'.Inv ttl := by
  cases step with
  | beat =>
    exact ⟨fun p mem => ⟨mem_cons_of_mem _ (inv.front p mem).1, (inv.front p mem).2⟩,
      inv.lineal, inv.current, inv.timely, inv.lease⟩
  | install identity version sound => exact install_inv inv identity version sound
  | fault => exact ⟨inv.front, inv.lineal, inv.current, inv.timely, inv.lease⟩
  | answer sent seq =>
    refine ⟨fun p mem => ?_, fun p mem => ?_, inv.current, inv.timely, inv.lease⟩
    · rcases mem_cons.mp mem with rfl | old
      · exact ⟨sent, seq⟩
      · exact inv.front p old
    · exact ⟨mem_cons_of_mem _ (inv.lineal p mem).1, (inv.lineal p mem).2⟩
  | lineage passed eq =>
    refine ⟨inv.front, fun p mem => ?_, fun p mem => ?_, inv.timely, inv.lease⟩
    · rcases mem_cons.mp mem with rfl | old
      · exact ⟨passed, eq.symm, .inl rfl⟩
      · exact inv.lineal p old
    · exact (inv.current p mem).imp_left (Exists.imp fun _ => mem_cons_of_mem _)
  | installed passed has =>
    refine ⟨inv.front, inv.lineal, fun p mem => ?_, fun p mem => ?_, inv.lease⟩
    · rcases mem_cons.mp mem with rfl | old
      · exact ⟨⟨_, passed⟩, has⟩
      · exact inv.current p old
    · exact mem_cons_of_mem _ (inv.timely p mem)
  | inTime passed =>
    refine ⟨inv.front, inv.lineal, inv.current, fun p mem => ?_, fun g held => ?_⟩
    · rcases mem_cons.mp mem with rfl | old
      · exact passed
      · exact inv.timely p old
    · obtain ⟨p, mem, is_⟩ := inv.lease g held
      exact ⟨p, mem_cons_of_mem _ mem, is_⟩
  | @take p passed =>
    have taken : LeaseWorld.Inv ttl { w with lease := some ⟨p.1.seq, p.until_ ttl⟩ } :=
      ⟨inv.front, inv.lineal, inv.current, inv.timely, fun g held => by
        cases held
        exact ⟨p, passed, rfl⟩⟩
    unfold LeaseWorld.take
    split
    · split
      · exact inv
      · exact taken
    · exact taken

theorem LeaseStep.forward (step : LeaseStep ttl w w') : LeaseForward w w' := by
  intro g held
  cases step with
  | beat | fault | answer | lineage | installed | inTime => exact ⟨g, held, .inl rfl⟩
  | install =>
    refine ⟨g, ?_, .inl rfl⟩
    unfold LeaseWorld.install
    split_ifs <;> exact held
  | take =>
    simp only [LeaseWorld.take, held]
    split
    · exact ⟨g, held, .inl rfl⟩
    · rename_i newer
      exact ⟨_, rfl, .inr (not_le.mp newer)⟩

theorem lease_earned (ttl : Int) (w : LeaseWorld) (run : ReflTransGen (LeaseStep ttl) {} w) :
    (∀ now, w.stale now = false → ∃ p, Earned ttl w now p) ∧
      ∀ w', LeaseStep ttl w w' → LeaseForward w w' := by
  have inv : w.Inv ttl := by
    induction run with
    | refl => exact ⟨nofun, nofun, nofun, nofun, nofun⟩
    | tail _ step ih => exact step.inv ih
  refine ⟨fun now fresh => ?_, fun w' step => step.forward⟩
  rw [LeaseWorld.stale, Bool.or_eq_false_iff] at fresh
  cases held : w.lease with
  | none => simp [held] at fresh
  | some g =>
    obtain ⟨p, mem, rfl⟩ := inv.lease g held
    obtain ⟨⟨i, lineal⟩, has⟩ := inv.current p (inv.timely p mem)
    obtain ⟨passed, lineage⟩ := inv.lineal _ lineal
    obtain ⟨sent, answered⟩ := inv.front p passed
    refine ⟨p, sent, answered, ?_, has, i, lineal, lineage⟩
    simpa [held, Answered.until_] using fresh.2

def earlyBeat : Answered := (⟨1, 0, 0⟩, ⟨1, {}, 0, 10⟩)

def drawn : Identity :=
  ⟨"00000000000000000000000000000000", "00000000000000000000000000000001"⟩

def leasedEarly : LeaseWorld :=
  { identity := drawn, version := 1, seq := 1, lease := some ⟨1, 10⟩, beats := [earlyBeat.1]
    front := [earlyBeat], lineal := [(earlyBeat, {})], current := [earlyBeat]
    timely := [earlyBeat] }

theorem leasedEarly_run : ReflTransGen (LeaseStep 10) {} leasedEarly := by
  have sent := ReflTransGen.single (@LeaseStep.beat 10 {} 0 0)
  have front := sent.tail (.answer (a := earlyBeat.2) (mem_singleton.mpr rfl) rfl (by decide)
    (by decide))
  have lineal := front.tail (.lineage (mem_singleton.mpr rfl) rfl)
  have current := lineal.tail (.installed (mem_singleton.mpr rfl) (by decide))
  have timely := current.tail (.inTime (mem_singleton.mpr rfl) 0 (by decide))
  have leased := timely.tail (.take (mem_singleton.mpr rfl))
  have last := leased.tail (.install drawn 1 true)
  exact last

theorem leasedEarly_earned : ∃ p, Earned 10 leasedEarly 5 p :=
  (lease_earned 10 leasedEarly leasedEarly_run).1 5 rfl

/-- The lease outlives the empty directory, and no heartbeat was answered under the lineage that
the member has since. -/
theorem leasedEarly_unlineal :
    ReflTransGen (LeaseStep 10) {} leasedEarly ∧ leasedEarly.stale 5 = false ∧
      ∀ p ∈ leasedEarly.front, p.2.identity ≠ leasedEarly.identity :=
  ⟨leasedEarly_run, rfl, by decide⟩

end Shunt.Member
