/-
What the mover reports of one object, against what happened to it.
-/

import Shunt.Mover.CopyOne

namespace Shunt.Mover

open Library List Option

variable {res : Except CallError Answer} {next : Answer → Steps (Except CallError Answer)}
  {prev : List (Call × Reply)}

/-- An object on the target, and whether it is the mover's copy. -/
structure Stored where
  etag : String
  modified : Nat
  mine : Bool
  deriving DecidableEq

abbrev Target := Option Stored

/-- Clients leave the object, delete it or write another. -/
def Drifts (t t' : Target) : Prop := t' = t ∨ t' = none ∨ ∃ o : Stored, t' = some o ∧ o.mine = false

/-- A write of the mover's copy: answered with what was stored, refused, or not known. -/
def Lands (t : Target) (r : Reply) (t' : Target) : Prop :=
  match r with
  | .ok a => ∃ modified, t' = some ⟨a.etag, modified, true⟩ ∧ ∀ d, a.date = some d → modified ≤ d
  | .failed => t' = t ∨ ∃ etag modified, t' = some ⟨etag, modified, true⟩
  | _ => t' = t

def Effect (t : Target) (c : Call) (r : Reply) (t' : Target) : Prop :=
  match c with
  | .putTarget _ | .completeUpload _ => Lands t r t'
  | .headTarget | .inspectTarget =>
    t' = t ∧
      match r with
      | .ok a => ∃ o, t = some o ∧ a.etag = o.etag ∧ a.modified = o.modified
      | .notFound => t = none
      | _ => True
  | .deleteTarget ifMatch =>
    match r with
    | .ok _ => t' = none
    | .notFound => t = none ∧ t' = none
    | .preconditionFailed =>
      t' = t ∧ ∀ e, ifMatch = some e → ∃ o, t = some o ∧ o.etag ≠ e
    | .failed => t' = t ∨ t' = none
  | _ => t' = t

def Serves (t : Target) (c : Call) (r : Reply) (t' : Target) : Prop :=
  ∃ between, Drifts t between ∧ Effect between c r t'

def Clean (t : Target) : Prop := ∀ o, t = some o → o.mine = false

def Holds (a : Answer) (t : Target) : Prop :=
  ∀ o, t = some o → o.mine = true →
    o.etag = a.etag ∧ ∀ d, a.date = some d → o.modified ≤ d

def Call.lands : Call → Bool
  | .putTarget _ | .completeUpload _ => true
  | _ => false

def Call.early : Call → Bool
  | .recheckSource | .inspectTarget => false
  | _ => true

variable {t t' : Target} {c : Call} {r : Reply} {a : Answer} {j : Job} {w w' : Target}
  {trace : List (Call × Reply)}

theorem Drifts.clean (drifts : Drifts t t') (clean : Clean t) : Clean t' := by
  intro o got
  rcases drifts with eq | gone | ⟨o', written, other⟩
  · exact clean o (eq ▸ got)
  · rw [gone] at got
    cases got
  rw [written] at got
  cases got
  exact other

theorem Drifts.holds (drifts : Drifts t t') (holds : Holds a t) : Holds a t' := by
  intro o got mine
  rcases drifts with eq | gone | ⟨o', written, other⟩
  · exact holds o (eq ▸ got) mine
  · rw [gone] at got
    cases got
  rw [written] at got
  cases got
  rw [other] at mine
  cases mine

theorem Serves.clean (served : Serves t c r t') (clean : Clean t)
    (quiet : c.lands = false ∨ r = .notFound ∨ r = .preconditionFailed) : Clean t' := by
  obtain ⟨between, drifts, effect⟩ := served
  have prev := drifts.clean clean
  have none : Clean (none : Target) := fun _ got => by cases got
  have writes : Lands between r t' → r = .notFound ∨ r = .preconditionFailed → Clean t' := by
    intro landed refused
    rcases refused with eq | eq <;> subst eq <;> exact landed ▸ prev
  cases c with
  | putTarget | completeUpload =>
    exact writes effect (quiet.resolve_left (by simp [Call.lands]))
  | headTarget | inspectTarget => exact effect.1 ▸ prev
  | deleteTarget =>
    cases r with
    | ok => exact effect ▸ none
    | notFound => exact effect.2 ▸ none
    | preconditionFailed => exact effect.1 ▸ prev
    | failed =>
      rcases effect with eq | gone
      · exact eq ▸ prev
      · exact gone ▸ none
  | headSource | headSourcePart | getSource | readBody | createUpload | uploadPart | abortUpload
  | recheckSource => exact effect ▸ prev

theorem Serves.landed (served : Serves t c (.ok a) t') (lands : c.lands) : Holds a t' := by
  obtain ⟨between, -, effect⟩ := served
  have stored : Lands between (.ok a) t' := by
    cases c <;> first | exact effect | cases lands
  obtain ⟨modified, got, dated⟩ := stored
  intro o here mine
  rw [got] at here
  cases here
  exact ⟨rfl, dated⟩

/-- What a run of the copying part leaves: a copy that landed last, or, unless its end is not
known, none. -/
structure Wrote (trace : List (Call × Reply)) (res : Except CallError Answer) (t : Target) :
    Prop where
  early : ∀ e ∈ trace, e.1.early = true
  landed : ∀ a, res = .ok a → Holds a t ∧ ∃ prev c, trace = prev ++ [(c, .ok a)] ∧ c.lands = true
  clean : res = .error .notFound ∨ res = .error .preconditionFailed → Clean t

theorem Wrote.cons {res : Except CallError Answer} (wrote : Wrote trace res t)
    (early : c.early) : Wrote ((c, r) :: trace) res t := by
  refine ⟨forall_mem_cons.mpr ⟨early, wrote.early⟩, ?_, wrote.clean⟩
  intro a done
  obtain ⟨holds, prev, last, ends, lands⟩ := wrote.landed a done
  exact ⟨holds, (c, r) :: prev, last, by rw [ends]; rfl, lands⟩

theorem wrote_error {e : CallError} (clean : Clean t) : Wrote [] (.error e) t :=
  ⟨fun _ mem => (nomatch mem), fun _ ok => (nomatch ok), fun _ => clean⟩

theorem wrote_last (served : Serves t c r t') (lands : c.lands) (early : c.early)
    (clean : Clean t) : Wrote [(c, r)] r.result t' := by
  refine ⟨by simpa using early, ?_, ?_⟩
  · intro a done
    cases r with
    | ok =>
      cases done
      exact ⟨served.landed lands, [], c, rfl, lands⟩
    | notFound | preconditionFailed | failed => cases done
  intro refused
  refine served.clean clean (.inr ?_)
  cases r with
  | ok | failed => rcases refused with eq | eq <;> cases eq
  | notFound => exact .inl rfl
  | preconditionFailed => exact .inr rfl

theorem abort_wrote {e : CallError} (run : Runs Serves w (abort e) trace res w')
    (clean : e = .notFound ∨ e = .preconditionFailed → Clean w) : Wrote trace res w' := by
  obtain ⟨r, w₁, rest, served, goes, rfl⟩ := call_iff.mp run
  obtain ⟨rfl, rfl, rfl⟩ := done_iff.mp goes
  refine ⟨by simp [Call.early], fun _ ok => (nomatch ok), fun refused => ?_⟩
  refine served.clean (clean ?_) (.inl rfl)
  rcases refused with eq | eq <;> cases eq
  · exact .inl rfl
  · exact .inr rfl

theorem finish_wrote (clean : Clean w)
    (run : Runs Serves w (.call (.completeUpload j.conditional) fun r =>
      match r.result with
      | .error e => abort e
      | .ok answer => .done (.ok answer)) trace res w') : Wrote trace res w' := by
  obtain ⟨r, w₁, rest, served, goes, rfl⟩ := call_iff.mp run
  have last := wrote_last served rfl rfl clean
  cases r with
  | ok =>
    obtain ⟨rfl, rfl, rfl⟩ := done_iff.mp goes
    exact last
  | notFound => exact (abort_wrote goes fun _ => last.clean (.inl rfl)).cons rfl
  | preconditionFailed => exact (abort_wrote goes fun _ => last.clean (.inr rfl)).cons rfl
  | failed => exact (abort_wrote goes fun no => by simp at no).cons rfl

theorem completeUpload_wrote (run : Runs Serves w (completeUpload j) trace res w')
    (clean : Clean w) : Wrote trace res w' := by
  unfold completeUpload at run
  by_cases guarded : j.conditional
  · rw [if_pos guarded] at run
    exact finish_wrote clean run
  rw [if_neg guarded] at run
  obtain ⟨r, w₁, rest, served, goes, rfl⟩ := call_iff.mp run
  have kept := served.clean clean (.inl rfl)
  cases r with
  | ok | preconditionFailed | failed => exact (abort_wrote goes fun _ => kept).cons rfl
  | notFound => exact (finish_wrote kept goes).cons rfl

theorem call_or {fail : CallError → Script Call Reply (Except CallError Answer)}
    (run : Runs Serves w (.call c fun r =>
      match r.result with
      | .error e => fail e
      | .ok answer => next answer) trace res w')
    (clean : Clean w) (quiet : c.lands = false) (early : c.early)
    (fails : ∀ {e w₁ rest}, Clean w₁ → Runs Serves w₁ (fail e) rest res w' → Wrote rest res w')
    (goesOn : ∀ {answer w₁ rest}, Clean w₁ → Runs Serves w₁ (next answer) rest res w' →
      Wrote rest res w') : Wrote trace res w' := by
  obtain ⟨r, w₁, rest, served, goes, rfl⟩ := call_iff.mp run
  have kept := served.clean clean (.inl quiet)
  cases r with
  | ok => exact (goesOn kept goes).cons early
  | notFound | preconditionFailed | failed => exact (fails kept goes).cons early

theorem done_wrote {e : CallError} (clean : Clean w)
    (run : Runs Serves w (.done (.error e)) trace res w') : Wrote trace res w' := by
  obtain ⟨rfl, rfl, rfl⟩ := done_iff.mp run
  exact wrote_error clean

theorem copyParts_wrote {left n offset : Nat}
    (run : Runs Serves w (copyParts j left n offset) trace res w') (clean : Clean w) :
    Wrote trace res w' := by
  induction left generalizing n offset w trace with
  | zero => exact completeUpload_wrote run clean
  | succ left ih =>
    have fails {e w₁ rest} (kept : Clean w₁) (goes : Runs Serves w₁ (abort e) rest res w') :=
      abort_wrote goes fun _ => kept
    refine call_or run clean rfl rfl fails fun {part} _ _ kept run => ?_
    refine call_or run kept rfl rfl fails fun {_} _ _ kept run => ?_
    obtain ⟨r, w₁, rest, served, goes, rfl⟩ := call_iff.mp run
    have kept := served.clean kept (.inl rfl)
    cases r with
    | ok =>
      refine Wrote.cons ?_ rfl
      refine call_or goes kept rfl rfl fails fun {_} _ _ kept run => ?_
      exact ih run kept
    | notFound | preconditionFailed | failed => exact (abort_wrote goes fun _ => kept).cons rfl

theorem copySingle_wrote (run : Runs Serves w (copySingle j) trace res w') (clean : Clean w) :
    Wrote trace res w' := by
  refine call_or run clean rfl rfl done_wrote fun {_} _ _ kept run => ?_
  obtain ⟨r, w₁, rest, served, goes, rfl⟩ := call_iff.mp run
  have kept := served.clean kept (.inl rfl)
  cases r with
  | ok =>
    obtain ⟨r, w₂, rest, served, goes2, rfl⟩ := call_iff.mp goes
    obtain ⟨rfl, rfl, rfl⟩ := done_iff.mp goes2
    exact (wrote_last served rfl rfl kept).cons rfl
  | notFound | preconditionFailed | failed => exact (done_wrote kept goes).cons rfl

theorem copyMultipart_wrote {parts : Nat}
    (run : Runs Serves w (copyMultipart j parts) trace res w') (clean : Clean w) :
    Wrote trace res w' :=
  call_or run clean rfl rfl done_wrote fun kept run => copyParts_wrote run kept

structure Truthful (trace : List (Call × Reply)) (entry : LedgerEntry) (t : Target) : Prop where
  copied : entry.result = .copied → ∃ prev c a b,
    trace = prev ++ [(c, .ok a), (.recheckSource, .ok b)] ∧ c.lands = true
  vanished : entry.result = .vanished → Clean t

/-- The source was seen or seen gone once the copy had landed. -/
def RecheckAnswered (trace : List (Call × Reply)) : Prop :=
  ∀ r, (Call.recheckSource, r) ∈ trace → (∃ a, r = .ok a) ∨ r = .notFound

/-- The copy to be taken back was not found without an ETag. -/
def CopyTagged (trace : List (Call × Reply)) (t : Target) : Prop :=
  ∀ a, (Call.inspectTarget, Reply.ok a) ∈ trace → a.etag ≠ "" ∨ Clean t

theorem early_truthful {entry : LedgerEntry} (early : ∀ e ∈ trace, e.1.early)
    (notCopied : entry.result ≠ .copied) (clean : entry.result = .vanished → Clean t) :
    Truthful trace entry t ↔ RecheckAnswered trace ∧ CopyTagged trace t := by
  constructor
  · intro _
    constructor
    · intro r mem
      exact absurd (early _ mem) (by simp [Call.early])
    · intro a mem
      exact absurd (early _ mem) (by simp [Call.early])
  · intro _
    exact ⟨fun copied => absurd copied notCopied, clean⟩

theorem ownCopy_mine {head : Answer} {o : Stored} (holds : Holds a (some o)) (mine : o.mine)
    (etag : head.etag = o.etag) (modified : head.modified = o.modified) (named : head.etag ≠ "") :
    ownCopy head.etag a.etag head.modified a.date = true := by
  obtain ⟨eq, dated⟩ := holds o rfl mine
  unfold ownCopy
  rw [if_neg (by rw [etag, eq] at named ⊢; simp [named])]
  cases date : a.date with
  | none => rfl
  | some d => simpa [modified] using dated d date

theorem withdraw_cases {res : Except CallError String}
    (run : Runs Serves w (withdraw j a.etag a.date) trace res w') (holds : Holds a w) :
    (∀ r, (Call.recheckSource, r) ∉ trace) ∧ ((∃ e, res = .error e) ∧ CopyTagged trace w' ∨
        (∃ detail, res = .ok detail) ∧ (Clean w' ↔ CopyTagged trace w')) := by
  unfold withdraw at run
  by_cases cond : j.condDelete
  · rw [if_pos cond] at run
    obtain ⟨r, w₁, rest, ⟨between, drifts, effect⟩, goes, rfl⟩ := call_iff.mp run
    obtain ⟨rfl, rfl, rfl⟩ := done_iff.mp goes
    refine ⟨by simp, ?_⟩
    have tagged : CopyTagged [(Call.deleteTarget (some a.etag), r)] w' := by
      intro b mem
      simp at mem
    cases r with
    | ok =>
      refine .inr ⟨⟨_, rfl⟩, fun _ => tagged, fun _ o got => ?_⟩
      rw [effect] at got
      cases got
    | notFound =>
      refine .inr ⟨⟨_, rfl⟩, fun _ => tagged, fun _ o got => ?_⟩
      rw [effect.2] at got
      cases got
    | preconditionFailed =>
      refine .inr ⟨⟨_, rfl⟩, fun _ => tagged, fun _ o got => ?_⟩
      obtain ⟨eq, ne⟩ := effect
      obtain ⟨o', here, other⟩ := ne _ rfl
      rw [eq, here] at got
      cases got
      by_contra mine
      exact other (drifts.holds holds o here (by simpa using mine)).1
    | failed => exact .inl ⟨⟨_, rfl⟩, tagged⟩
  · rw [if_neg cond] at run
    obtain ⟨r, w₁, rest, ⟨between, drifts, eq, seen⟩, goes, rfl⟩ := call_iff.mp run
    subst eq
    have held := drifts.holds holds
    cases r with
    | notFound =>
      obtain ⟨rfl, rfl, rfl⟩ := done_iff.mp goes
      refine ⟨by simp, .inr ⟨⟨_, rfl⟩, fun _ b mem => by simp at mem, fun _ o got => ?_⟩⟩
      rw [seen] at got
      cases got
    | preconditionFailed | failed =>
      obtain ⟨rfl, rfl, rfl⟩ := done_iff.mp goes
      exact ⟨by simp, .inl ⟨⟨_, rfl⟩, fun b mem => by simp at mem⟩⟩
    | ok head =>
      obtain ⟨o, here, etag, modified⟩ := seen
      by_cases own : ownCopy head.etag a.etag head.modified a.date
      · simp only [if_pos own] at goes
        obtain ⟨r, w₂, rest, ⟨between, -, effect⟩, deletes, rfl⟩ := call_iff.mp goes
        obtain ⟨rfl, rfl, rfl⟩ := done_iff.mp deletes
        refine ⟨by simp, ?_⟩
        have named : CopyTagged [(Call.inspectTarget, Reply.ok head),
            (Call.deleteTarget none, r)] w' := by
          intro b mem
          obtain rfl : b = head := by simpa using mem
          refine .inl fun nil => ?_
          simp [ownCopy, nil] at own
        cases r with
        | ok b =>
          have gone : Clean w' := by
            intro x got
            rw [effect] at got
            cases got
          exact .inr ⟨⟨_, rfl⟩, fun _ b mem => .inr gone, fun _ => gone⟩
        | notFound | preconditionFailed | failed => exact .inl ⟨⟨_, rfl⟩, named⟩
      · simp only [if_neg own] at goes
        obtain ⟨rfl, rfl, rfl⟩ := done_iff.mp goes
        refine ⟨by simp, .inr ⟨⟨_, rfl⟩, fun clean b _ => .inr clean, fun tagged => ?_⟩⟩
        rcases tagged head (by simp) with named | clean
        · intro x got
          rw [here] at got
          cases got
          by_contra mine
          rw [here] at held
          exact own (ownCopy_mine held (by simpa using mine) etag modified named)
        · exact clean

theorem unseen_untruthful (w' : Target) (absent : ∀ b, r ≠ .ok b) (there : r ≠ .notFound) :
    Truthful (prev ++ (c, .ok a) :: [(Call.recheckSource, r)]) ⟨.copied, ""⟩ w' ↔
      RecheckAnswered [(Call.recheckSource, r)] ∧ CopyTagged [(Call.recheckSource, r)] w' := by
  constructor
  · intro truthful
    obtain ⟨prev', c', a', b, eq, -⟩ := truthful.copied rfl
    have last := congrArg List.getLast? eq
    simp only [getLast?_append, getLast?_cons, getLast?_nil, getD_none,
      getD_some, some_or, Option.some.injEq, Prod.mk.injEq, true_and] at last
    exact absurd last (absent b)
  rintro ⟨told, -⟩
  rcases told r (by simp) with ⟨b, ok⟩ | gone
  · exact absurd ok (absent b)
  · exact absurd gone there

theorem settle_truthful {entry : LedgerEntry} (run : Runs Serves w (settle j a) trace entry w')
    (holds : Holds a w) (early : ∀ e ∈ prev, e.1.early) (lands : c.lands) (first : c.early) :
    Truthful (prev ++ (c, .ok a) :: trace) entry w' ↔
      RecheckAnswered (prev ++ (c, .ok a) :: trace) ∧
        CopyTagged (prev ++ (c, .ok a) :: trace) w' := by
  have front : ∀ e ∈ prev ++ [(c, Reply.ok a)], e.1.early := by
    intro e mem
    rcases mem_append.mp mem with isIn | last
    · exact early e isIn
    · rw [mem_singleton.mp last]
      exact first
  have told : RecheckAnswered (prev ++ (c, .ok a) :: trace) ↔ RecheckAnswered trace := by
    constructor
    · intro all r mem
      exact all r (by simp [mem])
    intro all r mem
    rw [append_cons, mem_append] at mem
    rcases mem with isIn | later
    · exact absurd (front _ isIn) (by simp [Call.early])
    · exact all r later
  have tagged : CopyTagged (prev ++ (c, .ok a) :: trace) w' ↔ CopyTagged trace w' := by
    constructor
    · intro all b mem
      exact all b (by simp [mem])
    intro all b mem
    rw [append_cons, mem_append] at mem
    rcases mem with isIn | later
    · exact absurd (front _ isIn) (by simp [Call.early])
    · exact all b later
  rw [told, tagged]
  obtain ⟨r, w₁, rest, ⟨between, drifts, effect⟩, goes, rfl⟩ := call_iff.mp run
  have held : Holds a w₁ := effect ▸ drifts.holds holds
  cases r with
  | notFound =>
    obtain ⟨res, w₂, taken, last, withdrawn, goes2, rfl⟩ := bind_iff.mp goes
    obtain ⟨rfl, rfl, rfl⟩ := done_iff.mp goes2
    obtain ⟨silent, ends⟩ := withdraw_cases withdrawn held
    have seen : RecheckAnswered ((Call.recheckSource, Reply.notFound) :: (taken ++ [])) := by
      intro r mem
      rcases mem_cons.mp mem with eq | later
      · cases eq
        exact .inr rfl
      · exact absurd (by simpa using later) (silent r)
    have late : CopyTagged ((Call.recheckSource, Reply.notFound) :: (taken ++ [])) w' ↔
        CopyTagged taken w' := by
      simp [CopyTagged]
    rw [late]
    rcases ends with ⟨⟨e, rfl⟩, named⟩ | ⟨⟨detail, rfl⟩, clean⟩
    · exact ⟨fun _ => ⟨seen, named⟩, fun _ =>
        ⟨fun copied => (by cases copied), fun vanished => (by cases vanished)⟩⟩
    rw [← clean]
    exact ⟨fun truthful => ⟨seen, truthful.vanished rfl⟩, fun both =>
      ⟨fun copied => (by cases copied), fun _ => both.2⟩⟩
  | ok b =>
    obtain ⟨rfl, rfl, rfl⟩ := done_iff.mp goes
    constructor
    · intro _
      refine ⟨fun r mem => ?_, fun x mem => by simp at mem⟩
      obtain rfl : r = .ok b := by simpa using mem
      exact .inl ⟨b, rfl⟩
    · intro _
      exact ⟨fun _ => ⟨prev, c, a, b, rfl, lands⟩, fun vanished => (by cases vanished)⟩
  | preconditionFailed | failed =>
    obtain ⟨rfl, rfl, rfl⟩ := done_iff.mp goes
    exact unseen_untruthful _ (by simp) (by simp)

theorem sourceParts_quiet {head : Answer} {res : Except CallError Nat}
    (run : Runs Serves w (sourceParts head) trace res w') (clean : Clean w) :
    Clean w' ∧ ∀ e ∈ trace, e.1.early = true := by
  have ended : ∀ {res' trace}, Runs Serves w (.done res') trace res w' →
      Clean w' ∧ ∀ e ∈ trace, e.1.early = true := by
    intro res' trace run
    obtain ⟨rfl, rfl, rfl⟩ := done_iff.mp run
    exact ⟨clean, fun _ mem => (nomatch mem)⟩
  unfold sourceParts at run
  split at run
  · exact ended run
  split at run
  · exact ended run
  obtain ⟨r, w₁, rest, served, goes, rfl⟩ := call_iff.mp run
  have kept := served.clean clean (.inl rfl)
  cases r <;> obtain ⟨rfl, rfl, rfl⟩ := done_iff.mp goes <;>
    exact ⟨kept, by simp [Call.early]⟩

theorem conclude_truthful {first : List (Call × Reply)} {entry : LedgerEntry}
    (run : Runs Serves w (conclude j res) trace entry w')
    (early : ∀ e ∈ prev, e.1.early) (wrote : Wrote first res w) :
    Truthful (prev ++ (first ++ trace)) entry w' ↔ RecheckAnswered (prev ++ (first ++ trace)) ∧
        CopyTagged (prev ++ (first ++ trace)) w' := by
  have front : ∀ e ∈ prev ++ (first ++ []), e.1.early := by
    intro e mem
    rw [append_nil, mem_append] at mem
    exact mem.elim (early e) (wrote.early e)
  cases res with
  | ok a =>
    obtain ⟨holds, isIn, c, ends, lands⟩ := wrote.landed a rfl
    subst ends
    have prior : ∀ e ∈ prev ++ isIn, e.1.early := by
      intro e mem
      refine front e ?_
      rw [append_nil, ← append_assoc, mem_append]
      exact .inl mem
    have last : c.early := wrote.early (c, .ok a) (by simp)
    have rests := settle_truthful run holds prior lands last
    simpa only [append_assoc, singleton_append] using rests
  | error e =>
    cases e with
    | notFound =>
      obtain ⟨rfl, rfl, rfl⟩ := done_iff.mp run
      exact early_truthful front (by simp) fun _ => wrote.clean (.inl rfl)
    | preconditionFailed | other =>
      obtain ⟨rfl, rfl, rfl⟩ := done_iff.mp run
      exact early_truthful front (by simp) fun vanished => (by cases vanished)

/-- The verdict is truthful exactly when the source answered whether the object is still there,
and a copy to be taken back has an ETag. -/
theorem copyOne_truthful_iff {entry : LedgerEntry} (j : Job)
    (run : Runs Serves w (copyOne j) trace entry w') (clean : Clean w) :
    Truthful trace entry w' ↔ RecheckAnswered trace ∧ CopyTagged trace w' := by
  obtain ⟨r, w₁, rest, served, goes, rfl⟩ := call_iff.mp run
  have kept := served.clean clean (Or.inl rfl)
  cases r with
  | notFound =>
    obtain ⟨rfl, rfl, rfl⟩ := done_iff.mp goes
    exact early_truthful (by simp [Call.early]) (by simp) fun _ => kept
  | preconditionFailed | failed =>
    obtain ⟨rfl, rfl, rfl⟩ := done_iff.mp goes
    exact early_truthful (by simp [Call.early]) (by simp) fun vanished => (by cases vanished)
  | ok head =>
    obtain ⟨parts, w₂, reads, second, counted, goesOn, rfl⟩ := bind_iff.mp goes
    obtain ⟨kept, quiet⟩ := sourceParts_quiet counted kept
    cases parts with
    | error =>
      obtain ⟨rfl, rfl, rfl⟩ := done_iff.mp goesOn
      refine early_truthful ?_ (by simp) fun vanished => (by cases vanished)
      simpa [Call.early] using quiet
    | ok =>
      obtain ⟨r, w₃, third, served, looks, rfl⟩ := call_iff.mp goesOn
      have kept := served.clean kept (Or.inl rfl)
      have front : ∀ e ∈ (Call.headSource, Reply.ok head) :: (reads ++ [(Call.headTarget, r)]),
          e.1.early = true := by
        intro e mem
        rcases mem_cons.mp mem with eq | isIn
        · rw [eq]
          rfl
        rcases mem_append.mp isIn with among | last
        · exact quiet e among
        · rw [mem_singleton.mp last]
          rfl
      cases r with
      | ok got | preconditionFailed | failed =>
        obtain ⟨rfl, rfl, rfl⟩ := done_iff.mp looks
        exact early_truthful front (by simp) fun vanished => (by cases vanished)
      | notFound =>
        obtain ⟨res, w₄, copies, last, copied, ends, rfl⟩ := bind_iff.mp looks
        have wrote : Wrote copies res w₄ := by
          split at copied
          · exact copyMultipart_wrote copied kept
          · exact copySingle_wrote copied kept
        have done := conclude_truthful ends front wrote
        simpa only [cons_append, append_assoc, nil_append] using done

def plainJob : Job := ⟨true, true, fun _ => ""⟩

def oneCopy (again : Reply) : List (Call × Reply) :=
  [(.headSource, .ok { etag := "e" }), (.headTarget, .notFound), (.getSource none, .ok {}),
    (.readBody, .ok {}), (.putTarget true, .ok { etag := "e" }), (.recheckSource, again)]

theorem oneCopy_runs (again : Reply) (other : again ≠ .notFound) :
    Runs Serves none (copyOne plainJob) (oneCopy again) ⟨.copied, ""⟩ (some ⟨"e", 0, true⟩) := by
  have quiet : ∀ t : Target, Drifts t t := fun t => .inl rfl
  refine .call ⟨none, quiet none, rfl⟩ ?_
  refine .call ⟨none, quiet none, rfl, rfl⟩ ?_
  refine .call ⟨none, quiet none, rfl⟩ ?_
  refine .call ⟨none, quiet none, rfl⟩ ?_
  refine .call ⟨none, quiet none, 0, rfl, fun d none => by cases none⟩ ?_
  refine .call ⟨_, quiet _, rfl⟩ ?_
  cases again with
  | ok | preconditionFailed | failed => exact .done
  | notFound => exact absurd rfl other

theorem oneCopy_truthful : Truthful (oneCopy (.ok {})) ⟨.copied, ""⟩ (some ⟨"e", 0, true⟩) := by
  refine (copyOne_truthful_iff plainJob (oneCopy_runs (.ok {}) (by simp))
    (fun _ got => by cases got)).mpr ⟨?_, ?_⟩
  · intro r mem
    obtain rfl : r = .ok {} := by simpa [oneCopy] using mem
    exact .inl ⟨_, rfl⟩
  · intro a mem
    simp [oneCopy] at mem

/-- The HEAD of the source fails, and the key is reported copied. -/
theorem oneCopy_unseen : Runs Serves none (copyOne plainJob) (oneCopy .failed) ⟨.copied, ""⟩
      (some ⟨"e", 0, true⟩) ∧ ¬ Truthful (oneCopy .failed) ⟨.copied, ""⟩ (some ⟨"e", 0, true⟩) := by
  refine ⟨oneCopy_runs .failed (by simp), fun truthful => ?_⟩
  obtain ⟨prev, c, a, b, eq, -⟩ := truthful.copied rfl
  have last := congrArg List.getLast? eq
  simp [oneCopy] at last

end Shunt.Mover
