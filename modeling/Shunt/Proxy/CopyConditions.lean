/-
The client's conditions on the destination of a streamed copy.
-/

import Shunt.Proxy.StreamCopy

namespace Shunt.Proxy

open Directory
open Library (Script Runs done_iff call_iff bind_iff)
open Migrate

/-- How the backends answer while nothing else changes: the source has one object, given by its
tag, and the destination honours the conditions of a PUT on its own object.  Everything else may
be answered in any way. -/
def CopyServes (sourceTag : Key) (own : Option Key) (_ : Unit) (call : CopyCall)
    (reply : CopyReply) (_ : Unit) : Prop :=
  match call, reply with
  | .headSource _, .answer a => a.status = 200 → a.etag = sourceTag
  | .putObject conds _ _ _, .answer a => a.status = 200 → honours conds own = true
  | _, _ => True

def copyCheck (h : CondHeaders) (judges considered : Bool) (own other : Option Key) :
    Except CondRefusal CondAction :=
  conditionalWrite .copyObject h judges (if considered then some (.ok other) else none) (.ok own)

def putAccepted (h : CondHeaders) (judges considered : Bool) (own other : Option Key) : Bool :=
  match conditionalWrite .putObject h judges (if considered then some (.ok other) else none)
      (.ok own) with
  | .error _ => false
  | .ok act => honours (act.apply h) own

def CopyHonoured (job : CopyJob) (judges considered : Bool) (sourceTag : Key) : Prop :=
  ∀ own other act, copyCheck job.conds judges considered own other = .ok act →
    ∀ trace outcome etag,
      Runs (CopyServes sourceTag own) () (streamCopy { job with act := act }) trace outcome () →
      outcome.answer = .ok etag →
      putAccepted job.conds judges considered own other = true

/-- The check alone settles the headers: what it lets pass, the destination would accept. -/
def Settled (h : CondHeaders) (judges considered : Bool) : Prop :=
  ∀ own other act, copyCheck h judges considered own other = .ok act →
    honours (act.apply h) own = true

variable {sourceTag : Key} {own other : Option Key} {job : CopyJob} {act : CondAction}
  {judges considered : Bool} {trace : List (CopyCall × CopyReply)} {outcome : CopyOutcome}

theorem putAccepted_eq {h : CondHeaders}
    (checked : copyCheck h judges considered own other = .ok act) :
    putAccepted h judges considered own other = honours (act.apply h) own := by
  have eq : conditionalWrite .putObject h judges (if considered then some (.ok other) else none)
      (.ok own) = copyCheck h judges considered own other := by
    unfold copyCheck conditionalWrite
    rfl
  rw [putAccepted, eq, checked]

theorem copySourceHead_tag {leg : Leg} {a : CopyAnswer}
    (run : Runs (CopyServes sourceTag own) () (copySourceHead job) trace (.ok (leg, a)) ()) :
    a.etag = sourceTag := by
  obtain ⟨_, _, head⟩ := copySourceHead_ok run
  obtain ⟨got, served⟩ := tryHead_ok head
  exact served got

theorem copyWhole_honours {leg : Leg} {head : CopyAnswer} {etag : Key}
    (run : Runs (CopyServes sourceTag own) () (copyWhole job leg head) trace outcome ())
    (succeeded : outcome.answer = .ok etag) : honours (job.act.apply job.conds) own = true := by
  obtain ⟨body, _, _, _, _, goes, _⟩ := bind_iff.mp run
  cases body with
  | error =>
    obtain ⟨_, eq, _⟩ := done_iff.mp goes
    rw [eq] at succeeded
    cases succeeded
  | ok =>
    obtain ⟨r, _, rest, served, ends, _⟩ := call_iff.mp goes
    obtain ⟨_, eq, _⟩ := done_iff.mp ends
    rw [eq] at succeeded
    cases r with
    | lost => cases succeeded
    | answer a =>
      by_cases ok : a.status = 200
      · exact served ok
      · simp only [putOutcome, ok, if_false] at succeeded
        cases succeeded

theorem copyParts_succeeds (leg : Leg) (uploadID : Key) (left n : Nat) (etags : List Key) :
    ∃ trace, Runs (CopyServes sourceTag own) () (copyParts leg uploadID left n etags) trace
      { answer := .ok [] } () := by
  induction left generalizing n etags with
  | zero =>
    exact ⟨_, .call (r := .answer { status := 200 }) trivial .done⟩
  | succ left ih =>
    obtain ⟨trace, run⟩ := ih (n + 1) (etags ++ [[]])
    refine ⟨(.getPart leg n, .answer { status := 200 }) ::
      (.putPart uploadID n {} 0, .answer { status := 200 }) :: trace, ?_⟩
    refine call_iff.mpr ⟨.answer { status := 200 }, (), _, trivial, ?_, rfl⟩
    exact call_iff.mpr ⟨.answer { status := 200 }, (), _, trivial, run, rfl⟩

theorem multipart_succeeds (all : job.part = none) (multipart : 1 < multipartCount sourceTag) :
    ∃ trace, Runs (CopyServes sourceTag own) () (streamCopy job) trace { answer := .ok [] } () := by
  obtain ⟨trace, parts⟩ := @copyParts_succeeds sourceTag own job.src [1]
    (multipartCount sourceTag) 1 []
  have upload : Runs (CopyServes sourceTag own) ()
      (copyRead job job.src { status := 200, etag := sourceTag })
      ((.createUpload (job.metadata []), .answer { status := 200, uploadID := [1] }) :: trace)
      { answer := .ok [] } () := by
    rw [copyRead, all]
    simp only [multipart, if_true]
    exact .call trivial parts
  have head : Runs (CopyServes sourceTag own) () (copySourceHead job)
      [(.headSource job.src, .answer { status := 200, etag := sourceTag })]
      (.ok (job.src, { status := 200, etag := sourceTag })) () := by
    refine bind_iff.mpr ⟨.ok { status := 200, etag := sourceTag }, (),
      [(.headSource job.src, .answer { status := 200, etag := sourceTag })], [], ?_, .done, rfl⟩
    exact .call (fun _ => rfl) .done
  exact ⟨_, bind_iff.mpr ⟨_, (), _, _, head, upload, rfl⟩⟩

/-- A streamed copy keeps to the client's conditions on the destination exactly when its source
is no multipart object, or the check before the copy settles the headers alone. -/
theorem copy_honoured_iff (all : job.part = none) (judges considered : Bool) (sourceTag : Key) :
    CopyHonoured job judges considered sourceTag ↔
      multipartCount sourceTag ≤ 1 ∨ Settled job.conds judges considered := by
  constructor
  · intro honoured
    by_cases single : multipartCount sourceTag ≤ 1
    · exact .inl single
    refine .inr fun own other act checked => ?_
    obtain ⟨trace, run⟩ := @multipart_succeeds sourceTag own { job with act := act } all
      (Nat.lt_of_not_le single)
    have passed := honoured own other act checked trace _ [] run rfl
    rwa [putAccepted_eq checked] at passed
  rintro condition own other act checked trace outcome etag run succeeded
  rw [putAccepted_eq checked]
  rcases condition with single | rests
  · obtain ⟨head, _, _, _, prev, goes, _⟩ := bind_iff.mp run
    cases head with
    | error =>
      obtain ⟨_, eq, _⟩ := done_iff.mp goes
      rw [eq] at succeeded
      cases succeeded
    | ok got =>
      obtain ⟨leg, a⟩ := got
      have tag := copySourceHead_tag prev
      simp only [copyRead, all, tag, if_neg (Nat.not_lt.mpr single)] at goes
      split at goes
      · obtain ⟨_, eq, _⟩ := done_iff.mp goes
        rw [eq] at succeeded
        cases succeeded
      · exact copyWhole_honours goes succeeded
  · exact rests own other act checked

def createOnceCopy : CopyJob := { src := ⟨"A", "y"⟩, conds := ⟨[], [42]⟩ }

theorem createOnceCopy_honoured :
    multipartCount [97] ≤ 1 ∧ CopyHonoured createOnceCopy true false [97] :=
  ⟨by decide, (copy_honoured_iff rfl true false [97]).mpr (.inl (by decide))⟩

/-- A copy of an object of two parts overwrites the destination under If-None-Match: *. -/
theorem createOnceCopy_overwrites :
    copyCheck createOnceCopy.conds true false (some [98]) none = .ok {} ∧
    (∃ trace, Runs (CopyServes [97, 45, 50] (some [98])) () (streamCopy createOnceCopy) trace
      { answer := .ok [] } ()) ∧
    putAccepted createOnceCopy.conds true false (some [98]) none = false :=
  ⟨by decide, multipart_succeeds rfl (by decide), by decide⟩

end Shunt.Proxy
