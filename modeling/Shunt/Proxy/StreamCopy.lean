/-
A copy between clusters: the source's metadata is read, and the object is read and written
as one body, as the parts of a multipart source, or as a range for a part of the client's
own upload.  The requests are the calls of a program; what the backends answer is left to
the module that runs it.
-/

import Shunt.Library.Script
import Shunt.Proxy.Conditional
import Shunt.Proxy.Entries

namespace Shunt.Proxy

open Directory
open Library (Script Runs call_iff bind_iff done_iff)

abbrev Metadata := List (Key × Key)

structure Body where
  bytes : List UInt8 := []
  whole : Bool := true
  deriving DecidableEq

structure CopyAnswer where
  status : Nat
  etag : Key := []
  length : Nat := 0
  metadata : Metadata := []
  body : Body := {}
  -- the id in the body of an upload's answer
  uploadID : Key := []
  -- the body is an error document
  errorBody : Bool := false

inductive CopyReply where
  -- the exchange failed; whether the request may have reached the backend whole
  | lost (dispatched : Bool)
  | answer (a : CopyAnswer)

inductive CopyCall where
  | headSource (leg : Leg)
  | getSource (leg : Leg) (range : Key)
  | getPart (leg : Leg) (n : Nat)
  | putObject (conds : CondHeaders) (metadata : Metadata) (body : Body) (length : Nat)
  | createUpload (metadata : Metadata)
  | putPart (uploadID : Key) (n : Nat) (body : Body) (length : Nat)
  | completeUpload (uploadID : Key) (etags : List Key)
  | abortUpload (uploadID : Key)

abbrev CopySteps := Script CopyCall CopyReply

/-- A streamed copy as it was resolved: where the source is read, the client's conditions on the
destination and what is left of them, its metadata when it replaces the source's, and the upload
and range of a part. -/
structure CopyJob where
  src : Leg
  fallback : Option Leg := none
  conds : CondHeaders := ⟨[], []⟩
  act : CondAction := {}
  replaced : Option Metadata := none
  part : Option (Key × Nat × Key) := none

structure CopyOutcome where
  answer : Except (String × String) Key
  uncertain : Bool := false

def CopyOutcome.refused (code message : String) (uncertain : Bool) : CopyOutcome :=
  { answer := .error (code, message), uncertain := uncertain }

def maxStreamedCopy : Nat := 5 * 2 ^ 30

def digitsValue (s : Key) : Option Nat :=
  if s ≠ [] ∧ s.all (fun c => 48 ≤ c && c ≤ 57) = true then
    some (s.foldl (fun n c => 10 * n + (c - 48).toNat) 0)
  else none

def countText (s : Key) : Option Nat :=
  match digitsValue (if s.head? = some 43 then s.tail else s) with
  | some n => if n < 2 ^ 63 then some n else none
  | none => none

def multipartCount (etag : Key) : Nat :=
  let bare := trimBoth (· == 34) etag
  if 45 ∈ bare then
    match countText (bare.reverse.takeWhile (· ≠ 45)).reverse with
    | some n => if n < 1 then 1 else n
    | none => 1
  else 1

def CopyJob.metadata (job : CopyJob) (source : Metadata) : Metadata := job.replaced.getD source

def rangeLength (range : Key) (size : Nat) : Nat :=
  let bare := trimBoth isBlank range
  if bare.take 6 = [98, 121, 116, 101, 115, 61] then
    let spec := bare.drop 6
    match countText (trimBoth isBlank (Library.cut 45 spec).1) with
    | none => size
    | some first =>
      if 45 ∉ spec ∨ trimBoth isBlank (Library.cut 45 spec).2 = [] then size - first
      else
        match countText (trimBoth isBlank (Library.cut 45 spec).2) with
        | none => size
        | some last => if last < first then size else last - first + 1
  else size

def unreachableSource : String × String :=
  ("ServiceUnavailable", "The source cluster could not be reached for this copy.")

def unreachableDestination : String × String :=
  ("ServiceUnavailable", "The destination cluster could not be reached for this copy.")

def sourceRefusal (status : Nat) : String × String :=
  if status = 404 then ("NoSuchKey", "")
  else if status = 412 ∨ status = 304 then
    ("PreconditionFailed", "The condition on the copy source did not hold.")
  else ("InternalError", "The source object could not be read for this copy.")

def tryHead (leg : Leg) : CopySteps (Except (String × String) CopyAnswer) :=
  .call (.headSource leg) fun r =>
    .done (match r with
      | .lost _ => .error unreachableSource
      | .answer a => if a.status = 200 then .ok a else .error (sourceRefusal a.status))

def copySourceHead (job : CopyJob) : CopySteps (Except (String × String) (Leg × CopyAnswer)) :=
  (tryHead job.src).bind fun first =>
    match first, job.fallback with
    | .ok a, _ => .done (.ok (job.src, a))
    | .error e, none => .done (.error e)
    | .error e, some leg =>
      if e.1 = "NoSuchKey" then
        (tryHead leg).bind fun second =>
          match second with
          | .ok a => .done (.ok (leg, a))
          | .error e₂ => .done (.error (if e₂.1 = "NoSuchKey" then e else e₂))
      else .done (.error e)

section

variable {W : Type} {Serves : W → CopyCall → CopyReply → W → Prop} {w w₁ : W} {leg : Leg}
  {job : CopyJob} {a : CopyAnswer} {trace : List (CopyCall × CopyReply)}

theorem tryHead_ok (run : Runs Serves w (tryHead leg) trace (.ok a) w₁) :
    a.status = 200 ∧ Serves w (.headSource leg) (.answer a) w₁ := by
  obtain ⟨r, w₂, rest, served, goes, _⟩ := call_iff.mp run
  obtain ⟨_, res, rfl⟩ := done_iff.mp goes
  cases r with
  | lost => cases res
  | answer b =>
    by_cases got : b.status = 200
    · simp only [got, if_true] at res
      cases res
      exact ⟨got, served⟩
    · simp only [got, if_false] at res
      cases res

theorem copySourceHead_ok (run : Runs Serves w (copySourceHead job) trace (.ok (leg, a)) w₁) :
    ∃ w₂ part, Runs Serves w₂ (tryHead leg) part (.ok a) w₁ := by
  obtain ⟨first, w₂, _, _, head, goes, _⟩ := bind_iff.mp run
  cases first with
  | ok =>
    obtain ⟨_, eq, rfl⟩ := done_iff.mp goes
    cases eq
    exact ⟨w, _, head⟩
  | error =>
    cases later : job.fallback with
    | none =>
      rw [later] at goes
      obtain ⟨_, eq, _⟩ := done_iff.mp goes
      cases eq
    | some =>
      rw [later] at goes
      simp only at goes
      split at goes
      · obtain ⟨second, w₃, _, _, again, ends, _⟩ := bind_iff.mp goes
        cases second with
        | ok =>
          obtain ⟨_, eq, rfl⟩ := done_iff.mp ends
          cases eq
          exact ⟨w₂, _, again⟩
        | error =>
          obtain ⟨_, eq, _⟩ := done_iff.mp ends
          cases eq
      · obtain ⟨_, eq, _⟩ := done_iff.mp goes
        cases eq

end

def copySourceBody (leg : Leg) (range : Key) : CopySteps (Except (String × String) Body) :=
  .call (.getSource leg range) fun r =>
    .done (match r with
      | .lost _ => .error unreachableSource
      | .answer a =>
        if a.status = 200 ∨ a.status = 206 then .ok a.body
        else .error (sourceRefusal a.status))

def putOutcome : CopyReply → CopyOutcome
  | .lost dispatched =>
    .refused unreachableDestination.1 unreachableDestination.2 dispatched
  | .answer a =>
    if a.status = 200 then { answer := .ok a.etag }
    else .refused (if a.status = 412 then "PreconditionFailed" else "InternalError")
      "The destination cluster refused this copy." false

def copyWhole (job : CopyJob) (leg : Leg) (head : CopyAnswer) : CopySteps CopyOutcome :=
  (copySourceBody leg []).bind fun body =>
    match body with
    | .error e => .done (.refused e.1 e.2 false)
    | .ok body =>
      .call (.putObject (job.act.apply job.conds) (job.metadata head.metadata) body head.length)
        fun r => .done (putOutcome r)

def copyPart (leg : Leg) (size : Nat) (uploadID : Key) (n : Nat) (range : Key) :
    CopySteps CopyOutcome :=
  (copySourceBody leg range).bind fun body =>
    match body with
    | .error e => .done (.refused e.1 e.2 false)
    | .ok body =>
      .call (.putPart uploadID n body (if range = [] then size else rangeLength range size))
        fun r => .done (putOutcome r)

def abortUpload (uploadID : Key) (outcome : CopyOutcome) : CopySteps CopyOutcome :=
  .call (.abortUpload uploadID) fun r =>
    .done (match r with
      | .lost dispatched => { outcome with uncertain := outcome.uncertain || dispatched }
      | .answer _ => outcome)

def completeUpload (uploadID : Key) (etags : List Key) : CopySteps CopyOutcome :=
  .call (.completeUpload uploadID etags) fun r =>
    match r with
    | .lost dispatched =>
      abortUpload uploadID (.refused unreachableDestination.1 unreachableDestination.2 dispatched)
    | .answer a =>
      if a.status = 200 then .done { answer := .ok a.etag }
      else abortUpload uploadID (.refused "InternalError"
        "This copy could not be completed on the destination cluster." false)

def copyParts (leg : Leg) (uploadID : Key) : Nat → Nat → List Key → CopySteps CopyOutcome
  | 0, _, etags => completeUpload uploadID etags
  | left + 1, n, etags =>
    .call (.getPart leg n) fun r =>
      match r with
      | .lost _ =>
        abortUpload uploadID (.refused unreachableSource.1 unreachableSource.2 false)
      | .answer part =>
        if part.status = 200 ∨ part.status = 206 then
          .call (.putPart uploadID n part.body part.length) fun r =>
            match r with
            | .lost dispatched =>
              abortUpload uploadID
                (.refused unreachableDestination.1 unreachableDestination.2 dispatched)
            | .answer a =>
              if a.status = 200 then
                copyParts leg uploadID left (n + 1) (etags ++ [a.etag])
              else abortUpload uploadID (.refused "InternalError"
                "A part of this copy could not be written." false)
        else abortUpload uploadID (.refused "InternalError"
          "A part of the source object could not be read for this copy." false)

def copyByParts (job : CopyJob) (leg : Leg) (head : CopyAnswer) (parts : Nat) :
    CopySteps CopyOutcome :=
  .call (.createUpload (job.metadata head.metadata)) fun r =>
    match r with
    | .lost dispatched =>
      .done (.refused unreachableDestination.1 unreachableDestination.2 dispatched)
    | .answer a =>
      if a.status = 200 ∧ a.uploadID ≠ [] then copyParts leg a.uploadID parts 1 []
      else .done (.refused "InternalError"
        "This copy could not be started on the destination cluster." false)

/-- What is done once the source's metadata has been read. -/
def copyRead (job : CopyJob) (leg : Leg) (head : CopyAnswer) : CopySteps CopyOutcome :=
  match job.part with
  | some (uploadID, n, range) => copyPart leg head.length uploadID n range
  | none =>
    if 1 < multipartCount head.etag then
      copyByParts job leg head (multipartCount head.etag)
    else if maxStreamedCopy < head.length then
      .done (.refused "EntityTooLarge" ("This copy crosses clusters, so shunt streams it, and " ++
        toString head.length ++ " bytes is over the " ++ toString maxStreamedCopy ++
        "-byte limit of a single PUT. Copy it with a multipart upload (UploadPartCopy).") false)
    else copyWhole job leg head

def streamCopy (job : CopyJob) : CopySteps CopyOutcome :=
  (copySourceHead job).bind fun head =>
    match head with
    | .error e => .done (.refused e.1 e.2 false)
    | .ok (leg, a) => copyRead job leg a

end Shunt.Proxy
