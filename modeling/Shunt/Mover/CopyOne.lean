/-
The mover's copy of one object.

The source is read and the object written to the target under a guard; the source is then
read once more, and the mover's copy taken back when the object has gone.  The calls to the
two backends are a script; their outcomes are a success, not found, a failed precondition or
another error.
-/

import Shunt.Library.Script

namespace Shunt.Mover

open Library

/-- What a successful call tells the mover.  Times are seconds of the backend's clock. -/
structure Answer where
  etag : String := ""
  partsCount : Nat := 0
  length : Nat := 0
  modified : Nat := 0
  date : Option Nat := none
  deriving DecidableEq

inductive Reply where
  | ok (answer : Answer)
  | notFound
  | preconditionFailed
  | failed
  deriving DecidableEq

inductive CallError where
  | notFound
  | preconditionFailed
  | other
  deriving DecidableEq

def Reply.result : Reply → Except CallError Answer
  | .ok answer => .ok answer
  | .notFound => .error .notFound
  | .preconditionFailed => .error .preconditionFailed
  | .failed => .error .other

inductive Call where
  | headSource
  | headSourcePart (n : Nat)
  | getSource (range : Option (Nat × Nat))
  -- the body of the last GET
  | readBody
  | headTarget
  | putTarget (ifNoneMatch : Bool)
  | createUpload
  | uploadPart (n : Nat)
  | completeUpload (ifNoneMatch : Bool)
  | abortUpload
  -- the HEAD of the source once the copy has landed
  | recheckSource
  -- the HEAD of the target before the copy is taken back
  | inspectTarget
  | deleteTarget (ifMatch : Option String)
  deriving DecidableEq

/-- What the two clusters can do, and the texts of the client's errors. -/
structure Job where
  conditional : Bool
  condDelete : Bool
  errorText : CallError → String

inductive Result where
  | copied
  | skipped
  | vanished
  | error
  deriving DecidableEq

structure LedgerEntry where
  result : Result
  detail : String := ""
  deriving DecidableEq

abbrev Steps := Script Call Reply

def isQuote (c : Char) : Bool := c == '"'

def etagParts (etag : String) : Option Nat :=
  let chars := ((etag.toList.dropWhile isQuote).reverse.dropWhile isQuote).reverse
  if '-' ∈ chars then
    match (String.ofList (chars.reverse.takeWhile (· ≠ '-')).reverse).toNat? with
    | some n => if n < 1 then none else some n
    | none => none
  else none

def sourceParts (head : Answer) : Steps (Except CallError Nat) :=
  if 0 < head.partsCount then .done (.ok head.partsCount)
  else
    match etagParts head.etag with
    | none => .done (.ok 1)
    | some n =>
      .call (.headSourcePart 1) fun r =>
        match r.result with
        | .error e => .done (.error e)
        | .ok first => .done (.ok (if 0 < first.partsCount then first.partsCount else n))

def readAll (next : Steps (Except CallError Answer)) : Steps (Except CallError Answer) :=
  .call .readBody fun r =>
    match r with
    | .ok _ => next
    | _ => .done (.error .other)

def copySingle (j : Job) : Steps (Except CallError Answer) :=
  .call (.getSource none) fun r =>
    match r.result with
    | .error e => .done (.error e)
    | .ok _ => readAll (.call (.putTarget j.conditional) fun r => .done r.result)

def abort (e : CallError) : Steps (Except CallError Answer) :=
  .call .abortUpload fun _ => .done (.error e)

/-- The upload completed under its guard: the backend's own, or a HEAD just before. -/
def completeUpload (j : Job) : Steps (Except CallError Answer) :=
  let complete : Steps (Except CallError Answer) :=
    .call (.completeUpload j.conditional) fun r =>
      match r.result with
      | .error e => abort e
      | .ok answer => .done (.ok answer)
  if j.conditional then complete
  else
    .call .headTarget fun r =>
      match r.result with
      | .ok _ => abort .preconditionFailed
      | .error .notFound => complete
      | .error e => abort e

def copyParts (j : Job) : Nat → Nat → Nat → Steps (Except CallError Answer)
  | 0, _, _ => completeUpload j
  | left + 1, n, offset =>
    .call (.headSourcePart n) fun r =>
      match r.result with
      | .error e => abort e
      | .ok part =>
        .call (.getSource (some (offset, offset + part.length - 1))) fun r =>
          match r.result with
          | .error e => abort e
          | .ok _ =>
            .call .readBody fun r =>
              match r with
              | .ok _ =>
                .call (.uploadPart n) fun r =>
                  match r.result with
                  | .error e => abort e
                  | .ok _ => copyParts j left (n + 1) (offset + part.length)
              | _ => abort .other

def copyMultipart (j : Job) (parts : Nat) : Steps (Except CallError Answer) :=
  .call .createUpload fun r =>
    match r.result with
    | .error e => .done (.error e)
    | .ok _ => copyParts j parts 1 0

def ownCopy (headETag putETag : String) (modified : Nat) (putDate : Option Nat) : Bool :=
  if headETag = "" ∨ headETag ≠ putETag then false
  else
    match putDate with
    | none => true
    | some date => decide (modified ≤ date)

def withdraw (j : Job) (etag : String) (putDate : Option Nat) : Steps (Except CallError String) :=
  if j.condDelete then
    .call (.deleteTarget (some etag)) fun r =>
      .done (match r with
        | .ok _ => .ok "the copy was removed (If-Match)"
        | .preconditionFailed =>
          .ok "a newer client write had replaced the copy and was kept (412)"
        | .notFound => .ok "the copy was already gone"
        | .failed => .error .other)
  else
    .call .inspectTarget fun r =>
      match r with
      | .notFound => .done (.ok "the copy was already gone")
      | .preconditionFailed => .done (.error .preconditionFailed)
      | .failed => .done (.error .other)
      | .ok head =>
        if ownCopy head.etag etag head.modified putDate then
          .call (.deleteTarget none) fun r =>
            .done (match r.result with
              | .error e => .error e
              | .ok _ => .ok "the copy was removed (re-HEAD)")
        else .done (.ok "the target holds a newer client write, which was kept")

def settle (j : Job) (answer : Answer) : Steps LedgerEntry :=
  .call .recheckSource fun r =>
    match r with
    | .notFound =>
      (withdraw j answer.etag answer.date).bind fun withdrawn =>
        .done (match withdrawn with
          | .error e => ⟨.error, "deleted from the source mid-copy and the copy could not be " ++
              "removed: " ++ j.errorText e⟩
          | .ok detail => ⟨.vanished, "deleted from the source mid-copy; " ++ detail⟩)
    | _ => .done ⟨.copied, ""⟩

def conclude (j : Job) : Except CallError Answer → Steps LedgerEntry
  | .error .preconditionFailed =>
    .done ⟨.skipped, "a client wrote it to the target first (412)"⟩
  | .error .notFound => .done ⟨.vanished, "gone from the source mid-copy"⟩
  | .error .other => .done ⟨.error, j.errorText .other⟩
  | .ok answer => settle j answer

def copyOne (j : Job) : Steps LedgerEntry :=
  .call .headSource fun r =>
    match r.result with
    | .error .notFound => .done ⟨.vanished, "gone from the source before the copy started"⟩
    | .error e => .done ⟨.error, j.errorText e⟩
    | .ok head =>
      (sourceParts head).bind fun parts =>
        match parts with
        | .error e => .done ⟨.error, j.errorText e⟩
        | .ok parts =>
          .call .headTarget fun r =>
            match r.result with
            | .ok _ => .done ⟨.skipped, "already on the target"⟩
            | .error .preconditionFailed => .done ⟨.error, j.errorText .preconditionFailed⟩
            | .error .other => .done ⟨.error, j.errorText .other⟩
            | .error .notFound =>
              (if 1 < parts then copyMultipart j parts else copySingle j).bind (conclude j)

end Shunt.Mover
