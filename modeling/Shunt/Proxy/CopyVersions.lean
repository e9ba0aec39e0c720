/-
The versions a streamed copy reads.

A copy reads the source's metadata and then its bytes by separate requests, and the object
may be overwritten between any two of them.  The client's copy-source-if-match travels on
the first read of the metadata and on the read of a whole body, not on the reads of parts.
-/

import Shunt.Proxy.StreamCopy

namespace Shunt.Proxy

open Directory List
open Library (Script Runs done_iff call_iff bind_iff)

structure ObjectVersion where
  parts : List (List UInt8)
  metadata : Metadata

def ObjectVersion.bytes (v : ObjectVersion) : List UInt8 := v.parts.flatten

/-- The versions of the source object by their tags; a tag that counts parts counts them. -/
structure Versions where
  of : Key → ObjectVersion
  layout : ∀ etag, 1 < multipartCount etag → (of etag).parts.length = multipartCount etag

/-- What a read of the source sees in a bucket, and what the destination holds: the object, and
the metadata and parts of the copy's upload. -/
structure CopyWorld where
  readable : Leg → Option Key
  stored : Option (List UInt8 × Metadata) := none
  uploadMetadata : Metadata := []
  parts : Nat → List UInt8 := fun _ => []

def CopyWorld.joined (w : CopyWorld) (count : Nat) : List UInt8 :=
  ((List.range count).map fun i => w.parts (i + 1)).flatten

/-- Overwrites of the source; a read by version id is not touched by them. -/
def Overwritten (pinned : Bool) (w w₁ : CopyWorld) : Prop :=
  w₁ = { w with readable := w₁.readable } ∧ (pinned = true → w₁.readable = w.readable)

/-- A call without an answer of success may have changed the destination in any way. -/
def Touched (w w₁ : CopyWorld) : Prop := w₁.readable = w.readable

variable (late : Bool) (versions : Versions) (admits : Key → Bool)

/-- How a call is answered.  A source that answers a read with success honours If-Match and
serves one version; a `late` destination may answer a completion with 200 and then fail, with an
error document as the body. -/
def Answered (w : CopyWorld) (call : CopyCall) (reply : CopyReply) (w₁ : CopyWorld) : Prop :=
  match call, reply with
  | .headSource leg, .answer a => w₁ = w ∧ (a.status = 200 →
      ∃ e, w.readable leg = some e ∧ admits e = true ∧ a.etag = e ∧
        a.metadata = (versions.of e).metadata ∧ a.length = (versions.of e).bytes.length)
  | .getSource leg range, .answer a => w₁ = w ∧ (a.status = 200 ∨ a.status = 206 →
      ∃ e, w.readable leg = some e ∧ admits e = true ∧
        (range = [] → a.body.whole = true → a.body.bytes = (versions.of e).bytes))
  | .getPart leg n, .answer a => w₁ = w ∧ (a.status = 200 ∨ a.status = 206 →
      ∃ e part, w.readable leg = some e ∧ (versions.of e).parts[n - 1]? = some part ∧
        (a.body.whole = true → a.body.bytes = part))
  | .putObject _ m body length, .answer a =>
    if a.status = 200 then
      body.whole = true ∧ body.bytes.length = length ∧
        w₁ = { w with stored := some (body.bytes, m) }
    else Touched w w₁
  | .createUpload m, .answer a =>
    if a.status = 200 then w₁ = { w with uploadMetadata := m } else Touched w w₁
  | .putPart _ n body length, .answer a =>
    if a.status = 200 then
      body.whole = true ∧ body.bytes.length = length ∧
        w₁ = { w with parts := fun i => if i = n then body.bytes else w.parts i }
    else Touched w w₁
  | .completeUpload _ etags, .answer a =>
    if a.status = 200 ∧ a.errorBody = false then
      w₁ = { w with stored := some (w.joined etags.length, w.uploadMetadata) }
    else (a.status = 200 → late = true) ∧ Touched w w₁
  | _, _ => Touched w w₁

/-- A call between whose sending and the last reply the source may be overwritten. -/
def VersionServes (pinned : Bool) (w : CopyWorld) (call : CopyCall) (reply : CopyReply)
    (w₂ : CopyWorld) : Prop :=
  ∃ w₁, Overwritten pinned w w₁ ∧ Answered late versions admits w₁ call reply w₂

def OneVersion (job : CopyJob) (late pinned : Bool) (admits : Key → Bool) : Prop :=
  ∀ (versions : Versions) w trace outcome etag w₁,
    Runs (VersionServes late versions admits pinned) w (streamCopy job) trace outcome w₁ →
    outcome.answer = .ok etag →
    ∃ e, w₁.stored =
      some ((versions.of e).bytes, job.metadata (versions.of e).metadata)

def sourceAdmits (ifMatch etag : Key) : Bool := decide (ifMatch = []) || etagMatches ifMatch etag

def pinnedVersion (version : Key) : Bool :=
  decide (version ≠ []) && decide (version ≠ [110, 117, 108, 108])

variable {late} {versions admits} {pinned : Bool} {job : CopyJob} {leg : Leg} {w w₁ w₂ : CopyWorld}
  {trace : List (CopyCall × CopyReply)} {outcome : CopyOutcome} {etag : Key}

theorem overwritten_fields (diff : Overwritten pinned w w₁) :
    w₁.stored = w.stored ∧ w₁.uploadMetadata = w.uploadMetadata ∧ w₁.parts = w.parts := by
  obtain ⟨eq, _⟩ := diff
  rw [eq]
  exact ⟨rfl, rfl, rfl⟩

theorem copySourceHead_version {a : CopyAnswer}
    (run : Runs (VersionServes late versions admits pinned) w (copySourceHead job) trace
      (.ok (leg, a)) w₁) : ∃ e, w₁.readable leg = some e ∧ admits e ∧ a.etag = e ∧
      a.metadata = (versions.of e).metadata := by
  obtain ⟨_, _, head⟩ := copySourceHead_ok run
  obtain ⟨success, w₂, _, rfl, got⟩ := tryHead_ok head
  obtain ⟨e, readable, admitted, tag, metadata, _⟩ := got success
  exact ⟨e, readable, admitted, tag, metadata⟩

theorem copyWhole_stores {head : CopyAnswer}
    (run : Runs (VersionServes late versions admits pinned) w (copyWhole job leg head) trace outcome
    w₁)
    (succeeded : outcome.answer = .ok etag) : ∃ e, admits e ∧ (pinned → w.readable leg = some e) ∧
      w₁.stored = some ((versions.of e).bytes, job.metadata head.metadata) := by
  obtain ⟨body, w₂, _, _, prev, goes, _⟩ := bind_iff.mp run
  obtain ⟨r, w₃, _, ⟨w₄, diff, served⟩, ends, _⟩ := call_iff.mp prev
  obtain ⟨_, res, rfl⟩ := done_iff.mp ends
  cases r with
  | lost =>
    rw [res] at goes
    obtain ⟨_, eq, _⟩ := done_iff.mp goes
    rw [eq] at succeeded
    cases succeeded
  | answer a =>
    obtain ⟨rfl, got⟩ := served
    by_cases success : a.status = 200 ∨ a.status = 206
    · simp only [success, if_true] at res
      rw [res] at goes
      obtain ⟨e, readable, admitted, bytes⟩ := got success
      obtain ⟨r₂, w₅, _, ⟨w₆, diff₂, put⟩, last, _⟩ := call_iff.mp goes
      obtain ⟨_, eq, rfl⟩ := done_iff.mp last
      rw [eq] at succeeded
      cases r₂ with
      | lost => cases succeeded
      | answer b =>
        by_cases wrote : b.status = 200
        · simp only [Answered, wrote, if_true] at put
          obtain ⟨all, _, stored⟩ := put
          refine ⟨e, admitted, fun fixed => ?_, ?_⟩
          · rw [← diff.2 fixed]
            exact readable
          · rw [stored, bytes rfl all]
        · simp only [putOutcome, wrote, if_false] at succeeded
          cases succeeded
    · simp only [success, if_false] at res
      rw [res] at goes
      obtain ⟨_, eq, _⟩ := done_iff.mp goes
      rw [eq] at succeeded
      cases succeeded

theorem abort_fails {uploadID : Key} {code message : String} {uncertain : Bool}
    (run : Runs (VersionServes late versions admits pinned) w
      (abortUpload uploadID (.refused code message uncertain)) trace outcome w₁) :
    outcome.answer ≠ .ok etag := by
  obtain ⟨r, _, _, _, goes, _⟩ := call_iff.mp run
  obtain ⟨_, eq, _⟩ := done_iff.mp goes
  rw [eq]
  cases r <;> simp [CopyOutcome.refused]

theorem joined_succ (w : CopyWorld) (count : Nat) :
    w.joined (count + 1) = w.joined count ++ w.parts (count + 1) := by
  simp [CopyWorld.joined, range_succ]

theorem copyParts_stores {e uploadID : Key} {left n : Nat} {etags : List Key}
    (next : etags.length + 1 = n) (total : etags.length + left = (versions.of e).parts.length)
    (readable : w.readable leg = some e)
    (read : w.joined etags.length = ((versions.of e).parts.take etags.length).flatten)
    (run : Runs (VersionServes false versions admits true) w (copyParts leg uploadID left n etags)
      trace outcome w₁) (succeeded : outcome.answer = .ok etag) :
    w₁.stored = some ((versions.of e).bytes, w.uploadMetadata) := by
  induction left generalizing n etags w trace with
  | zero =>
    obtain ⟨r, w₂, _, ⟨w₃, diff, served⟩, goes, _⟩ := call_iff.mp run
    obtain ⟨_, metadata, parts⟩ := overwritten_fields diff
    cases r with
    | lost => exact absurd succeeded (abort_fails goes)
    | answer a =>
      by_cases success : a.status = 200
      · simp only [success, if_true] at goes
        obtain ⟨_, _, rfl⟩ := done_iff.mp goes
        by_cases failed : a.errorBody = false
        case neg => simp [Answered, success, failed] at served
        simp only [Answered, success, failed, and_self, if_true] at served
        rw [served]
        have eq : w₃.joined etags.length = w.joined etags.length := by
          simp only [CopyWorld.joined, parts]
        simp only [eq, read, metadata, ObjectVersion.bytes]
        rw [take_of_length_le (by omega)]
      · simp only [success, if_false] at goes
        exact absurd succeeded (abort_fails goes)
  | succ left ih =>
    obtain ⟨r, w₂, _, ⟨w₃, diff, served⟩, goes, _⟩ := call_iff.mp run
    cases r with
    | lost => exact absurd succeeded (abort_fails goes)
    | answer a =>
      obtain ⟨rfl, got⟩ := served
      by_cases success : a.status = 200 ∨ a.status = 206
      · simp only [success, if_true] at goes
        obtain ⟨e₂, part, sees, at_n, bytes⟩ := got success
        rw [diff.2 rfl, readable] at sees
        cases Option.some.inj sees
        obtain ⟨r₂, w₄, _, ⟨w₅, diff₂, put⟩, continues, _⟩ := call_iff.mp goes
        cases r₂ with
        | lost => exact absurd succeeded (abort_fails continues)
        | answer b =>
          by_cases wrote : b.status = 200
          · simp only [Answered, wrote, if_true] at put continues
            obtain ⟨all, _, post⟩ := put
            obtain ⟨_, metadata, parts⟩ := overwritten_fields diff
            obtain ⟨_, metadata₂, parts₂⟩ := overwritten_fields diff₂
            have carried : w₄.uploadMetadata = w.uploadMetadata := by
              rw [post]
              exact metadata₂.trans metadata
            rw [← carried]
            refine ih (by simp [next]) (by simp; omega) ?_ ?_ continues
            · rw [post]
              show w₅.readable leg = some e
              rw [diff₂.2 rfl, diff.2 rfl]
              exact readable
            have old : w₄.joined etags.length = w.joined etags.length := by
              simp only [CopyWorld.joined, post, parts₂, parts]
              congr 1
              refine map_congr_left fun i mem => ?_
              rw [if_neg]
              have bound := mem_range.mp mem
              omega
            have here : w₄.parts (etags.length + 1) = part := by
              simp only [post, next, if_true]
              exact bytes all
            have index : n - 1 = etags.length := by omega
            rw [index] at at_n
            rw [length_append, length_singleton, joined_succ, old, here, read, take_add_one, at_n]
            simp
          · simp only [wrote, if_false] at continues
            exact absurd succeeded (abort_fails continues)
      · simp only [success, if_false] at goes
        exact absurd succeeded (abort_fails goes)

theorem copyByParts_stores {e : Key} {head : CopyAnswer}
    (layout : (versions.of e).parts.length = multipartCount e) (readable : w.readable leg = some e)
    (run : Runs (VersionServes false versions admits true) w
      (copyByParts job leg head (multipartCount e)) trace outcome w₁)
    (succeeded : outcome.answer = .ok etag) :
    w₁.stored = some ((versions.of e).bytes, job.metadata head.metadata) := by
  obtain ⟨r, w₂, _, ⟨w₃, diff, served⟩, goes, _⟩ := call_iff.mp run
  cases r with
  | lost =>
    obtain ⟨_, eq, _⟩ := done_iff.mp goes
    rw [eq] at succeeded
    cases succeeded
  | answer a =>
    by_cases started : a.status = 200 ∧ a.uploadID ≠ []
    · simp only [if_pos started] at goes
      simp only [Answered, started.1, if_true] at served
      have stored : w₁.stored = some ((versions.of e).bytes, w₂.uploadMetadata) := by
        have first : ([] : List Key).length + 1 = 1 := rfl
        refine copyParts_stores first ?_ ?_ rfl goes succeeded
        · rw [layout, length_nil, Nat.zero_add]
        rw [served]
        show w₃.readable leg = some e
        rw [diff.2 rfl]
        exact readable
      rw [stored, served]
    · simp only [if_neg started] at goes
      obtain ⟨_, eq, _⟩ := done_iff.mp goes
      rw [eq] at succeeded
      cases succeeded

/-- The copies of one version: in one part, unless they are read by a version id for a
destination whose completions answered with 200 are done; and read by a version id, or taking the
bytes alone, or of a tag that the client names. -/
def KeepsVersion (job : CopyJob) (late pinned : Bool) (admits : Key → Bool) : Prop :=
  (pinned = true ∧ late = false ∨ ∀ e, admits e = true → multipartCount e ≤ 1) ∧
    (pinned = true ∨ job.replaced.isSome = true ∨
      ∀ e e₂, admits e = true → admits e₂ = true → e = e₂)

theorem oneVersion_of_keeps (all : job.part = none)
    (keeps : KeepsVersion job late pinned admits) : OneVersion job late pinned admits := by
  intro versions w trace outcome etag w₁ run succeeded
  obtain ⟨head, w₂, _, _, prev, goes, _⟩ := bind_iff.mp run
  cases head with
  | error =>
    obtain ⟨_, eq, _⟩ := done_iff.mp goes
    rw [eq] at succeeded
    cases succeeded
  | ok got =>
    obtain ⟨leg, a⟩ := got
    obtain ⟨e, readable, admitted, tag, metadata⟩ := copySourceHead_version prev
    simp only [copyRead, all, tag] at goes
    split at goes
    case isTrue multipart =>
      rcases keeps.1 with ⟨rfl, rfl⟩ | single
      · refine ⟨e, ?_⟩
        rw [copyByParts_stores (versions.layout e multipart) readable goes succeeded, metadata]
      · exact absurd multipart (Nat.not_lt.mpr (single e admitted))
    case isFalse =>
      split at goes
      · obtain ⟨_, eq, _⟩ := done_iff.mp goes
        rw [eq] at succeeded
        cases succeeded
      obtain ⟨e₂, admitted₂, sees, stored⟩ := copyWhole_stores goes succeeded
      rw [metadata] at stored
      rcases keeps.2 with fixed | replaced | unique
      · have eq := sees fixed
        rw [readable] at eq
        cases Option.some.inj eq
        exact ⟨e, stored⟩
      · obtain ⟨client, given⟩ := Option.isSome_iff_exists.mp replaced
        refine ⟨e₂, ?_⟩
        rw [stored]
        simp [CopyJob.metadata, given]
      · cases unique e e₂ admitted admitted₂
        exact ⟨e, stored⟩

theorem unchanged (w : CopyWorld) : Overwritten pinned w w := ⟨rfl, fun _ => rfl⟩

def overwriteAll (w : CopyWorld) (e : Key) : CopyWorld :=
  { w with readable := fun _ => some e }

theorem overwriteAll_overwritten (w : CopyWorld) (e : Key) :
    Overwritten false w (overwriteAll w e) := ⟨rfl, nofun⟩

def marks (e x : Key) : UInt8 := if x = e then 0 else 1

def markedVersions (e : Key) (count : Nat) : Versions where
  of x :=
    { parts := List.replicate (if 1 < multipartCount x then multipartCount x else count)
        [marks e x]
      metadata := [([], [marks e x])] }
  layout x several := by simp [several]

theorem markedVersions_bytes (e : Key) (count : Nat) (x : Key) :
    ((markedVersions e count).of x).bytes =
      List.replicate (if 1 < multipartCount x then multipartCount x else count) (marks e x) := by
  simp [markedVersions, ObjectVersion.bytes]

/-- A source that stays at one marked version is copied part by part, and the completion is
answered with success, whether or not it `failed`. -/
theorem copyParts_runs {e x uploadID : Key} {count left n : Nat} {etags : List Key}
    {failed : Bool} (lateness : failed → late) (next : etags.length + 1 = n)
    (total : etags.length + left ≤ if 1 < multipartCount x then multipartCount x else count)
    (readable : w.readable leg = some x) :
    ∃ trace w₁, Runs (VersionServes late (markedVersions e count) admits pinned) w
        (copyParts leg uploadID left n etags) trace { answer := .ok [] } w₁ ∧
      w₁.stored = if failed then w.stored else
        some (w.joined etags.length ++ List.replicate left (marks e x), w.uploadMetadata) := by
  induction left generalizing n etags w with
  | zero =>
    cases failed with
    | true =>
      exact ⟨_, w, call_iff.mpr ⟨.answer { status := 200, errorBody := true }, _, _,
        ⟨w, unchanged w, fun _ => lateness rfl, rfl⟩, .done, rfl⟩, rfl⟩
    | false =>
      refine ⟨_, { w with stored := some (w.joined etags.length, w.uploadMetadata) },
        call_iff.mpr ⟨.answer { status := 200 }, _, _, ⟨w, unchanged w, rfl⟩, .done, rfl⟩, ?_⟩
      simp
  | succ left ih =>
    let put : CopyWorld := { w with parts := fun i => if i = n then [marks e x] else w.parts i }
    obtain ⟨trace, w₁, run, stored⟩ := @ih put (n + 1) (etags ++ [[]])
      (by simp [next]) (by simp; omega) readable
    have part : ((markedVersions e count).of x).parts[n - 1]? = some [marks e x] := by
      simp only [markedVersions]
      rw [getElem?_replicate, if_pos (by omega)]
    let read : CopyAnswer := { status := 200, length := 1, body := { bytes := [marks e x] } }
    refine ⟨(.getPart leg n, .answer read) ::
      (.putPart uploadID n read.body 1, .answer { status := 200 }) :: trace, w₁, ?_, ?_⟩
    · refine call_iff.mpr ⟨.answer read, w, _,
        ⟨w, unchanged w, rfl, fun _ => ⟨x, _, readable, part, fun _ => rfl⟩⟩, ?_, rfl⟩
      exact call_iff.mpr ⟨.answer { status := 200 }, put, _,
        ⟨w, unchanged w, rfl, rfl, rfl⟩, run, rfl⟩
    have prev : put.joined etags.length = w.joined etags.length := by
      simp only [CopyWorld.joined, put]
      congr 1
      refine map_congr_left fun i mem => ?_
      rw [if_neg]
      have bound := mem_range.mp mem
      omega
    have here : put.parts (etags.length + 1) = [marks e x] := by simp [put, next]
    rw [stored, length_append, length_singleton, joined_succ, prev, here, append_assoc]
    rfl

def headOf (versions : Versions) (e : Key) : CopyAnswer :=
  { status := 200, etag := e, metadata := (versions.of e).metadata
    length := (versions.of e).bytes.length }

theorem head_runs {e : Key} (admitted : admits e) :
    Runs (VersionServes late versions admits pinned) { readable := fun _ => some e }
      (copySourceHead job) [(.headSource job.src, .answer (headOf versions e))]
      (.ok (job.src, headOf versions e)) { readable := fun _ => some e } := by
  refine bind_iff.mpr ⟨.ok (headOf versions e), _,
    [(.headSource job.src, .answer (headOf versions e))], [], ?_, .done, rfl⟩
  exact .call ⟨_, unchanged _, rfl, fun _ => ⟨e, rfl, admitted, rfl, rfl, rfl⟩⟩ .done

/-- The destination once an upload for the copy has been created. -/
def begun (job : CopyJob) (versions : Versions) (e : Key) : CopyWorld :=
  { readable := fun _ => some e, uploadMetadata := job.metadata (versions.of e).metadata }

theorem streamCopy_byParts (all : job.part = none) {e : Key} (admitted : admits e)
    (several : 1 < multipartCount e)
    (run : Runs (VersionServes late versions admits pinned) (begun job versions e)
      (copyParts job.src [1] (multipartCount e) 1 []) trace outcome w₁) :
    ∃ w trace, Runs (VersionServes late versions admits pinned) w (streamCopy job) trace outcome
      w₁ := by
  obtain ⟨trace, copy⟩ : ∃ trace, Runs (VersionServes late versions admits pinned)
      { readable := fun _ => some e } (copyRead job job.src (headOf versions e)) trace outcome
      w₁ := by
    rw [copyRead, all]
    simp only [headOf, several, if_true]
    exact ⟨_, call_iff.mpr ⟨.answer { status := 200, uploadID := [1] }, begun job versions e,
      _, ⟨_, unchanged _, rfl⟩, run, rfl⟩⟩
  exact ⟨_, _, bind_iff.mpr ⟨_, _, _, _, head_runs admitted, copy, rfl⟩⟩

theorem parts_lost (all : job.part = none) {e : Key} (admitted : admits e)
    (several : 1 < multipartCount e) : ¬OneVersion job true pinned admits := by
  intro one
  obtain ⟨_, w₁, run, stored⟩ := @copyParts_runs true admits pinned job.src
    (begun job (markedVersions e 0) e) e e [1] 0 (multipartCount e) 1 [] true id rfl
    (by simp [several]) rfl
  obtain ⟨w, trace, copy⟩ := streamCopy_byParts all admitted several run
  obtain ⟨x, eq⟩ := one _ w trace _ [] w₁ copy rfl
  rw [stored] at eq
  cases eq

theorem parts_mix (all : job.part = none) {e : Key} (admitted : admits e)
    (several : 1 < multipartCount e) : ¬OneVersion job late false admits := by
  intro one
  obtain ⟨count, counted⟩ : ∃ count, multipartCount e = count + 2 :=
    ⟨multipartCount e - 2, by omega⟩
  have other : marks e [] = 1 := by
    refine if_neg ?_
    rintro rfl
    exact absurd several (by decide)
  have plain : multipartCount [] = 1 := by decide
  let versions := markedVersions e (count + 2)
  let start := begun job versions e
  let put : CopyWorld :=
    { overwriteAll start [] with parts := fun i => if i = 1 then [0] else start.parts i }
  obtain ⟨rest, w₁, run, stored⟩ := @copyParts_runs late admits false job.src put e [] [1]
    (count + 2) (count + 1) 2 [[]] false nofun rfl (by simp [plain]; omega) rfl
  have part : (versions.of e).parts[1 - 1]? = some [0] := by
    simp [versions, markedVersions, marks, counted]
  have first : Runs (VersionServes late versions admits false) start
      (copyParts job.src [1] (count + 2) 1 [])
      ((.getPart job.src 1, .answer { status := 200, length := 1, body := { bytes := [0] } }) ::
        (.putPart [1] 1 { bytes := [0] } 1, .answer { status := 200 }) :: rest)
      { answer := .ok [] } w₁ := by
    refine call_iff.mpr
      ⟨.answer { status := 200, length := 1, body := { bytes := [0] } }, start, _,
        ⟨start, unchanged start, rfl, fun _ => ⟨e, [0], rfl, part, fun _ => rfl⟩⟩, ?_, rfl⟩
    exact call_iff.mpr ⟨.answer { status := 200 }, put, _,
      ⟨overwriteAll start [], overwriteAll_overwritten start [], rfl, rfl, rfl⟩, run, rfl⟩
  rw [← counted] at first
  obtain ⟨w, trace, copy⟩ := streamCopy_byParts all admitted several first
  obtain ⟨x, eq⟩ := one versions w trace _ [] w₁ copy rfl
  -- the bytes begin with 0 and go on with 1
  have mixed : (versions.of x).bytes = 0 :: 1 :: List.replicate count 1 := by
    rw [stored] at eq
    rw [← (Prod.mk.inj (Option.some.inj eq)).1]
    simp [CopyWorld.joined, put, replicate_succ, other]
  rw [markedVersions_bytes] at mixed
  have zero : (0 : UInt8) ∈ List.replicate
      (if 1 < multipartCount x then multipartCount x else count + 2) (marks e x) := by
    rw [mixed]
    simp
  have one_mem : (1 : UInt8) ∈ List.replicate
      (if 1 < multipartCount x then multipartCount x else count + 2) (marks e x) := by
    rw [mixed]
    simp
  have differ := (eq_of_mem_replicate zero).trans (eq_of_mem_replicate one_mem).symm
  exact absurd differ (by decide)

theorem whole_mixes (all : job.part = none) (kept : job.replaced = none) {e e₂ : Key}
    (admitted : admits e) (admitted₂ : admits e₂) (differ : e ≠ e₂)
    (single : multipartCount e ≤ 1) (single₂ : multipartCount e₂ ≤ 1) :
    ¬OneVersion job late false admits := by
  intro one
  let versions := markedVersions e 1
  have bytes₂ : (versions.of e₂).bytes = [1] := by
    rw [markedVersions_bytes, if_neg (Nat.not_lt.mpr single₂)]
    simp [marks, Ne.symm differ]
  have bytes : (versions.of e).bytes = [0] := by
    rw [markedVersions_bytes, if_neg (Nat.not_lt.mpr single)]
    simp [marks]
  let start : CopyWorld := { readable := fun _ => some e }
  let diff := overwriteAll start e₂
  let last : CopyWorld := { diff with stored := some ([1], (versions.of e).metadata) }
  have body : Runs (VersionServes late versions admits false) start (copySourceBody job.src [])
      [(.getSource job.src [], .answer { status := 200, body := { bytes := [1] } })]
      (.ok { bytes := [1] }) diff := by
    refine call_iff.mpr ⟨.answer { status := 200, body := { bytes := [1] } }, diff, [],
      ⟨diff, overwriteAll_overwritten start e₂, rfl, fun _ => ?_⟩, .done, rfl⟩
    exact ⟨e₂, rfl, admitted₂, fun _ _ => bytes₂.symm⟩
  have copy : Runs (VersionServes late versions admits false) start
      (copyRead job job.src (headOf versions e))
      ([(.getSource job.src [], .answer { status := 200, body := { bytes := [1] } })] ++
        [(.putObject (job.act.apply job.conds) (versions.of e).metadata { bytes := [1] } 1,
          .answer { status := 200 })]) { answer := .ok [] } last := by
    rw [copyRead, all]
    have small : ¬maxStreamedCopy < (headOf versions e).length := by
      simp [headOf, bytes, maxStreamedCopy]
    simp only [if_neg small]
    rw [if_neg (by simpa [headOf] using single)]
    refine bind_iff.mpr ⟨_, _, _, _, body, ?_, rfl⟩
    have length : (headOf versions e).length = 1 := by simp [headOf, bytes]
    have sent : job.metadata (headOf versions e).metadata = (versions.of e).metadata := by
      simp [CopyJob.metadata, kept, headOf]
    simp only [length, sent]
    exact .call ⟨diff, unchanged diff, rfl, rfl, rfl⟩ .done
  obtain ⟨x, eq⟩ := one versions _ _ _ [] last
    (bind_iff.mpr ⟨_, _, _, _, head_runs admitted, copy, rfl⟩) rfl
  obtain ⟨sameBytes, sameMetadata⟩ := Prod.mk.inj (Option.some.inj eq)
  -- the metadata is of the first version, the bytes are not
  have first : x = e := by
    by_contra other
    rw [CopyJob.metadata, kept] at sameMetadata
    simp [versions, markedVersions, marks, other] at sameMetadata
  rw [first, bytes] at sameBytes
  exact absurd sameBytes (by decide)

def plainCopy : CopyJob := { src := ⟨"A", "y"⟩ }

end Shunt.Proxy
