/-
The source of a copy: the header is taken apart, the bucket it names is looked up, and
the copy is left to the backend with a rewritten header, streamed from the cluster that
holds the key, or refused.
-/

import Shunt.Library.Json
import Shunt.Proxy.Forward
import Shunt.Proxy.ForwardedKey

namespace Shunt.Proxy

open Directory List Option
open Library
open Migrate

/-- A header taken apart: an optional slash, the bucket's text, the separator, and the rest. -/
structure SourceText where
  lead : Key
  seg : Key
  sep : Key
  rest : Key
  deriving DecidableEq

def encodedSlash : Key → Option Nat
  | [] => none
  | c :: rest =>
    if c = 37 ∧ rest.head? = some 50 ∧
        (rest.tail.head? = some 70 ∨ rest.tail.head? = some 102) then some 0
    else (encodedSlash rest).map (· + 1)

def splitSource (value : Key) : Option SourceText :=
  let lead := if value.head? = some 47 then [47] else []
  let s := trimSlash value
  if 47 ∈ s then some ⟨lead, (cut 47 s).1, [47], (cut 47 s).2⟩
  else (encodedSlash s).map fun j => ⟨lead, s.take j, (s.drop j).take 3, s.drop (j + 3)⟩

def SourceText.rawKey (t : SourceText) : Key := (cut 63 t.rest).1

def SourceText.query (t : SourceText) : Key := (cut 63 t.rest).2

def versionId : Key := [118, 101, 114, 115, 105, 111, 110, 73, 100]

def SourceText.versionID (t : SourceText) : Key :=
  match parseQuery t.query with
  | some pairs => firstValue pairs versionId
  | none => []

def SourceText.naming (t : SourceText) (bucket : Key) : Key := t.lead ++ bucket ++ t.sep ++ t.rest

structure CopyPlan where
  src : Leg
  fallback : Option Leg
  rawKey : Key
  versionID : Key
  -- the copy depends on the source of its bucket's migration
  needsSource : Bool

inductive CopySource where
  | refused (code message : String)
  | rewritten (value : Key)
  | streamed (plan : CopyPlan)

section

variable (hash : Key → Hash) (stale : Placement → Bool) (linked : List String)

def narrowSource (p : Placement) (rawKey : Key) : Except (String × String) Placement :=
  if p.spread then
    match pathUnescape rawKey with
    | none => .error ("InvalidArgument", "x-amz-copy-source is not valid.")
    | some key =>
      match narrow hash p key with
      | .error _ => .error ("ServiceUnavailable",
          "The source bucket's key split cannot be routed by this proxy version.")
      | .ok v => .ok v
  else .ok p

def sourceBarred (v : Placement) : Bool := v.barrier.any fun b => decide (b.kind = .source)

def copyFallback (v : Placement) (wantsFallback : Bool) (readFrom : String) : Option Leg :=
  let other := if readFrom = v.source then v.primary else v.source
  if wantsFallback = true ∧ v.source ≠ "" ∧ sourceBarred v = false ∧
      v.clusterOf other ∈ linked ∧ nameIn v.names other ≠ "" then
    some (bucketIn v other)
  else none

def planFrom (v : Placement) (t : SourceText) (wantsFallback : Bool) (readFrom : String) :
    CopySource :=
  let fallback := copyFallback linked v wantsFallback readFrom
  let needs := decide (v.source ≠ "" ∧ (readFrom = v.source ∨ fallback.isSome = true))
  if v.clusterOf readFrom ∉ linked ∨ nameIn v.names readFrom = "" then
    .refused "NoSuchKey" "The source object's cluster is not available."
  else if needs = true ∧ sourceBarred v = true ∧ readFrom = v.source then
    .refused "ServiceUnavailable" "The source bucket of this copy is being changed. Retry shortly."
  else
    .streamed { src := bucketIn v readFrom, fallback := fallback, rawKey := t.rawKey
                versionID := t.versionID, needsSource := needs }

def planCopy (v : Placement) (t : SourceText) (key : Key) : CopySource :=
  match decideRoute hash v .read key with
  | .error _ => .refused "ServiceUnavailable"
      "The source bucket's migration ramp cannot be routed by this proxy version."
  | .ok decided =>
    let route := staleRead (stale v) .read decided
    planFrom linked v t route.fallback (match route.cluster with
      | .primary => v.primary
      | .source => v.source)

/-- How a copy can be made, given the placements the tenant's credential may use and the
destination's cluster. -/
def resolveCopySource (lookup : Key → Option Placement) (dst : String) (value : Key) : CopySource :=
  match splitSource value with
  | none => .refused "InvalidArgument" "x-amz-copy-source must name a bucket and a key."
  | some t =>
    match pathUnescape t.seg with
    | none => .refused "InvalidArgument" "x-amz-copy-source is not valid."
    | some bucket =>
      match lookup bucket with
      | none => .refused "NoSuchBucket" "The source bucket does not exist."
      | some p =>
        match narrowSource hash p t.rawKey with
        | .error (code, message) => .refused code message
        | .ok v =>
          let name := nameIn v.names v.primary
          if (v.state = .active ∨ v.state = .cutover) ∧ v.clusterOf v.primary = dst ∧
              name ≠ "" then
            .rewritten (t.naming (bytesOf name))
          else
            match pathUnescape t.rawKey with
            | none => .refused "InvalidArgument" "x-amz-copy-source is not valid."
            | some key => planCopy hash stale linked v t key

end

def versionText (version : Key) : Key :=
  if version = [] then [] else 63 :: versionId ++ 61 :: escape version

def isControl (c : UInt8) : Bool := c < 32 || c == 127

def sourceTarget (backend rawKey version : Key) : Option Key :=
  let target := copyTarget backend rawKey ++ versionText version
  -- the URL is checked up to its fragment
  if (cut 35 target).1.any isControl then none else some target

def requested (target : Key) : Key × Key × Key :=
  let url := (cut 35 target).1
  let (bucket, key) := sent (cut 63 url).1
  (bucket, key, firstValue (readQuery (cut 63 url).2) versionId)

def copySourceMeaning (value : Key) : Option (Key × Key × Key) :=
  match splitSource value with
  | none => none
  | some t =>
    match pathUnescape t.seg, pathUnescape t.rawKey, parseQuery t.query with
    | some bucket, some key, some pairs =>
      if key = [] then none else some (bucket, key, firstValue pairs versionId)
    | _, _, _ => none

def CopyPlan.legs (plan : CopyPlan) : List Leg := plan.src :: plan.fallback.toList

/-- What a streamed copy reads from each bucket of its plan is the key and version it was
routed by, and what any backend reads there from the header with that bucket in it. -/
def ReadsRouted (t : SourceText) (plan : CopyPlan) : Prop :=
  ∀ leg ∈ plan.legs, ∀ target,
    sourceTarget (bytesOf leg.bucket) plan.rawKey plan.versionID = some target →
      requested target = (bytesOf leg.bucket, unescapeKey t.rawKey, t.versionID) ∧
      ∀ reads : Key → Option (Key × Key × Key),
        (∀ value object, copySourceMeaning value = some object → reads value = some object) →
        reads (t.naming (bytesOf leg.bucket)) = some (requested target)

/-- The headers whose text is read alike everywhere, and those that are not read at all. -/
def SourceText.Plain (t : SourceText) : Prop :=
  (cut 35 t.rawKey).1.any isControl = true ∨
    t.rawKey ≠ [] ∧ 35 ∉ t.rawKey ∧ (parseQuery t.query).isSome = true

theorem encodedSlash_spec {s : Key} {j : Nat} (got : encodedSlash s = some j) :
    ∃ last, (last = 70 ∨ last = 102) ∧ s = s.take j ++ [37, 50, last] ++ s.drop (j + 3) := by
  induction s generalizing j with
  | nil => cases got
  | cons c rest ih =>
    unfold encodedSlash at got
    split at got
    case isTrue here =>
      obtain ⟨percent, two, last⟩ := here
      cases got
      match rest, two, last with
      | a :: b :: later, two, last =>
        simp only [head?_cons, Option.some.injEq, tail_cons] at two last
        exact ⟨b, last, by simp [percent, two]⟩
    case isFalse =>
      obtain ⟨i, later, rfl⟩ := map_eq_some_iff.mp got
      obtain ⟨last, letter, split⟩ := ih later
      exact ⟨last, letter, by simpa using split⟩

theorem encodedSlash_joined {prev : Key} (free : 37 ∉ prev) {last : UInt8}
    (letter : last = 70 ∨ last = 102) (post : Key) :
    encodedSlash (prev ++ [37, 50, last] ++ post) = some prev.length := by
  induction prev with
  | nil =>
    rcases letter with rfl | rfl <;> simp [encodedSlash]
  | cons c rest ih =>
    rw [mem_cons, not_or] at free
    have other : c ≠ 37 := Ne.symm free.1
    rw [cons_append, cons_append, encodedSlash, if_neg fun all => other all.1, ih free.2]
    rfl

theorem trimSlash_named {lead bucket rest : Key} (shape : lead = [47] ∨ lead = [])
    (plain : PlainName bucket) (there : bucket ≠ []) :
    trimSlash (lead ++ bucket ++ rest) = bucket ++ rest ∧
      (if (lead ++ bucket ++ rest).head? = some 47 then [47] else []) = lead := by
  cases bucket with
  | nil => exact absurd rfl there
  | cons c =>
    have other : c ≠ 47 := by
      rintro rfl
      exact absurd (plain 47 mem_cons_self) (by decide)
    rcases shape with rfl | rfl
    · simp [trimSlash]
    · simp [trimSlash, other]

theorem splitSource_naming {value : Key} {t : SourceText} (got : splitSource value = some t)
    {bucket : Key} (plain : PlainName bucket) (there : bucket ≠ []) :
    splitSource (t.naming bucket) = some { t with seg := bucket } := by
  have slashless : 47 ∉ bucket := fun mem => absurd (plain 47 mem) (by decide)
  have percentless : 37 ∉ bucket := fun mem => absurd (plain 37 mem) (by decide)
  have leadShape : (if value.head? = some 47 then [47] else ([] : Key)) = [47] ∨
      (if value.head? = some 47 then [47] else ([] : Key)) = [] := by
    split <;> simp
  unfold splitSource at got
  simp only at got
  split at got
  case isTrue slash =>
    cases got
    obtain ⟨trimmed, lead⟩ := @trimSlash_named _ _ ([47] ++ (cut 47 (trimSlash value)).2)
      leadShape plain there
    unfold splitSource SourceText.naming
    simp only [append_assoc] at trimmed lead ⊢
    rw [trimmed, lead, if_pos (by simp)]
    simp only [singleton_append, cut_joined slashless]
  case isFalse slash =>
    obtain ⟨j, place, rfl⟩ := map_eq_some_iff.mp got
    obtain ⟨last, letter, split⟩ := encodedSlash_spec place
    have sep : ((trimSlash value).drop j).take 3 = [37, 50, last] := by
      have bound : ((trimSlash value).take j).length = j := by
        have lengths := congrArg List.length split
        simp only [length_append, length_take, length_drop, length_cons, length_nil] at lengths
        rw [length_take]
        omega
      conv_lhs => rw [split]
      rw [append_assoc, drop_append, bound]
      simp
    have free : 47 ∉ (trimSlash value).drop (j + 3) :=
      fun mem => slash ((drop_sublist _ _).subset mem)
    rw [sep]
    obtain ⟨trimmed, lead⟩ := @trimSlash_named _ _
      ([37, 50, last] ++ (trimSlash value).drop (j + 3)) leadShape plain there
    unfold splitSource SourceText.naming
    simp only [append_assoc] at trimmed lead ⊢
    have noSlash : 47 ∉ bucket ++ ([37, 50, last] ++ (trimSlash value).drop (j + 3)) := by
      rcases letter with rfl | rfl <;> simp [slashless, free]
    rw [trimmed, lead, if_neg noSlash]
    have index := encodedSlash_joined percentless letter ((trimSlash value).drop (j + 3))
    rw [append_assoc] at index
    rw [index]
    simp

theorem unreserved_control (c : UInt8) : unreserved c → isControl c = false :=
  @forall_byte (fun c => unreserved c → isControl c = false) (by decide +kernel) c

theorem escape_control (s : Key) : (escape s).any isControl = false := by
  rw [List.any_eq_false]
  intro c mem
  rcases mem_escape mem with kept | rfl
  · simp [unreserved_control c kept]
  · decide

theorem sourceTarget_eq {backend : Key} (plain : PlainName backend) (rawKey version : Key) :
    sourceTarget backend rawKey version = if (cut 35 rawKey).1.any isControl then none
      else some (copyTarget backend rawKey ++ versionText version) := by
  have name : backend.any isControl = false :=
    List.any_eq_false.mpr fun c mem => by simp [unreserved_control c (plain c mem)]
  have number : 35 ∉ backend := fun mem => absurd (plain 35 mem) (by decide)
  have target : (cut 35 (copyTarget backend rawKey)).1.any isControl =
      (cut 35 rawKey).1.any isControl := by
    unfold copyTarget
    split
    · rename_i empty
      rw [empty]
      exact cut_any_right (by simp [number]) (by simp [name, isControl])
    · exact cut_any_right (by simp [number]) (by simp [name, isControl])
  have query : (versionText version).any isControl = false := by
    unfold versionText
    split
    · rfl
    · have named : versionId.any isControl = false := by decide
      simp [any_append, named, escape_control, isControl]
  simp only [sourceTarget, cut_any_left query, target]

theorem mem_copyTarget {backend : Key} (plain : PlainName backend) {rawKey : Key}
    {c : UInt8} (reserved : unreserved c = false) (slash : c ≠ 47)
    (mem : c ∈ copyTarget backend rawKey) : c ∈ rawKey := by
  have gone : c ∉ backend := fun isIn => by
    rw [plain c isIn] at reserved
    cases reserved
  unfold copyTarget at mem
  simp only [cons_append, mem_cons, mem_append] at mem
  rcases mem with eq | isIn | later
  · exact absurd eq slash
  · exact absurd isIn gone
  split at later
  · cases later
  · exact (mem_cons.mp later).resolve_left slash

theorem number_not_mem_versionText (version : Key) : 35 ∉ versionText version := by
  have named : 35 ∉ versionId := by decide
  unfold versionText
  split
  · simp
  · simp [named, number_not_mem_escape]

theorem requested_plain {backend : Key} (plain : PlainName backend) {rawKey key version : Key}
    (read : pathUnescape rawKey = some key) (number : 35 ∉ rawKey) (question : 63 ∉ rawKey) :
    requested (copyTarget backend rawKey ++ versionText version) = (backend, key, version) := by
  have whole : 35 ∉ copyTarget backend rawKey ++ versionText version := by
    rw [mem_append, not_or]
    exact ⟨fun mem => number (mem_copyTarget plain (by decide) (by decide) mem),
      number_not_mem_versionText version⟩
  have path : 63 ∉ copyTarget backend rawKey :=
    fun mem => question (mem_copyTarget plain (by decide) (by decide) mem)
  have split : cut 63 (copyTarget backend rawKey ++ versionText version) =
      (copyTarget backend rawKey,
        if version = [] then [] else versionId ++ 61 :: escape version) := by
    unfold versionText
    by_cases current : version = []
    · rw [if_pos current, if_pos current, append_nil, cut_free path]
    · rw [if_neg current, if_neg current]
      exact cut_joined path
  have pairs : firstValue (readQuery (if version = [] then []
      else versionId ++ 61 :: escape version)) versionId = version := by
    by_cases current : version = []
    · rw [if_pos current, current]
      rfl
    · rw [if_neg current, readQuery_single (by decide) (by decide)]
      simp [firstValue]
  simp only [requested, cut_free whole, split, sent_copyTarget plain read number, pairs]

theorem requested_fragment {backend : Key} (plain : PlainName backend) {rawKey key version : Key}
    (read : pathUnescape rawKey = some key) (number : 35 ∈ rawKey) (question : 63 ∉ rawKey) :
    requested (copyTarget backend rawKey ++ versionText version) ≠ (backend, key, version) := by
  have isIn : 35 ∈ copyTarget backend rawKey := by
    have there : rawKey ≠ [] := by
      rintro rfl
      cases number
    simp [copyTarget, there, number]
  have url : (cut 35 (copyTarget backend rawKey ++ versionText version)).1 =
      (cut 35 (copyTarget backend rawKey)).1 := by
    conv_lhs => rw [eq_cut isIn, append_assoc, cons_append,
      cut_joined (not_mem_cut _ _)]
  have path : 63 ∉ (cut 35 (copyTarget backend rawKey)).1 := fun mem =>
    question (mem_copyTarget plain (by decide) (by decide) (mem_of_mem_cut mem))
  have cutTwice :
      sent (cut 35 (copyTarget backend rawKey)).1 = sent (copyTarget backend rawKey) := by
    rw [sent, cut_free (not_mem_cut _ _), sent]
  intro eq
  simp only [requested, url, cut_free path, cutTwice, Prod.mk.injEq] at eq
  exact copied_fragment plain number read (Prod.ext eq.1 eq.2.1)

section

variable {hash : Key → Hash} {stale : Placement → Bool} {linked : List String}
  {lookup : Key → Option Placement} {dst : String} {value : Key} {t : SourceText}
  {plan : CopyPlan}

theorem planFrom_texts {v : Placement} {wantsFallback : Bool} {readFrom : String}
    (plans : planFrom linked v t wantsFallback readFrom = .streamed plan) :
    plan.rawKey = t.rawKey ∧ plan.versionID = t.versionID := by
  unfold planFrom at plans
  simp only at plans
  iterate 2
    split at plans
    · cases plans
  · have eq := CopySource.streamed.inj plans
    exact ⟨by rw [← eq], by rw [← eq]⟩

theorem planCopy_texts {v : Placement} {key : Key}
    (plans : planCopy hash stale linked v t key = .streamed plan) :
    plan.rawKey = t.rawKey ∧ plan.versionID = t.versionID := by
  unfold planCopy at plans
  split at plans
  · cases plans
  · exact planFrom_texts plans

theorem streamed_texts (got : splitSource value = some t)
    (solved : resolveCopySource hash stale linked lookup dst value = .streamed plan) :
    plan.rawKey = t.rawKey ∧ plan.versionID = t.versionID ∧
      ∃ key, pathUnescape t.rawKey = some key := by
  unfold resolveCopySource at solved
  rw [got] at solved
  simp only at solved
  iterate 5
    split at solved
    · cases solved
  rename_i key read
  obtain ⟨rawKey, version⟩ := planCopy_texts solved
  exact ⟨rawKey, version, key, read⟩

/-- What a streamed copy reads is what it was routed by, and what a backend would read from the
rewritten header, exactly for the headers whose texts are read alike everywhere. -/
theorem streamed_reads_routed_iff (got : splitSource value = some t)
    (solved : resolveCopySource hash stale linked lookup dst value = .streamed plan)
    (names : ∀ leg ∈ plan.legs, PlainName (bytesOf leg.bucket) ∧ bytesOf leg.bucket ≠ []) :
    ReadsRouted t plan ↔ t.Plain := by
  obtain ⟨rawKey, version, key, read⟩ := streamed_texts got solved
  have question : 63 ∉ t.rawKey := not_mem_cut 63 t.rest
  have routedKey : unescapeKey t.rawKey = key := by rw [unescapeKey, read, getD_some]
  -- what the header means with the name of one of the plan's buckets in it
  have meaning (leg : Leg) (mem : leg ∈ plan.legs) :
      copySourceMeaning (t.naming (bytesOf leg.bucket)) =
        (parseQuery t.query).bind fun pairs => if key = [] then none
          else some (bytesOf leg.bucket, key, firstValue pairs versionId) := by
    obtain ⟨plain, there⟩ := names leg mem
    have percentless : 37 ∉ bytesOf leg.bucket := fun isIn =>
      absurd (plain 37 isIn) (by decide)
    have decoded : pathUnescape (bytesOf leg.bucket) = some (bytesOf leg.bucket) := by
      have whole := pathUnescape_append percentless []
      simpa [pathUnescape] using whole
    have texts : ({ t with seg := bytesOf leg.bucket } : SourceText).rawKey = t.rawKey := rfl
    have queries : ({ t with seg := bytesOf leg.bucket } : SourceText).query = t.query := rfl
    rw [copySourceMeaning, splitSource_naming got plain there]
    simp only [decoded, texts, queries, read]
    cases parseQuery t.query <;> rfl
  constructor
  · intro routed
    by_cases control : (cut 35 t.rawKey).1.any isControl = true
    · exact .inl control
    refine .inr ?_
    obtain ⟨plain, _⟩ := names plan.src mem_cons_self
    have made := sourceTarget_eq plain plan.rawKey plan.versionID
    rw [rawKey, if_neg control, version] at made
    rw [ReadsRouted, rawKey, version] at routed
    obtain ⟨object, backends⟩ := routed plan.src mem_cons_self _ made
    have eq := backends copySourceMeaning fun _ _ read => read
    rw [meaning plan.src mem_cons_self] at eq
    refine ⟨?_, ?_, ?_⟩
    · rintro empty
      rw [empty] at read
      have blank : key = [] := (Option.some.inj read).symm
      cases parsed : parseQuery t.query with
      | none =>
        rw [parsed] at eq
        cases eq
      | some =>
        rw [parsed] at eq
        simp only [if_pos blank] at eq
        cases eq
    · intro number
      rw [routedKey] at object
      exact requested_fragment plain read number question object
    cases parsed : parseQuery t.query with
    | none =>
      rw [parsed] at eq
      cases eq
    | some => rfl
  · rintro (control | ⟨there, number, parsed⟩) leg mem target made
    · rw [sourceTarget_eq (names leg mem).1, rawKey, if_pos control] at made
      cases made
    obtain ⟨plain, _⟩ := names leg mem
    rw [sourceTarget_eq plain, rawKey, version] at made
    split at made
    · cases made
    have object : requested target = (bytesOf leg.bucket, key, t.versionID) := by
      rw [← Option.some.inj made]
      exact requested_plain plain read number question
    obtain ⟨pairs, query⟩ := isSome_iff_exists.mp parsed
    have keyed : key ≠ [] := by
      rintro rfl
      cases text : t.rawKey with
      | nil => exact there text
      | cons c rest =>
        rw [text] at read
        by_cases percent : c = 37
        · subst percent
          obtain _ | ⟨hi, _ | ⟨lo, later⟩⟩ := rest
          · cases read
          · cases read
          rw [pathUnescape_percent] at read
          obtain ⟨b, _, more⟩ := bind_eq_some_iff.mp read
          obtain ⟨_, _, shape⟩ := map_eq_some_iff.mp more
          cases shape
        rw [pathUnescape_other percent] at read
        obtain ⟨_, _, shape⟩ := map_eq_some_iff.mp read
        cases shape
    refine ⟨by rw [object, routedKey], fun reads lawful => ?_⟩
    refine lawful _ _ ?_
    rw [meaning leg mem, query, object]
    simp only [bind_some, if_neg keyed, SourceText.versionID, query]

end

def settledSource : Placement :=
  { state := .active, primary := "A", names := (∅ : StrMap String).insert "A" "y" }

def settledPlan (rawKey versionID : Key) : CopyPlan :=
  { src := ⟨"A", "y"⟩, fallback := none, rawKey := rawKey, versionID := versionID
    needsSource := false }

def resolveSettled (value : Key) : CopySource :=
  resolveCopySource (fun _ => 0) (fun _ => false) ["A", "B"] (fun _ => some settledSource) "B" value

def plainHeader : Key := [120, 47, 97, 98, 63] ++ versionId ++ [61, 118]

theorem plainHeader_reads_routed :
    resolveSettled plainHeader = .streamed (settledPlan [97, 98] [118]) ∧
      ReadsRouted ⟨[], [120], [47], [97, 98, 63] ++ versionId ++ [61, 118]⟩
        (settledPlan [97, 98] [118]) := by
  have solved : resolveSettled plainHeader = .streamed (settledPlan [97, 98] [118]) := rfl
  have got : splitSource plainHeader =
      some ⟨[], [120], [47], [97, 98, 63] ++ versionId ++ [61, 118]⟩ := by decide
  refine ⟨solved, (streamed_reads_routed_iff got solved ?_).mpr (.inr (by decide))⟩
  intro leg mem
  rw [mem_singleton.mp mem]
  have name : (bytesOf (settledPlan [97, 98] [118]).src.bucket).all unreserved = true := by decide
  exact ⟨List.all_eq_true.mp name, by decide⟩

/-- The copy of `x/a#b` reads the key `a`. -/
theorem number_sign_misread :
    resolveSettled [120, 47, 97, 35, 98] = .streamed (settledPlan [97, 35, 98] []) ∧
      sourceTarget [121] [97, 35, 98] [] = some [47, 121, 47, 97, 35, 98] ∧
      requested [47, 121, 47, 97, 35, 98] = ([121], [97], []) :=
  ⟨rfl, by decide, by decide⟩

end Shunt.Proxy
