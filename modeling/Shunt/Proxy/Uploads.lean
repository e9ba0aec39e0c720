/-
Multipart uploads through the proxy.  The id a backend gives an upload goes to the
client behind the id of its cluster; a request that carries it back is sent to the
role on that cluster, with the backend's own id in its query.
-/

import Shunt.Migrate.Dispatch
import Shunt.Migrate.UploadId

namespace Shunt.Proxy

open Directory List Option
open Library (cut escape unescape)
open Migrate

def pload : Key := [112, 108, 111, 97, 100]

def uploadIdName : Key := [117] ++ pload ++ [73, 100]

def uploadIdMarkerName : Key :=
  [117] ++ pload ++ [45, 105, 100, 45, 109, 97, 114, 107, 101, 114]

def uploadValue (part : Key) : Option Key :=
  match unescape (cut 61 part).1 with
  | none => none
  | some name =>
    if name = uploadIdName ∨ name = uploadIdMarkerName then unescape (cut 61 part).2 else none

/-- The pairs of a query rewritten from left to right, with the prefix found so far;
none when two of them name different ones. -/
def rewriteParts : List Key → Key → Option (List Key × Key)
  | [], pre => some ([], pre)
  | part :: rest, pre =>
    match (uploadValue part).bind decodeUploadID with
    | none => (rewriteParts rest pre).map fun r => (part :: r.1, r.2)
    | some (id, backendID) =>
      if pre ≠ [] ∧ pre ≠ id then none
      else
        (rewriteParts rest id).map fun r =>
          (((cut 61 part).1 ++ 61 :: escape backendID) :: r.1, r.2)

def rewriteUploadIDs (raw : Key) : Option (Key × Key) :=
  if ¬ pload <:+: raw then some (raw, [])
  else
    match rewriteParts (raw.splitOn 38) [] with
    | none => none
    | some (parts, pre) => if pre = [] then some (raw, []) else some ([38].intercalate parts, pre)

section

variable (clusterID bucketTag : Digest)

def sharesCluster (v : Placement) : Bool :=
  decide (v.source ≠ "") && decide (v.clusterOf v.source = v.clusterOf v.primary)

def uploadPrefix (v : Placement) (bucket : Leg) : Key :=
  prefixOf clusterID bucketTag bucket (sharesCluster v)

def bucketIn (v : Placement) (role : String) : Leg := ⟨v.clusterOf role, nameIn v.names role⟩

def rolesOn (v : Placement) (cluster : String) : List String :=
  [v.primary, v.source].filter fun role =>
    decide (role ≠ "") && decide (v.clusterOf role = cluster) && decide (nameIn v.names role ≠ "")

/-- The role the prefix of an upload id names: the one on its cluster, or, where both
are, the one whose bucket the tag names, and the source without a tag. -/
def uploadRole (v : Placement) (clusters : List String) (pre : Key) : Option String :=
  match clusters.find? fun name => decide (clusterID.of name = (splitUploadPrefix pre).1) with
  | none => none
  | some cluster =>
    match rolesOn v cluster with
    | [] => none
    | role :: others =>
      if (splitUploadPrefix pre).2 ≠ [] then
        (role :: others).find? fun r =>
          decide (bucketTag.of (nameIn v.names r) = (splitUploadPrefix pre).2)
      else if others = [] then some role
      else some v.source

inductive UploadError where
  | route (e : RouteError)
  | noSuchUpload
  deriving DecidableEq

variable (hash : Key → Hash)

/-- A new upload: the bucket that issues its id, and the id the client is given; none
when the key is held. -/
def createUpload (p : Placement) (key backendID : Key) : Except RouteError (Option (Leg × Key)) :=
  match routedBy hash p key with
  | .error e => .error e
  | .ok v =>
    match decideRoute hash v .write key with
    | .error e => .error e
    | .ok route =>
      let bucket := endpoint v route.cluster
      .ok (if route.held then none
        else some (bucket, encodeUploadID (uploadPrefix clusterID bucketTag v bucket) backendID))

def uploadTo (clusters : List String) (p : Placement) (key raw : Key) :
    Except UploadError (Leg × Key) :=
  match routedBy hash p key with
  | .error e => .error (.route e)
  | .ok v =>
    match decideRoute hash v .upload key with
    | .error e => .error (.route e)
    | .ok route =>
      match rewriteUploadIDs raw with
      | none => .error .noSuchUpload
      | some (query, pre) =>
        -- the request's URL is parsed again, and ends at a number sign
        if pre = [] then .ok (endpoint v route.cluster, (cut 35 query).1)
        else
          match uploadRole clusterID bucketTag v clusters pre with
          | none => .error .noSuchUpload
          | some role => .ok (bucketIn v role, (cut 35 query).1)

end

def sentIDs (raw : Key) : List Key := (raw.splitOn 38).filterMap uploadValue

def strip (id : Key) : Key :=
  match decodeUploadID id with
  | none => id
  | some (_, backendID) => backendID

def rewritten (part : Key) : Key :=
  match (uploadValue part).bind decodeUploadID with
  | none => part
  | some (_, backendID) => (cut 61 part).1 ++ 61 :: escape backendID

theorem uploadValue_rewritten (part : Key) :
    uploadValue (rewritten part) = (uploadValue part).map strip := by
  unfold rewritten
  cases carried : uploadValue part with
  | none => simpa using carried
  | some id =>
    cases taken : decodeUploadID id with
    | none => simpa [taken, strip] using carried
    | some =>
      simp only [bind_some, taken, map_some, strip]
      unfold uploadValue at carried ⊢
      rw [Library.cut_joined (Library.not_mem_cut 61 part)]
      cases name : unescape (cut 61 part).1 with
      | none => simp [name] at carried
      | some read =>
        simp only [name] at carried ⊢
        by_cases named : read = uploadIdName ∨ read = uploadIdMarkerName
        · rw [if_pos named, Library.unescape_escape]
        · rw [if_neg named] at carried
          cases carried

theorem not_mem_rewritten {c : UInt8} {part : Key} (other : c ≠ 61) (escaped : ∀ s, c ∉ escape s)
    (free : c ∉ part) : c ∉ rewritten part := by
  unfold rewritten
  split
  · exact free
  intro mem
  rcases mem_append.mp mem with name | value
  · exact free (Library.mem_of_mem_cut name)
  rcases mem_cons.mp value with same | isIn
  · exact other same
  · exact escaped _ isIn

def decodedIDs (parts : List Key) : List (Key × Key) :=
  parts.filterMap fun part => (uploadValue part).bind decodeUploadID

theorem decodedIDs_cons_none {part : Key} {rest : List Key}
    (plain : (uploadValue part).bind decodeUploadID = none) :
    decodedIDs (part :: rest) = decodedIDs rest := by simp [decodedIDs, plain]

theorem decodedIDs_cons_some {part : Key} {rest : List Key} {d : Key × Key}
    (taken : (uploadValue part).bind decodeUploadID = some d) :
    decodedIDs (part :: rest) = d :: decodedIDs rest := by simp [decodedIDs, taken]

theorem prefix_ne_nil {v : Key} {d : Key × Key} (taken : decodeUploadID v = some d) : d.1 ≠ [] := by
  unfold decodeUploadID at taken
  cases got : v.idxOf? 126 with
  | none => simp [got] at taken
  | some i =>
    simp only [got] at taken
    split at taken
    · rename_i shaped
      cases taken
      have isIn : i < v.length := (findIdx?_eq_some_iff_getElem.mp got).1
      have pos : 0 < i := by
        by_contra zero
        obtain rfl : i = 0 := by omega
        simp [prefixShaped, Migrate.idLen] at shaped
      intro empty
      have length := congrArg List.length empty
      simp only [length_take, length_nil] at length
      omega
    · cases taken

theorem rewriteParts_same {parts : List Key} {got pre : Key} (start : got = [] ∨ got = pre)
    (same : ∀ d ∈ decodedIDs parts, d.1 = pre) : rewriteParts parts got =
      some (parts.map rewritten, if decodedIDs parts = [] then got else pre) := by
  induction parts generalizing got with
  | nil => rfl
  | cons part rest ih =>
    unfold rewriteParts
    cases taken : (uploadValue part).bind decodeUploadID with
    | none =>
      rw [decodedIDs_cons_none taken] at same ⊢
      simp only [ih start same, map_some, map_cons, rewritten, taken]
    | some d =>
      rw [decodedIDs_cons_some taken] at same ⊢
      have here : d.1 = pre := same d mem_cons_self
      subst here
      have allowed : ¬ (got ≠ [] ∧ got ≠ d.1) := by
        rintro ⟨some_, other⟩
        exact start.elim some_ other
      have later := ih (.inr rfl) fun e mem => same e (mem_cons_of_mem _ mem)
      simp only [if_neg allowed, later, map_some, map_cons, rewritten, taken,
        ite_self, reduceCtorEq, if_false]

theorem rewriteParts_conflict {parts : List Key} {got : Key}
    (conflict : (got ≠ [] ∧ ∃ d ∈ decodedIDs parts, d.1 ≠ got) ∨
      ∃ d ∈ decodedIDs parts, ∃ e ∈ decodedIDs parts, d.1 ≠ e.1) :
    rewriteParts parts got = none := by
  induction parts generalizing got with
  | nil =>
    rcases conflict with ⟨-, d, mem, -⟩ | ⟨d, mem, -⟩ <;> cases mem
  | cons part rest ih =>
    unfold rewriteParts
    cases taken : (uploadValue part).bind decodeUploadID with
    | none =>
      rw [decodedIDs_cons_none taken] at conflict
      simp only [ih conflict, map_none]
    | some d =>
      rw [decodedIDs_cons_some taken] at conflict
      by_cases apart : got ≠ [] ∧ got ≠ d.1
      · simp only [if_pos apart]
      simp only [if_neg apart]
      have nonempty : d.1 ≠ [] := by
        obtain ⟨v, -, read⟩ := bind_eq_some_iff.mp taken
        exact prefix_ne_nil read
      -- the second prefix is among the rest, or it is not the one of the first pair
      have later : (∃ e ∈ decodedIDs rest, e.1 ≠ d.1) ∨
          ∃ e ∈ decodedIDs rest, ∃ g ∈ decodedIDs rest, e.1 ≠ g.1 := by
        rcases conflict with ⟨some_, e, mem, ne⟩ | ⟨e, inE, g, inG, ne⟩
        · have has : got = d.1 := by
            by_contra other
            exact apart ⟨some_, other⟩
          rcases mem_cons.mp mem with head | tail
          · exact absurd (head ▸ has.symm) ne
          · exact .inl ⟨e, tail, has ▸ ne⟩
        rcases mem_cons.mp inE with headE | tailE
        · rcases mem_cons.mp inG with headG | tailG
          · exact absurd (by rw [headE, headG]) ne
          · exact .inl ⟨g, tailG, fun eq => ne (by rw [headE, eq])⟩
        rcases mem_cons.mp inG with headG | tailG
        · exact .inl ⟨e, tailE, fun eq => ne (by rw [headG, eq])⟩
        · exact .inr ⟨e, tailE, g, tailG, ne⟩
      have fails := ih (later.imp (fun other => ⟨nonempty, other⟩) id)
      simp only [fails, map_none]

theorem decodedIDs_sent (raw : Key) :
    decodedIDs (raw.splitOn 38) = (sentIDs raw).filterMap decodeUploadID := by
  rw [decodedIDs, sentIDs, filterMap_filterMap]

theorem rewriteUploadIDs_same {raw pre : Key} (seen : pload <:+: raw)
    (same : ∀ d ∈ (sentIDs raw).filterMap decodeUploadID, d.1 = pre)
    (some_ : (sentIDs raw).filterMap decodeUploadID ≠ []) :
    ∃ query, rewriteUploadIDs raw = some (query, pre) ∧
      sentIDs query = (sentIDs raw).map strip ∧ (35 ∉ raw → 35 ∉ query) := by
  rw [← decodedIDs_sent] at same some_
  have named : pre ≠ [] := by
    obtain ⟨d, mem⟩ := exists_mem_of_ne_nil _ some_
    obtain ⟨part, -, taken⟩ := List.mem_filterMap.mp mem
    obtain ⟨v, -, read⟩ := bind_eq_some_iff.mp taken
    exact same d mem ▸ prefix_ne_nil read
  have parts := rewriteParts_same (.inl rfl) same
  refine ⟨[38].intercalate ((raw.splitOn 38).map rewritten), ?_, ?_, fun all => ?_⟩
  · unfold rewriteUploadIDs
    rw [if_neg (not_not.mpr seen), parts, if_neg some_]
    simp only [if_neg named]
  have free : ∀ part ∈ (raw.splitOn 38).map rewritten, 38 ∉ part := by
    rintro part mem
    obtain ⟨prev, among, rfl⟩ := List.mem_map.mp mem
    exact not_mem_rewritten (by decide) Library.ampersand_not_mem_escape
      (Library.not_mem_of_mem_splitOn among)
  have nonempty : (raw.splitOn 38).map rewritten ≠ [] := by
    simp [List.splitOn, splitOnP_ne_nil]
  · rw [sentIDs, splitOn_intercalate 38 free nonempty, filterMap_map, sentIDs, map_filterMap]
    exact filterMap_congr fun part _ => uploadValue_rewritten part
  rw [Library.mem_intercalate (by decide)]
  rintro ⟨part, mem, isIn⟩
  obtain ⟨prev, among, rfl⟩ := List.mem_map.mp mem
  refine not_mem_rewritten (by decide) Library.number_not_mem_escape (fun here => all ?_) isIn
  have joined : [38].intercalate (raw.splitOn 38) = raw := intercalate_splitOn 38
  rw [← joined, Library.mem_intercalate (by decide)]
  exact ⟨prev, among, here⟩

theorem rewriteUploadIDs_conflict {raw : Key} (seen : pload <:+: raw) {d e : Key × Key}
    (first : d ∈ (sentIDs raw).filterMap decodeUploadID)
    (second : e ∈ (sentIDs raw).filterMap decodeUploadID) (differ : d.1 ≠ e.1) :
    rewriteUploadIDs raw = none := by
  rw [← decodedIDs_sent] at first second
  unfold rewriteUploadIDs
  rw [if_neg (not_not.mpr seen), rewriteParts_conflict (.inr ⟨d, first, e, second, differ⟩)]

theorem rewriteUploadIDs_unseen {raw : Key} (unseen : ¬ pload <:+: raw) :
    rewriteUploadIDs raw = some (raw, []) := if_pos unseen

end Shunt.Proxy
