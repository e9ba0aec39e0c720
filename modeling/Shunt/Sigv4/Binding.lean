/-
What a signature binds.

A request is verified against the canonical form of its method, path, query, signed headers
and payload hash.  That binds what the proxy reads exactly when the query parses, has a pair
that is signed, gives no name two values, and the host is signed or does not matter.
-/

import Mathlib.Data.Fintype.EquivFin
import Shunt.Proxy.ForwardedKey
import Shunt.Sigv4.Canonical

namespace Shunt.Sigv4

open Directory List Option
open Library
open Proxy (Target parse trimSlash RequestInfo)

structure SignedRequest where
  method : Key
  target : Target
  query : Key
  host : Key
  -- the canonical value of a header by its lower-case name
  headers : Key → Key

/-- What the server lets through: a target it accepts, and no line break in any part. -/
structure SignedRequest.Sent (r : SignedRequest) : Prop where
  target : r.target.Accepted
  method : 10 ∉ r.method
  path : 10 ∉ r.target.path
  host : 10 ∉ r.host
  headers : ∀ name, 10 ∉ r.headers name

/-- A parsed Authorization header or presigned query, with the time of the signature. -/
structure Auth where
  credential : Key
  time : Key
  signedHeaders : List Key
  signature : Key
  presigned : Bool

def hostName : Key := [104, 111, 115, 116]

def contentSha256 : Key :=
  [120, 45, 97, 109, 122, 45, 99, 111, 110, 116, 101, 110, 116, 45, 115, 104, 97, 50, 53, 54]

def unsignedPayload : Key := [85, 78, 83, 73, 71, 78, 69, 68, 45, 80, 65, 89, 76, 79, 65, 68]

def algorithmName : Key := [88, 45, 65, 109, 122, 45, 65, 108, 103, 111, 114, 105, 116, 104, 109]

def signatureName : Key := [88, 45, 65, 109, 122, 45, 83, 105, 103, 110, 97, 116, 117, 114, 101]

def tokenName : Key :=
  [88, 45, 65, 109, 122, 45, 83, 101, 99, 117, 114, 105, 116, 121, 45, 84, 111, 107, 101, 110]

structure AuthNames where
  names : List Key
  algorithm : algorithmName ∈ names
  signature : signatureName ∈ names
  token : tokenName ∈ names

def SignedRequest.pairs (r : SignedRequest) : List Pair := (parseQuery r.query).getD []

def canonicalPairs (auth : Auth) (r : SignedRequest) : List Pair :=
  if auth.presigned then r.pairs.filter fun p => decide (p.1 ≠ signatureName) else r.pairs

def headerValue (r : SignedRequest) (name : Key) : Key :=
  if name = hostName then r.host else r.headers name

def headerLine (r : SignedRequest) (name : Key) : Key := name ++ 58 :: headerValue r name ++ [10]

def payloadHash (auth : Auth) (r : SignedRequest) : Key :=
  if auth.presigned then unsignedPayload else r.headers contentSha256

def canonicalRequest (auth : Auth) (r : SignedRequest) : Key :=
  r.method ++ 10 :: (r.target.rawPath ++ 10 :: (canonicalQuery (canonicalPairs auth r) ++
    10 :: (auth.signedHeaders.flatMap (headerLine r) ++
      10 :: ([59].intercalate auth.signedHeaders ++ 10 :: payloadHash auth r))))

/-- How requests are verified: what is read from the headers and from the authentication
parameters of a query, the checks of time, headers and payload, and the signature of a canonical
request, which no two canonical requests share. -/
structure Scheme where
  reserved : AuthNames
  headerAuth : Key → (Key → Key) → Option Auth
  presignedAuth : List Key → Option Auth
  checks : Auth → Key → (Key → Key) → Bool
  sign : Auth → Key → Key
  injective : ∀ auth, Function.Injective (sign auth)
  algorithm : ∀ get auth, presignedAuth (reserved.names.map get) = some auth →
    get algorithmName ≠ []

variable {scheme : Scheme} {hostBucket : Key → Key} {auth : Auth} {r r₂ : SignedRequest}

structure Verified (scheme : Scheme) (auth : Auth) (r : SignedRequest) : Prop where
  token : firstValue r.pairs tokenName = []
  read : if auth.presigned
    then scheme.presignedAuth (scheme.reserved.names.map (firstValue r.pairs)) = some auth
    else scheme.headerAuth r.method r.headers = some auth
  checks : scheme.checks auth r.method r.headers = true
  signature : scheme.sign auth (canonicalRequest auth r) = auth.signature

def readValue (r : SignedRequest) (name : Key) : Option Key :=
  ((readQuery r.query).find? fun p => decide (p.1 = name)).map Prod.snd

def pieceName (piece : Key) : Key := (unescape (cut 61 piece).1).getD (cut 61 piece).1

def stripPresign (names : List Key) (raw : Key) : Key :=
  [38].intercalate ((raw.splitOn 38).filter fun piece => !names.contains (pieceName piece))

/-- The query that goes to the backend, before upload ids are rewritten: the URL it is written
into ends its query at a number sign. -/
def forwardedQuery (scheme : Scheme) (auth : Auth) (r : SignedRequest) : Key :=
  (cut 35 (if auth.presigned then stripPresign scheme.reserved.names r.query else r.query)).1

def forwardedValue (scheme : Scheme) (auth : Auth) (r : SignedRequest) (name : Key) : Option Key :=
  readValue { r with query := forwardedQuery scheme auth r } name

structure SameRead (scheme : Scheme) (hostBucket : Key → Key) (auth : Auth)
    (r r₂ : SignedRequest) : Prop where
  method : r.method = r₂.method
  named : parse (hostBucket r.host) r.target = parse (hostBucket r₂.host) r₂.target
  query : ∀ name, name ∉ scheme.reserved.names → readValue r name = readValue r₂ name
  forwarded : ∀ name, name ∉ scheme.reserved.names →
    forwardedValue scheme auth r name = forwardedValue scheme auth r₂ name

def Bound (scheme : Scheme) (hostBucket : Key → Key) (auth : Auth) (r : SignedRequest) : Prop :=
  ∀ r₂ : SignedRequest, r₂.Sent → Verified scheme auth r₂ → SameRead scheme hostBucket auth r r₂

def HostBound (hostBucket : Key → Key) (auth : Auth) : Prop :=
  hostName ∈ auth.signedHeaders ∨ ∀ h h₂, 10 ∉ h → 10 ∉ h₂ → hostBucket h = hostBucket h₂

def QueryBound (scheme : Scheme) (auth : Auth) (r : SignedRequest) : Prop :=
  canonicalPairs auth r ≠ [] ∧ ∀ p ∈ r.pairs, ∀ q ∈ r.pairs, p.1 = q.1 →
    p.1 ∉ scheme.reserved.names → p.2 = q.2

/-- No signed pair has a number sign in its name or value. -/
def Unhashed (auth : Auth) (r : SignedRequest) : Prop :=
  ∀ p ∈ canonicalPairs auth r, 35 ∉ p.1 ∧ 35 ∉ p.2

theorem split_line {x y : Key} {first second : Key} (freeX : 10 ∉ x) (freeY : 10 ∉ y)
    (eq : x ++ 10 :: first = y ++ 10 :: second) : x = y ∧ first = second := by
  have cutX : cut 10 (x ++ 10 :: first) = (x, first) := cut_joined freeX
  rw [eq, cut_joined freeY] at cutX
  exact ⟨(Prod.mk.inj cutX).1.symm, (Prod.mk.inj cutX).2.symm⟩

theorem headerValue_line (sent : r.Sent) (name : Key) : 10 ∉ headerValue r name := by
  unfold headerValue
  split
  · exact sent.host
  · exact sent.headers name

theorem headerLines_split {names : List Key} {first second : Key} (sent : r.Sent) (sent₂ : r₂.Sent)
    (eq : names.flatMap (headerLine r) ++ first = names.flatMap (headerLine r₂) ++ second) :
    (∀ name ∈ names, headerValue r name = headerValue r₂ name) ∧ first = second := by
  induction names with
  | nil => exact ⟨nofun, eq⟩
  | cons name rest ih =>
    simp only [flatMap_cons, headerLine, append_assoc, cons_append, nil_append] at eq
    have values := append_cancel_left eq
    obtain ⟨value, later⟩ := split_line (headerValue_line sent name) (headerValue_line sent₂ name)
      (List.cons.inj values).2
    obtain ⟨others, last⟩ := ih later
    refine ⟨fun other mem => ?_, last⟩
    rcases mem_cons.mp mem with rfl | isIn
    · exact value
    · exact others other isIn

theorem rawPath_line (sent : r.Sent) : 10 ∉ r.target.rawPath := by
  have encoded (s : Key) : 10 ∉ pathEscape s := fun mem =>
    absurd (mem_pathEscape (by decide) mem).2 (by decide)
  have wrote : 10 ∉ escapedPath r.target.path := by
    unfold escapedPath
    split
    · exact sent.path
    · exact encoded _
  have parsed : 10 ∉ if r.target.path = [] then [47] else escapedPath r.target.path := by
    split
    · decide
    · exact wrote
  unfold Target.rawPath
  split
  · exact sent.path
  · exact parsed

theorem canonicalRequest_inj (sent : r.Sent) (sent₂ : r₂.Sent)
    (eq : canonicalRequest auth r = canonicalRequest auth r₂) :
    r.method = r₂.method ∧ r.target.rawPath = r₂.target.rawPath ∧
      (canonicalPairs auth r).Perm (canonicalPairs auth r₂) ∧
      ∀ name ∈ auth.signedHeaders, headerValue r name = headerValue r₂ name := by
  obtain ⟨method, more⟩ := split_line sent.method sent₂.method eq
  obtain ⟨path, more⟩ := split_line (rawPath_line sent) (rawPath_line sent₂) more
  obtain ⟨query, more⟩ := split_line (newline_not_mem_canonicalQuery _)
    (newline_not_mem_canonicalQuery _) more
  exact ⟨method, path, canonicalQuery_eq_iff.mp query, (headerLines_split sent sent₂ more).1⟩

theorem parse_rawPath {t t₂ : Target} (ok : t.Accepted) (accepted₂ : t₂.Accepted)
    (eq : t.rawPath = t₂.rawPath) (bucket : Key) : parse bucket t = parse bucket t₂ := by
  have texts : trimSlash (escapedPath t.path) = trimSlash (escapedPath t₂.path) := by
    obtain ⟨d, read, reading⟩ := Proxy.readings ok
    obtain ⟨d₂, read₂, reading₂⟩ := Proxy.readings accepted₂
    rw [← eq] at read₂ reading₂
    rcases reading with ⟨valid, text⟩ | ⟨invalid, text⟩
    · rcases reading₂ with ⟨_, text₂⟩ | ⟨invalid₂, _⟩
      · rw [text, text₂]
      · rw [valid] at invalid₂
        cases invalid₂
    rcases reading₂ with ⟨valid₂, _⟩ | ⟨_, text₂⟩
    · rw [valid₂] at invalid
      cases invalid
    · rw [read] at read₂
      rw [text, text₂, some.inj read₂]
  unfold parse
  rw [texts]

theorem find_perm {l l₂ : List Pair} {name : Key} (perm : l.Perm l₂)
    (single : ∀ p ∈ l, ∀ q ∈ l, p.1 = name → q.1 = name → p.2 = q.2) :
    (l.find? fun p => decide (p.1 = name)).map Prod.snd =
      (l₂.find? fun p => decide (p.1 = name)).map Prod.snd := by
  cases first : l.find? fun p => decide (p.1 = name) with
  | none =>
    have gone := find?_eq_none.mp first
    have gone₂ : l₂.find? (fun p => decide (p.1 = name)) = none :=
      find?_eq_none.mpr fun p mem => gone p (perm.mem_iff.mpr mem)
    rw [gone₂]
  | some p =>
    have isIn := mem_of_find?_eq_some first
    have named : p.1 = name := by simpa using find?_some first
    cases second : l₂.find? fun p => decide (p.1 = name) with
    | none =>
      have gone := find?_eq_none.mp second p (perm.mem_iff.mp isIn)
      simp [named] at gone
    | some q =>
      have isIn₂ := perm.mem_iff.mpr (mem_of_find?_eq_some second)
      have named₂ : q.1 = name := by simpa using find?_some second
      simp only [map_some, Option.some.injEq]
      exact single p isIn q isIn₂ named named₂

theorem find_canonicalPairs {name : Key} (other : name ≠ signatureName) :
    (canonicalPairs auth r).find? (fun p => decide (p.1 = name)) =
      r.pairs.find? fun p => decide (p.1 = name) := by
  unfold canonicalPairs
  split
  · rw [find?_filter]
    congr 1
    funext p
    by_cases named : p.1 = name
    · simp [named, other]
    · simp [named]
  · rfl

theorem parsed_of_present (there : canonicalPairs auth r ≠ []) :
    parseQuery r.query = some r.pairs := by
  cases parsed : parseQuery r.query with
  | none =>
    refine absurd ?_ there
    simp [canonicalPairs, SignedRequest.pairs, parsed]
  | some => rw [SignedRequest.pairs, parsed, getD_some]

theorem readValue_of_pairs (there : canonicalPairs auth r ≠ []) {name : Key}
    (other : name ≠ signatureName) : readValue r name =
      ((canonicalPairs auth r).find? fun p => decide (p.1 = name)).map Prod.snd := by
  rw [find_canonicalPairs other, readValue, readQuery_of_parse (parsed_of_present there)]

theorem queryPair_pieceName {piece : Key} {p : Pair} (read : queryPair piece = some p) :
    pieceName piece = p.1 := by
  unfold queryPair at read
  split at read
  · cases read
  split at read
  · rename_i name _
    cases read
    rw [pieceName, name, getD_some]
  · cases read

theorem queryPieces_stripPresign (names : List Key) (raw : Key) :
    queryPieces (stripPresign names raw) =
      (queryPieces raw).filter fun piece => !names.contains (pieceName piece) := by
  unfold queryPieces stripPresign
  rw [filter_comm]
  cases kept : (raw.splitOn 38).filter fun piece => !names.contains (pieceName piece) with
  | nil => rfl
  | cons piece rest =>
    have free : ∀ x ∈ piece :: rest, 38 ∉ x := fun x mem =>
      not_mem_of_mem_splitOn (mem_of_mem_filter (kept ▸ mem))
    rw [splitOn_intercalate 38 free (by simp)]

theorem readValue_stripPresign {names : List Key} {name : Key} (other : name ∉ names) :
    readValue { r with query := stripPresign names r.query } name = readValue r name := by
  unfold readValue readQuery
  simp only [queryPieces_stripPresign]
  congr 1
  induction queryPieces r.query with
  | nil => rfl
  | cons piece rest ih =>
    by_cases stays : pieceName piece ∈ names
    · rw [filter_cons_of_neg (by simpa using stays), ih, filterMap_cons]
      split
      · rfl
      · rename_i p read
        have differ : p.1 ≠ name := fun eq =>
          other (by rw [← eq, ← queryPair_pieceName read]; exact stays)
        rw [find?_cons_of_neg (by simpa using differ)]
    · rw [filter_cons_of_pos (by simpa using stays), filterMap_cons, filterMap_cons]
      split
      · exact ih
      · rw [find?_cons, find?_cons, ih]

theorem number_of_piece {piece : Key} (parsed : parseQuery r.query = some r.pairs)
    (mem : piece ∈ r.query.splitOn 38) (number : 35 ∈ piece) :
    ∃ p ∈ r.pairs, pieceName piece = p.1 ∧ (35 ∈ p.1 ∨ 35 ∈ p.2) := by
  have listed : piece ∈ queryPieces r.query := by
    refine mem_filter.mpr ⟨mem, decide_eq_true ?_⟩
    rintro rfl
    cases number
  obtain ⟨p, isIn, read⟩ := queryPair_of_parse parsed listed
  exact ⟨p, isIn, queryPair_pieceName read, number_mem_queryPair read number⟩

/-- Without a number sign in a signed pair, the query is forwarded whole. -/
theorem forwardedValue_of_unhashed (there : canonicalPairs auth r ≠ [])
    (plain : Unhashed auth r) {name : Key} (other : name ∉ scheme.reserved.names) :
    forwardedValue scheme auth r name = readValue r name := by
  have parsed := parsed_of_present there
  unfold Unhashed canonicalPairs at plain
  unfold forwardedValue forwardedQuery
  cases presigned : auth.presigned with
  | true =>
    simp only [presigned, if_true] at plain ⊢
    rw [cut_free, readValue_stripPresign other]
    intro mem
    obtain ⟨piece, isIn, number⟩ := (Library.mem_intercalate (by decide)).mp mem
    obtain ⟨split, kept⟩ := mem_filter.mp isIn
    obtain ⟨p, listed, named, hash⟩ := number_of_piece parsed split number
    -- the signature's own pair is not forwarded
    have unsigned : p.1 ≠ signatureName := fun eq => by
      simp [named, eq, scheme.reserved.signature] at kept
    have free := plain p (mem_filter.mpr ⟨listed, decide_eq_true unsigned⟩)
    exact hash.elim free.1 free.2
  | false =>
    simp only [presigned, Bool.false_eq_true, if_false] at plain ⊢
    rw [cut_free]
    intro mem
    have joined : [38].intercalate (r.query.splitOn 38) = r.query := intercalate_splitOn 38
    rw [← joined] at mem
    obtain ⟨piece, split, number⟩ := (Library.mem_intercalate (by decide)).mp mem
    obtain ⟨p, listed, _, hash⟩ := number_of_piece parsed split number
    exact hash.elim (plain p listed).1 (plain p listed).2

theorem mem_pairs_of_canonical {p : Pair} (mem : p ∈ canonicalPairs auth r) : p ∈ r.pairs := by
  unfold canonicalPairs at mem
  split at mem
  · exact List.mem_of_mem_filter mem
  · exact mem

theorem bound_of_signed (sent : r.Sent) (verified : Verified scheme auth r)
    (plain : Unhashed auth r) (host : HostBound hostBucket auth)
    (query : QueryBound scheme auth r) : Bound scheme hostBucket auth r := by
  intro r₂ sent₂ verified₂
  obtain ⟨method, path, perm, headers⟩ := canonicalRequest_inj sent sent₂
    (scheme.injective auth (verified.signature.trans verified₂.signature.symm))
  have buckets : hostBucket r.host = hostBucket r₂.host := by
    rcases host with signed | constant
    · have value := headers hostName signed
      simp only [headerValue, if_true] at value
      rw [value]
    · exact constant _ _ sent.host sent₂.host
  have there₂ : canonicalPairs auth r₂ ≠ [] := fun empty =>
    query.1 (by rw [empty] at perm; exact perm_nil.mp perm)
  have values (name : Key) (unreserved : name ∉ scheme.reserved.names) :
      readValue r name = readValue r₂ name := by
    have other : name ≠ signatureName := fun eq =>
      unreserved (eq ▸ scheme.reserved.signature)
    rw [readValue_of_pairs query.1 other, readValue_of_pairs there₂ other]
    refine find_perm perm fun p isIn q isIn₂ named named₂ => ?_
    exact query.2 p (mem_pairs_of_canonical isIn) q (mem_pairs_of_canonical isIn₂)
      (named.trans named₂.symm) (by rwa [named])
  refine ⟨method, ?_, values, fun name unreserved => ?_⟩
  · rw [buckets]
    exact parse_rawPath sent.target sent₂.target path _
  have plain₂ : Unhashed auth r₂ := fun p mem => plain p (perm.mem_iff.mpr mem)
  rw [forwardedValue_of_unhashed query.1 plain unreserved,
    forwardedValue_of_unhashed there₂ plain₂ unreserved, values name unreserved]

theorem parse_styles {bucket : Key} {t : Target} (named : bucket ≠ []) :
    parse [] t ≠ parse bucket t := by
  intro eq
  unfold parse at eq
  simp only [ne_eq, not_true_eq_false, if_false, named, not_false_eq_true, if_true] at eq
  split at eq
  · have styles := congrArg RequestInfo.virtualHost (some.inj eq)
    cases styles
  · cases eq

theorem parse_injective {bucket bucket₂ : Key} {t : Target}
    (eq : parse bucket t = parse bucket₂ t) : bucket = bucket₂ := by
  by_cases first : bucket = []
  · by_cases second : bucket₂ = []
    · rw [first, second]
    · rw [first] at eq
      exact absurd eq (parse_styles second)
  by_cases second : bucket₂ = []
  · rw [second] at eq
    exact absurd eq.symm (parse_styles first)
  unfold parse at eq
  simp only [ne_eq, first, second, not_false_eq_true, if_true] at eq
  exact congrArg RequestInfo.bucket (some.inj eq)

theorem host_of_bound (sent : r.Sent) (verified : Verified scheme auth r)
    (bound : Bound scheme hostBucket auth r) : HostBound hostBucket auth := by
  by_cases signed : hostName ∈ auth.signedHeaders
  · exact .inl signed
  refine .inr ?_
  have fixed (h : Key) (line : 10 ∉ h) : hostBucket r.host = hostBucket h := by
    have lines : auth.signedHeaders.flatMap (headerLine { r with host := h }) =
        auth.signedHeaders.flatMap (headerLine r) := by
      refine flatMap_congr fun name mem => ?_
      have other : name ≠ hostName := fun eq => signed (eq ▸ mem)
      simp [headerLine, headerValue, other]
    have eq : canonicalRequest auth { r with host := h } = canonicalRequest auth r := by
      unfold canonicalRequest
      rw [lines]
      rfl
    have read := bound { r with host := h } ⟨sent.target, sent.method, sent.path, line,
      sent.headers⟩ ⟨verified.token, verified.read, verified.checks,
        by rw [eq]; exact verified.signature⟩
    exact parse_injective read.named
  intro h h₂ line line₂
  rw [← fixed h line, fixed h₂ line₂]

def strayQuery (length : Nat) : Key := List.replicate length 120 ++ [61, 38, 37]

theorem strayQuery_pieces (length : Nat) :
    queryPieces (strayQuery length) = [List.replicate length 120 ++ [61], [37]] := by
  have joined : strayQuery length =
      [38].intercalate [List.replicate length 120 ++ [61], [37]] := by
    simp [strayQuery, intercalate_cons_cons]
  have free : ∀ piece ∈ [List.replicate length (120 : UInt8) ++ [61], [37]], 38 ∉ piece := by
    simp
  rw [queryPieces, joined, splitOn_intercalate 38 free (by simp)]
  simp

theorem unescape_letters (length : Nat) :
    unescape (List.replicate length 120) = some (List.replicate length 120) := by
  induction length with
  | zero => rfl
  | succ n ih =>
    rw [replicate_succ, unescape_plain (by decide), ih]
    rfl

theorem strayQuery_pair (length : Nat) :
    queryPair (List.replicate length 120 ++ [61]) = some (List.replicate length 120, []) := by
  have free : (61 : UInt8) ∉ List.replicate length 120 := by simp
  rw [queryPair, if_neg (by simp), cut_joined free, unescape_letters]
  rfl

theorem strayQuery_parse (length : Nat) : parseQuery (strayQuery length) = none := by
  have broken : queryPair [37] = none := by decide
  simp [parseQuery, strayQuery_pieces, strayQuery_pair, broken]

theorem strayQuery_read (length : Nat) :
    readQuery (strayQuery length) = [(List.replicate length 120, [])] := by
  have broken : queryPair [37] = none := by decide
  simp [readQuery, strayQuery_pieces, strayQuery_pair, broken]

theorem fresh_name (names : List Key) : ∃ length, List.replicate length 120 ∉ names := by
  obtain ⟨length, fresh⟩ := Infinite.exists_notMem_finset (names.map List.length).toFinset
  refine ⟨length, fun mem => fresh ?_⟩
  rw [List.mem_toFinset, List.mem_map]
  exact ⟨_, mem, length_replicate⟩

theorem signed_of_bound (sent : r.Sent) (verified : Verified scheme auth r)
    (bound : Bound scheme hostBucket auth r) : canonicalPairs auth r ≠ [] := by
  intro empty
  have header : auth.presigned = false := by
    cases presigned : auth.presigned with
    | false => rfl
    | true =>
      -- a presigned request carries and signs its algorithm
      have read := verified.read
      rw [if_pos presigned] at read
      have named := scheme.algorithm _ _ read
      have other : algorithmName ≠ signatureName := by decide
      have got := @find_canonicalPairs auth r algorithmName other
      rw [empty] at got
      rw [firstValue, ← got] at named
      exact absurd rfl named
  obtain ⟨length, fresh⟩ := fresh_name (scheme.reserved.names ++ (readQuery r.query).map Prod.fst)
  rw [mem_append, not_or] at fresh
  have pairs : ({ r with query := strayQuery length } : SignedRequest).pairs = [] := by
    simp [SignedRequest.pairs, strayQuery_parse]
  have eq : canonicalRequest auth { r with query := strayQuery length } =
      canonicalRequest auth r := by
    have blank : canonicalPairs auth { r with query := strayQuery length } = [] := by
      simp [canonicalPairs, pairs]
    unfold canonicalRequest
    rw [blank, empty]
    rfl
  have read := bound { r with query := strayQuery length }
    ⟨sent.target, sent.method, sent.path, sent.host, sent.headers⟩
    ⟨by rw [pairs]; rfl,
      by
        have given := verified.read
        rw [header] at given ⊢
        exact given,
      verified.checks, by rw [eq]; exact verified.signature⟩
  have values := read.query (List.replicate length 120) fresh.1
  have gone : (readQuery r.query).find?
      (fun p => decide (p.1 = List.replicate length 120)) = none := by
    refine find?_eq_none.mpr fun p mem => ?_
    simp only [decide_eq_true_eq]
    intro named
    exact fresh.2 (List.mem_map.mpr ⟨p, mem, named⟩)
  rw [readValue, gone, readValue, strayQuery_read] at values
  simp at values

theorem find_erase {pairs : List Pair} {x : Pair} {name : Key} (other : x.1 ≠ name) :
    (pairs.erase x).find? (fun p => decide (p.1 = name)) =
      pairs.find? fun p => decide (p.1 = name) := by
  induction pairs with
  | nil => rfl
  | cons p rest ih =>
    by_cases eq : p = x
    · subst eq
      rw [erase_cons_head, find?_cons_of_neg (by simpa using other)]
    · rw [erase_cons_tail (by simpa using eq), find?_cons, find?_cons, ih]

theorem single_of_bound (sent : r.Sent) (verified : Verified scheme auth r)
    (bound : Bound scheme hostBucket auth r) :
    ∀ p ∈ r.pairs, ∀ q ∈ r.pairs, p.1 = q.1 → p.1 ∉ scheme.reserved.names → p.2 = q.2 := by
  intro p mem q member₂ named unreserved
  by_contra differ
  have parsed : parseQuery r.query = some r.pairs := by
    cases parse : parseQuery r.query with
    | none =>
      rw [SignedRequest.pairs, parse] at mem
      cases mem
    | some pairs => rw [SignedRequest.pairs, parse, getD_some]
  -- one of the two values is not the one that is read
  obtain ⟨x, isIn, called, unread⟩ : ∃ x ∈ r.pairs, x.1 = p.1 ∧
      readValue r p.1 ≠ some x.2 := by
    by_cases first : readValue r p.1 = some p.2
    · refine ⟨q, member₂, named.symm, fun second => differ ?_⟩
      exact some.inj (first.symm.trans second)
    · exact ⟨p, mem, rfl, first⟩
  let moved : SignedRequest := { r with query := joinPairs (x :: r.pairs.erase x) }
  have parsedMoved : parseQuery moved.query = some (x :: r.pairs.erase x) := parseQuery_joinPairs _
  have pairs : moved.pairs = x :: r.pairs.erase x := by
    rw [SignedRequest.pairs, parsedMoved, getD_some]
  have perm : moved.pairs.Perm r.pairs := by
    rw [pairs]
    exact (perm_cons_erase isIn).symm
  have canonical : (canonicalPairs auth moved).Perm (canonicalPairs auth r) := by
    unfold canonicalPairs
    split
    · exact perm.filter _
    · exact perm
  have eq : canonicalRequest auth moved = canonicalRequest auth r := by
    unfold canonicalRequest
    rw [canonicalQuery_eq_iff.mpr canonical]
    rfl
  have values (name : Key) (reserved : name ∈ scheme.reserved.names) :
      firstValue moved.pairs name = firstValue r.pairs name := by
    have other : x.1 ≠ name := fun equal => unreserved (by rw [← called, equal]; exact reserved)
    rw [firstValue, pairs, find?_cons_of_neg (by simpa using other), find_erase other, ← firstValue]
  have listed : scheme.reserved.names.map (firstValue moved.pairs) =
      scheme.reserved.names.map (firstValue r.pairs) :=
    map_congr_left values
  have read := bound moved ⟨sent.target, sent.method, sent.path, sent.host, sent.headers⟩
    ⟨by rw [values _ scheme.reserved.token]; exact verified.token,
      by rw [listed]; exact verified.read, verified.checks,
      by rw [eq]; exact verified.signature⟩
  have value := read.query p.1 unreserved
  have here : readValue moved p.1 = some x.2 := by
    rw [readValue, readQuery_of_parse parsedMoved, find?_cons_of_pos (by simpa using called)]
    rfl
  exact unread (value.trans here)

/-- The signature of an accepted request binds its method, bucket, key and query parameters, as
they are read and as they are forwarded, exactly when its host is signed or names no bucket, some
pair of its query is signed, and no name of its query has two values. -/
theorem signature_binds_iff (hostBucket : Key → Key) (sent : r.Sent)
    (verified : Verified scheme auth r) (plain : Unhashed auth r) :
    Bound scheme hostBucket auth r ↔ HostBound hostBucket auth ∧ QueryBound scheme auth r :=
  ⟨fun bound => ⟨host_of_bound sent verified bound, signed_of_bound sent verified bound,
      single_of_bound sent verified bound⟩,
    fun conditions => bound_of_signed sent verified plain conditions.1 conditions.2⟩

/-- A scheme whose signature is the canonical request in an encoding, sent in a header `a`. -/
def plainScheme : Scheme where
  reserved := ⟨[algorithmName, signatureName, tokenName], by decide, by decide, by decide⟩
  headerAuth _ headers := some ⟨[], [], [hostName], headers [97], false⟩
  presignedAuth _ := none
  checks _ _ _ := true
  sign _ canonical := escape canonical
  injective _ c c₂ eq := by
    have read := congrArg unescape eq
    rwa [unescape_escape, unescape_escape, Option.some.injEq] at read
  algorithm _ _ read := by cases read

def plainRequest (query signature : Key) : SignedRequest :=
  { method := [71], target := { form := .origin, path := [47, 120] }, query := query
    host := [104], headers := fun name => if name = [97] then signature else [] }

def plainAuth (query : Key) : Auth :=
  ⟨[], [], [hostName],
    escape (canonicalRequest ⟨[], [], [hostName], [], false⟩ (plainRequest query [])), false⟩

theorem plainRequest_sent (query signed : Key) :
    (plainRequest query (plainAuth signed).signature).Sent := by
  have path : pathUnescape [47, 120] = some [47, 120] := by decide
  have method : (10 : UInt8) ∉ [(71 : UInt8)] := by decide
  have escaped : (10 : UInt8) ∉ [(47 : UInt8), 120] := by decide
  have host : (10 : UInt8) ∉ [(104 : UInt8)] := by decide
  refine ⟨⟨⟨_, path⟩, fun _ => ⟨_, rfl⟩, nofun, nofun, nofun⟩, method, escaped, host,
    fun name => ?_⟩
  show 10 ∉ if name = [97] then (plainAuth signed).signature else []
  split
  · exact newline_not_mem_escape _
  · simp

theorem plainRequest_verified {query signed : Key}
    (token : firstValue ((parseQuery query).getD []) tokenName = [])
    (pairs : (parseQuery query).getD [] = (parseQuery signed).getD []) :
    Verified plainScheme (plainAuth signed) (plainRequest query (plainAuth signed).signature) := by
  refine ⟨token, rfl, rfl, ?_⟩
  have canonical : canonicalPairs (plainAuth signed)
      (plainRequest query (plainAuth signed).signature) =
      canonicalPairs ⟨[], [], [hostName], [], false⟩ (plainRequest signed []) := pairs
  show escape (canonicalRequest _ _) = escape (canonicalRequest _ _)
  refine congrArg escape ?_
  unfold canonicalRequest
  rw [canonical]
  rfl

theorem plainRequest_bound : (plainRequest [98, 61, 99] (plainAuth [98, 61, 99]).signature).Sent ∧
      Bound plainScheme (fun _ => []) (plainAuth [98, 61, 99])
        (plainRequest [98, 61, 99] (plainAuth [98, 61, 99]).signature) := by
  refine ⟨plainRequest_sent _ _, (signature_binds_iff (fun _ => []) (plainRequest_sent _ _)
    (plainRequest_verified (by decide) (by decide)) (by unfold Unhashed; decide)).mpr
      ⟨.inr fun _ _ _ _ => rfl, ?_, ?_⟩⟩
  · decide
  · decide

/-- The data of a request without a query is accepted with the query `acl&%` too, and that
request is read as one for the parameter `acl`. -/
theorem stray_query_accepted :
    Verified plainScheme (plainAuth []) (plainRequest [] (plainAuth []).signature) ∧
      Verified plainScheme (plainAuth [])
        (plainRequest [97, 99, 108, 38, 37] (plainAuth []).signature) ∧
      readValue (plainRequest [] (plainAuth []).signature) [97, 99, 108] = none ∧
      readValue (plainRequest [97, 99, 108, 38, 37] (plainAuth []).signature) [97, 99, 108] =
        some [] :=
  ⟨plainRequest_verified (by decide) (by decide), plainRequest_verified (by decide) (by decide),
    by decide, by decide⟩

end Shunt.Sigv4
