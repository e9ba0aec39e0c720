/-
The key a request is routed by and the key it is forwarded with.
-/

import Shunt.Library.PathText
import Shunt.Proxy.Entries

namespace Shunt.Proxy

open Directory List Option
open Library

inductive TargetForm where
  | origin
  | absolute
  | asterisk
  | authority
  deriving DecidableEq

/-- A request target: its form, and its path up to the question mark. -/
structure Target where
  form : TargetForm
  path : Key

structure Target.Accepted (t : Target) : Prop where
  decodes : ∃ d, pathUnescape t.path = some d
  origin : t.form = .origin → ∃ rest, t.path = 47 :: rest
  absolute : t.form = .absolute → t.path = [] ∨ ∃ rest, t.path = 47 :: rest
  asterisk : t.form = .asterisk → t.path = [42]
  authority : t.form = .authority → t.path = []

def trimSlash : Key → Key
  | [] => []
  | c :: rest => if c = 47 then rest else c :: rest

def unescapeKey (s : Key) : Key := (pathUnescape s).getD s

structure RequestInfo where
  virtualHost : Bool
  bucket : Key
  key : Key
  deriving DecidableEq

def parse (hostBucket : Key) (t : Target) : Option RequestInfo :=
  let rest := trimSlash (escapedPath t.path)
  if hostBucket ≠ [] then
    some { virtualHost := true, bucket := hostBucket, key := unescapeKey rest }
  else if (cut 47 rest).1 ≠ [] then
    some { virtualHost := false, bucket := (cut 47 rest).1, key := unescapeKey (cut 47 rest).2 }
  else none

def Target.rawPath (t : Target) : Key :=
  match t.form with
  | .origin => t.path
  | _ => if t.path = [] then [47] else escapedPath t.path

def upstreamPath (t : Target) (virtualHost : Bool) (backend : Key) : Key :=
  if virtualHost then 47 :: backend ++ t.rawPath
  else 47 :: backend ++ (trimSlash t.rawPath).dropWhile (· ≠ 47)

def rawKeyOf (t : Target) (virtualHost : Bool) : Key :=
  if virtualHost then trimSlash t.rawPath else (cut 47 (trimSlash t.rawPath)).2

def copyTarget (backend rawKey : Key) : Key :=
  47 :: backend ++ if rawKey = [] then [] else 47 :: rawKey

def sent (target : Key) : Key × Key :=
  let (bucket, key) := cut 47 (trimSlash (escapedPath (cut 35 target).1))
  (bucket, unescapeKey key)

def Target.segment (t : Target) : Key := (cut 47 (trimSlash t.rawPath)).1

structure Forwarded (t : Target) (backend : Key) (info : RequestInfo) : Prop where
  segment : info.virtualHost = false → unescapeKey info.bucket = unescapeKey t.segment
  relayed : sent (upstreamPath t info.virtualHost backend) = (backend, info.key)
  copied : sent (copyTarget backend (rawKeyOf t info.virtualHost)) = (backend, info.key)

/-- A backend bucket name: letters, digits and marks that no path encodes. -/
def PlainName (backend : Key) : Prop := ∀ c ∈ backend, unreserved c = true

structure Target.Unambiguous (t : Target) (virtualHost : Bool) : Prop where
  fragment : 35 ∉ rawKeyOf t virtualHost
  slash : virtualHost = false → validEncoded t.rawPath = true ∨ 47 ∉ unescapeKey t.segment
  asterisk : virtualHost = true → t.form ≠ .asterisk

theorem unreserved_kept {c : UInt8} (kept : unreserved c) : pathKept c = true := by
  simp [pathKept, kept]

theorem PlainName.not_mem {backend : Key} (plain : PlainName backend) {c : UInt8}
    (reserved : unreserved c = false) : c ∉ backend := by
  intro mem
  rw [plain c mem] at reserved
  cases reserved

theorem number_plain : Plain 35 := ⟨by decide, by decide⟩

theorem slash_plain : Plain 47 := ⟨by decide, by decide⟩

variable {backend : Key} {t : Target} {info : RequestInfo}

theorem sent_joined (plain : PlainName backend) {tail key : Key} (free : 35 ∉ tail)
    (read : pathUnescape tail = some key) :
    sent (47 :: backend ++ 47 :: tail) = (backend, key) := by
  have all : 35 ∉ 47 :: backend ++ 47 :: tail := by
    simp [free, plain.not_mem (by decide : unreserved 35 = false)]
  have slashless : 47 ∉ backend := plain.not_mem (by decide)
  have percentless : 37 ∉ 47 :: backend ++ [47] := by
    simp [plain.not_mem (by decide : unreserved 37 = false)]
  have decoded : pathUnescape (47 :: backend ++ 47 :: tail) =
      some (47 :: backend ++ 47 :: key) := by
    have split := pathUnescape_append percentless tail
    simpa [read] using split
  rw [sent, cut_free all]
  by_cases valid : validEncoded (47 :: backend ++ 47 :: tail)
  · rw [escapedPath_valid valid]
    simp [trimSlash, cut_joined slashless, unescapeKey, read]
  have name : pathEscape (47 :: backend) = 47 :: backend := by
    refine pathEscape_kept fun c mem => ?_
    rcases mem_cons.mp mem with rfl | isIn
    · decide
    · exact unreserved_kept (plain c isIn)
  rw [escapedPath_invalid (by simpa using valid) decoded, pathEscape_append, name]
  have slash : pathEscape (47 :: key) = 47 :: pathEscape key := rfl
  rw [slash]
  simp [trimSlash, cut_joined slashless, unescapeKey, pathUnescape_pathEscape]

theorem sent_bucket (plain : PlainName backend) : sent (47 :: backend) = (backend, []) := by
  have kept : validEncoded (47 :: backend) := by
    rw [validEncoded, List.all_eq_true]
    intro c mem
    rcases mem_cons.mp mem with rfl | isIn
    · decide
    · simp [unreserved_kept (plain c isIn)]
  have all : 35 ∉ 47 :: backend := by
    simp [plain.not_mem (by decide : unreserved 35 = false)]
  have slashless : 47 ∉ backend := plain.not_mem (by decide)
  rw [sent, cut_free all, escapedPath_valid kept]
  simp [trimSlash, cut_free slashless, unescapeKey, pathUnescape]

theorem sent_fragment (plain : PlainName backend) {tail key : Key} (number : 35 ∈ tail)
    (read : pathUnescape tail = some key) :
    sent (47 :: backend ++ 47 :: tail) ≠ (backend, key) := by
  have split := eq_cut number
  rw [split, pathUnescape_plain number_plain] at read
  cases first : pathUnescape (cut 35 tail).1 with
  | none =>
    rw [first] at read
    cases read
  | some x =>
    cases second : pathUnescape (cut 35 tail).2 with
    | none =>
      rw [first, second] at read
      cases read
    | some y =>
      rw [first, second] at read
      have shape : key = x ++ 35 :: y := (some.inj read).symm
      have free : 35 ∉ 47 :: backend ++ 47 :: (cut 35 tail).1 := by
        simp [not_mem_cut, plain.not_mem (by decide : unreserved 35 = false)]
      have stops : sent (47 :: backend ++ 47 :: tail) =
          sent (47 :: backend ++ 47 :: (cut 35 tail).1) := by
        have prev : cut 35 (47 :: backend ++ 47 :: tail) =
            (47 :: backend ++ 47 :: (cut 35 tail).1, (cut 35 tail).2) := by
          conv_lhs => rw [split]
          have joined : cut 35 ((47 :: backend ++ 47 :: (cut 35 tail).1) ++
              35 :: (cut 35 tail).2) = _ := cut_joined free
          simpa using joined
        rw [sent, prev, sent, cut_free free]
      rw [stops, sent_joined plain (not_mem_cut 35 tail) first, shape]
      intro eq
      have lengths := congrArg (fun r : Key × Key => r.2.length) eq
      simp at lengths

theorem readings (ok : t.Accepted) : ∃ d, pathUnescape (trimSlash t.rawPath) = some d ∧
      (validEncoded t.rawPath ∧ trimSlash (escapedPath t.path) = trimSlash t.rawPath ∨
        validEncoded t.rawPath = false ∧ trimSlash (escapedPath t.path) = pathEscape d) := by
  obtain ⟨d, read⟩ := ok.decodes
  -- other forms are written from the parsed URL in both places
  have parsed (other : t.form ≠ .origin) :
      t.rawPath = if t.path = [] then [47] else escapedPath t.path := by
    cases form : t.form with
    | origin => exact absurd form other
    | absolute | asterisk | authority => simp [Target.rawPath, form]
  by_cases origin : t.form = .origin
  · obtain ⟨rest, path⟩ := ok.origin origin
    have raw : t.rawPath = 47 :: rest := by rw [Target.rawPath, origin, path]
    rw [path, pathUnescape_other (by decide)] at read
    obtain ⟨inner, decoded, rfl⟩ := map_eq_some_iff.mp read
    refine ⟨inner, by simpa [raw, trimSlash] using decoded, ?_⟩
    cases valid : validEncoded t.rawPath with
    | true => exact .inl ⟨rfl, by rw [path, ← raw, escapedPath_valid valid]⟩
    | false =>
      refine .inr ⟨rfl, ?_⟩
      rw [raw] at valid
      rw [path, escapedPath_invalid valid (by rw [pathUnescape_other (by decide), decoded]; rfl)]
      rfl
  · rw [parsed origin]
    by_cases empty : t.path = []
    · rw [if_pos empty, empty]
      exact ⟨[], rfl, .inl ⟨by decide, rfl⟩⟩
    rw [if_neg empty]
    have all := pathUnescape_escapedPath read
    have valid := validEncoded_escapedPath t.path
    cases text : escapedPath t.path with
    | nil => exact ⟨[], rfl, .inl ⟨by rw [← text]; exact valid, rfl⟩⟩
    | cons c =>
      rw [text] at all valid
      by_cases slash : c = 47
      · subst slash
        rw [pathUnescape_other (by decide)] at all
        obtain ⟨inner, decoded, rfl⟩ := map_eq_some_iff.mp all
        exact ⟨inner, by simpa [trimSlash] using decoded, .inl ⟨valid, rfl⟩⟩
      · exact ⟨d, by simpa [trimSlash, slash] using all, .inl ⟨valid, rfl⟩⟩

theorem decoded_cut {rest d : Key} (read : pathUnescape rest = some d) :
    ∃ seg tail, pathUnescape (cut 47 rest).1 = some seg ∧ pathUnescape (cut 47 rest).2 = some tail ∧
      (47 ∈ rest ∧ d = seg ++ 47 :: tail ∨ 47 ∉ rest ∧ d = seg ∧ tail = []) := by
  by_cases mem : 47 ∈ rest
  · have split := eq_cut mem
    conv at read => lhs; rw [split, pathUnescape_plain slash_plain]
    obtain ⟨seg, first, others⟩ := bind_eq_some_iff.mp read
    obtain ⟨tail, second, shape⟩ := map_eq_some_iff.mp others
    exact ⟨seg, tail, first, second, .inl ⟨mem, shape.symm⟩⟩
  · rw [cut_free mem]
    exact ⟨d, [], read, rfl, .inr ⟨mem, rfl, rfl⟩⟩

theorem dropWhile_slash {rest : Key} :
    rest.dropWhile (· ≠ 47) = if 47 ∈ rest then 47 :: (cut 47 rest).2 else [] := by
  by_cases mem : 47 ∈ rest
  · have split := eq_cut mem
    have free := not_mem_cut 47 rest
    have other : ∀ c ∈ (cut 47 rest).1, decide (c ≠ 47) := by
      intro c isIn
      exact decide_eq_true fun eq => free (eq ▸ isIn)
    rw [if_pos mem]
    conv_lhs => rw [split, dropWhile_append_of_pos other]
    simp
  have all : rest.takeWhile (· ≠ 47) = rest := congrArg Prod.fst (cut_free mem)
  have parts := @takeWhile_append_dropWhile _ (fun c : UInt8 => decide (c ≠ 47)) rest
  rw [all] at parts
  rw [if_neg mem]
  exact append_right_eq_self.mp parts

theorem sent_copyTarget (plain : PlainName backend) {rawKey key : Key}
    (read : pathUnescape rawKey = some key) (free : 35 ∉ rawKey) :
    sent (copyTarget backend rawKey) = (backend, key) := by
  unfold copyTarget
  by_cases empty : rawKey = []
  · rw [if_pos empty, append_nil, sent_bucket plain]
    rw [empty] at read
    rw [← some.inj read]
  · rw [if_neg empty]
    exact sent_joined plain free read

theorem copied_fragment (plain : PlainName backend) {rawKey key : Key}
    (number : 35 ∈ rawKey) (read : pathUnescape rawKey = some key) :
    sent (copyTarget backend rawKey) ≠ (backend, key) := by
  have there : rawKey ≠ [] := by
    rintro rfl
    cases number
  rw [copyTarget, if_neg there]
  exact sent_fragment plain number read

theorem sent_tail (plain : PlainName backend) {rest tail : Key}
    (read : pathUnescape (cut 47 rest).2 = some tail) (free : 35 ∉ (cut 47 rest).2) :
    sent (47 :: backend ++ rest.dropWhile (· ≠ 47)) = (backend, tail) ∧
      sent (copyTarget backend (cut 47 rest).2) = (backend, tail) := by
  constructor
  · rw [dropWhile_slash]
    by_cases mem : 47 ∈ rest
    · rw [if_pos mem]
      exact sent_joined plain free read
    rw [if_neg mem, append_nil, sent_bucket plain]
    rw [cut_free mem] at read
    rw [← some.inj read]
  · exact sent_copyTarget plain read free

theorem forwarded_path_style (plain : PlainName backend) (ok : t.Accepted)
    (routed : parse [] t = some info) : Forwarded t backend info ↔ t.Unambiguous false := by
  obtain ⟨d, read, reading⟩ := readings ok
  obtain ⟨seg, tail, first, second, shape⟩ := decoded_cut read
  simp only [parse, ne_eq, not_true_eq_false, if_false] at routed
  split at routed
  case isFalse => cases routed
  have named := (some.inj routed).symm
  have style : info.virtualHost = false := by rw [named]
  have segment : unescapeKey t.segment = seg := by rw [Target.segment, unescapeKey, first]; rfl
  have rawKey : rawKeyOf t false = (cut 47 (trimSlash t.rawPath)).2 := by simp [rawKeyOf]
  have upstream : upstreamPath t false backend =
      47 :: backend ++ (trimSlash t.rawPath).dropWhile (· ≠ 47) := by simp [upstreamPath]
  -- what the request was routed by, when its bucket segment hides no slash
  have alike (free : validEncoded t.rawPath ∨ 47 ∉ seg) :
      unescapeKey info.bucket = seg ∧ info.key = tail := by
    rcases reading with ⟨_, eq⟩ | ⟨invalid, anew⟩
    · rw [named, eq]
      simp only [unescapeKey, first, second, getD_some, and_self]
    have hidden : 47 ∉ seg := free.resolve_left (by simp [invalid])
    have split : cut 47 d = (seg, tail) := by
      rcases shape with ⟨_, joined⟩ | ⟨_, all, none⟩
      · rw [joined, cut_joined hidden]
      · rw [all, none, cut_free hidden]
    rw [named, anew, cut_pathEscape, split]
    simp only [unescapeKey, pathUnescape_pathEscape, getD_some, and_self]
  constructor
  · intro forwarded
    have slash : validEncoded t.rawPath ∨ 47 ∉ seg := by
      rcases reading with ⟨valid, _⟩ | ⟨invalid, anew⟩
      · exact .inl valid
      -- encoded anew, the segment ends at its first slash
      refine .inr ?_
      have routedBy := forwarded.segment style
      rw [segment, named, anew, cut_pathEscape] at routedBy
      simp only [unescapeKey, pathUnescape_pathEscape, getD_some] at routedBy
      rw [← routedBy]
      exact not_mem_cut 47 d
    refine ⟨?_, fun _ => by rwa [segment], by simp⟩
    intro number
    have copied := forwarded.copied
    rw [style, (alike slash).2] at copied
    rw [rawKey] at number copied
    exact copied_fragment plain number second copied
  · rintro ⟨fragment, slash, _⟩
    have free := slash rfl
    rw [segment] at free
    rw [rawKey] at fragment
    obtain ⟨bucket, key⟩ := alike free
    obtain ⟨relayed, copied⟩ := sent_tail plain second fragment
    refine ⟨fun _ => by rw [bucket, segment], ?_, ?_⟩
    · rw [style, key, upstream, relayed]
    · rw [style, key, rawKey, copied]

theorem rawPath_slash (ok : t.Accepted) (form : t.form ≠ .asterisk) :
    t.rawPath = 47 :: trimSlash t.rawPath := by
  have rooted (rest : Key) (path : t.path = 47 :: rest) :
      escapedPath t.path = 47 :: trimSlash (escapedPath t.path) := by
    obtain ⟨d, read⟩ := ok.decodes
    by_cases valid : validEncoded t.path
    · rw [escapedPath_valid valid, path]
      rfl
    rw [escapedPath_invalid (by simpa using valid) read]
    rw [path, pathUnescape_other (by decide)] at read
    obtain ⟨inner, _, rfl⟩ := map_eq_some_iff.mp read
    rfl
  cases kind : t.form with
  | origin =>
    obtain ⟨rest, path⟩ := ok.origin kind
    simp [Target.rawPath, kind, path, trimSlash]
  | absolute =>
    rcases ok.absolute kind with empty | ⟨rest, path⟩
    · simp [Target.rawPath, kind, empty, trimSlash]
    have text := rooted rest path
    have there : t.path ≠ [] := by simp [path]
    simp only [Target.rawPath, kind, if_neg there]
    exact text
  | asterisk => exact absurd kind form
  | authority => simp [Target.rawPath, kind, ok.authority kind, trimSlash]

theorem forwarded_virtual_host (plain : PlainName backend) (ok : t.Accepted)
    {hostBucket : Key} (host : hostBucket ≠ []) (routed : parse hostBucket t = some info) :
    Forwarded t backend info ↔ t.Unambiguous true := by
  obtain ⟨d, read, reading⟩ := readings ok
  simp only [parse, if_pos host] at routed
  have named := (some.inj routed).symm
  have style : info.virtualHost := by rw [named]
  have rawKey : rawKeyOf t true = trimSlash t.rawPath := by simp [rawKeyOf]
  have key : info.key = d := by
    rw [named]
    rcases reading with ⟨_, eq⟩ | ⟨_, anew⟩
    · simp only [eq, unescapeKey, read, getD_some]
    · simp only [anew, unescapeKey, pathUnescape_pathEscape, getD_some]
  constructor
  · intro forwarded
    refine ⟨?_, by simp, ?_⟩
    · intro number
      have copied := forwarded.copied
      rw [style, key, rawKey] at copied
      rw [rawKey] at number
      exact copied_fragment plain number read copied
    -- an asterisk would become part of the bucket's name
    intro _ form
    have relayed := forwarded.relayed
    have raw : t.rawPath = [42] := by
      rw [Target.rawPath, form, ok.asterisk form]
      rfl
    have valid : validEncoded (47 :: backend ++ [42]) := by
      rw [validEncoded, List.all_eq_true]
      intro c mem
      simp only [cons_append, mem_cons, mem_append, not_mem_nil, or_false] at mem
      rcases mem with rfl | isIn | rfl
      · decide
      · simp [unreserved_kept (plain c isIn)]
      · decide
    have all : 35 ∉ 47 :: backend ++ [42] := by
      simp [plain.not_mem (by decide : unreserved 35 = false)]
    have slashless : 47 ∉ backend ++ [42] := by
      simp [plain.not_mem (by decide : unreserved 47 = false)]
    rw [style, upstreamPath, if_pos rfl, raw, sent, cut_free all, escapedPath_valid
      valid] at relayed
    simp [trimSlash, cut_free slashless] at relayed
  · rintro ⟨fragment, _, asterisk⟩
    rw [rawKey] at fragment
    have raw := rawPath_slash ok (asterisk rfl)
    refine ⟨fun path => (by rw [style] at path; cases path), ?_, ?_⟩
    · rw [style, upstreamPath, if_pos rfl, raw, key]
      exact sent_joined plain fragment read
    · rw [style, rawKey, key]
      exact sent_copyTarget plain read fragment

/-- A request is forwarded with the bucket and key it was routed by exactly when its path is
read alike as sent and as parsed. -/
theorem forwarded_iff_unambiguous (hostBucket : Key) (plain : PlainName backend)
    (ok : t.Accepted) (routed : parse hostBucket t = some info) :
    Forwarded t backend info ↔ t.Unambiguous info.virtualHost := by
  by_cases host : hostBucket = []
  · subst host
    have style : info.virtualHost = false := by
      simp only [parse, ne_eq, not_true_eq_false, if_false] at routed
      split at routed
      · rw [← Option.some.inj routed]
      · cases routed
    rw [style]
    exact forwarded_path_style plain ok routed
  have style : info.virtualHost = true := by
    simp only [parse, if_pos host] at routed
    rw [← Option.some.inj routed]
  rw [style]
  exact forwarded_virtual_host plain ok host routed

def plainTarget : Target := { form := .origin, path := [47, 120, 47, 97, 47, 98] }

theorem plainTarget_forwarded : plainTarget.Accepted ∧ Forwarded plainTarget [121]
        { virtualHost := false, bucket := [120], key := [97, 47, 98] } := by
  have ok : plainTarget.Accepted :=
    ⟨⟨[47, 120, 47, 97, 47, 98], by decide⟩, fun _ => ⟨_, rfl⟩,
      nofun, nofun, nofun⟩
  refine ⟨ok, (forwarded_iff_unambiguous [] ?_ ok (by decide)).mpr ?_⟩
  · exact List.all_eq_true.mp rfl
  · exact ⟨by decide, by decide, by decide⟩

def numberTarget : Target := { form := .origin, path := [47, 120, 47, 97, 35, 98] }

def hiddenSlash : Target :=
  { form := .origin, path := [47, 120, 37, 50, 70, 121, 34, 47, 97] }

theorem number_and_hidden_slash_misrouted : (parse [] numberTarget =
        some { virtualHost := false, bucket := [120], key := [97, 35, 98] } ∧
      sent (upstreamPath numberTarget false [121]) = ([121], [97])) ∧
    parse [] hiddenSlash =
        some { virtualHost := false, bucket := [120], key := [121, 34, 47, 97] } ∧
      sent (upstreamPath hiddenSlash false [121]) = ([121], [97]) := by
  decide

end Shunt.Proxy
