/-
The streaming rewriter of response documents.

A scanner follows the markup of a document byte by byte.  The elements of the rewrite
tables are held until they end, and their text is handed to an editor; everything else is
forwarded.  An element with markup inside, or with more text than the limit, is forwarded
as it came.
-/

import Shunt.Directory.Placement
import Shunt.Library.Json

namespace Shunt.Xmlrw

open Directory
open Library (bytesOf)

inductive Field where
  | bucket
  | uploadID
  | location
  | resource
  | message
  | endpoint
  deriving DecidableEq

structure Rule where
  path : List String
  field : Field
  once : Bool
  deriving DecidableEq

structure Table where
  root : String
  rules : List Rule
  repeats : Bool := false
  deriving DecidableEq

def tables : List Table :=
  [{ root := "ListBucketResult", rules := [⟨["Name"], .bucket, true⟩] },
   { root := "ListVersionsResult", rules := [⟨["Name"], .bucket, true⟩] },
   { root := "ListMultipartUploadsResult", repeats := true
     rules := [⟨["Bucket"], .bucket, true⟩, ⟨["UploadIdMarker"], .uploadID, true⟩,
       ⟨["NextUploadIdMarker"], .uploadID, true⟩, ⟨["Upload", "UploadId"], .uploadID, false⟩] },
   { root := "InitiateMultipartUploadResult"
     rules := [⟨["Bucket"], .bucket, true⟩, ⟨["UploadId"], .uploadID, true⟩] },
   { root := "ListPartsResult"
     rules := [⟨["Bucket"], .bucket, true⟩, ⟨["UploadId"], .uploadID, true⟩] },
   { root := "CompleteMultipartUploadResult"
     rules := [⟨["Location"], .location, true⟩, ⟨["Bucket"], .bucket, true⟩] },
   { root := "Error"
     rules := [⟨["Resource"], .resource, true⟩, ⟨["BucketName"], .bucket, true⟩,
       ⟨["Bucket"], .bucket, true⟩, ⟨["Message"], .message, true⟩,
       ⟨["UploadId"], .uploadID, true⟩, ⟨["Endpoint"], .endpoint, true⟩] }]

def maxName : Nat := 64

def maxDepth : Int := 3

def tagSlack : Nat := 4096

inductive Mode where
  | prolog
  | text
  | lt
  | startName
  | startAttrs
  | startQuote
  | endName
  | endRest
  | bang
  | comment
  | cdata
  | decl
  | pi
  deriving DecidableEq

structure Lex where
  st : Mode := .prolog
  tag : Key := []
  tagLong : Bool := false
  quote : UInt8 := 0
  -- the last significant byte of a start tag was a slash
  slash : Bool := false
  bang : Key := []
  run : Nat := 0

inductive Event where
  | quiet
  | opened
  | markup
  | notXML
  | startTag
  | endTag
  deriving DecidableEq

def isSpace (c : UInt8) : Bool := c == 32 || c == 9 || c == 13 || c == 10

def Lex.nameByte (l : Lex) (c : UInt8) : Lex :=
  if l.tag.length < maxName then { l with tag := l.tag ++ [c] } else { l with tagLong := true }

def isPrefixOf (s all : Key) : Bool := decide (s <+: all)

def Lex.bangByte (l : Lex) (c : UInt8) : Lex :=
  let b := l.bang ++ [c]
  if b = [45, 45] then { l with st := .comment, run := 0, bang := b }
  else if b = [91, 67, 68, 65, 84, 65, 91] then { l with st := .cdata, run := 0, bang := b }
  else if c = 62 then { l with st := .text, bang := b }
  else if isPrefixOf b [45, 45] = false ∧ isPrefixOf b [91, 67, 68, 65, 84, 65, 91] = false then
    { l with st := .decl, bang := b }
  else { l with bang := b }

def Lex.closing (l : Lex) (mark c : UInt8) : Lex :=
  if c = mark then { l with run := l.run + 1 }
  else if c = 62 ∧ 2 ≤ l.run then { l with st := .text }
  else { l with run := 0 }

def Lex.step (l : Lex) (c : UInt8) : Lex × Event :=
  match l.st with
  | .prolog =>
    if c = 60 then ({ l with st := .lt }, .opened)
    else if isSpace c || c == 0xEF || c == 0xBB || c == 0xBF then (l, .quiet)
    else (l, .notXML)
  | .text => if c = 60 then ({ l with st := .lt }, .opened) else (l, .quiet)
  | .lt =>
    if c = 47 then ({ l with st := .endName, tag := [], tagLong := false }, .quiet)
    else if c = 63 then ({ l with st := .pi, run := 0 }, .markup)
    else if c = 33 then ({ l with st := .bang, bang := [] }, .markup)
    else
      ({ l with st := .startName, tag := [], tagLong := false, slash := false }.nameByte c,
        .quiet)
  | .startName =>
    if c = 62 then ({ l with st := .text }, .startTag)
    else if c = 47 then ({ l with st := .startAttrs, slash := true }, .quiet)
    else if isSpace c then ({ l with st := .startAttrs }, .quiet)
    else (l.nameByte c, .quiet)
  | .startAttrs =>
    if c = 34 ∨ c = 39 then ({ l with st := .startQuote, quote := c, slash := false }, .quiet)
    else if c = 62 then ({ l with st := .text }, .startTag)
    else if c = 47 then ({ l with slash := true }, .quiet)
    else if isSpace c then (l, .quiet)
    else ({ l with slash := false }, .quiet)
  | .startQuote => if c = l.quote then ({ l with st := .startAttrs }, .quiet) else (l, .quiet)
  | .endName =>
    if c = 62 then ({ l with st := .text }, .endTag)
    else if isSpace c then ({ l with st := .endRest }, .quiet)
    else (l.nameByte c, .quiet)
  | .endRest => if c = 62 then ({ l with st := .text }, .endTag) else (l, .quiet)
  | .bang => (l.bangByte c, .quiet)
  | .comment => (l.closing 45 c, .quiet)
  | .cdata => (l.closing 93 c, .quiet)
  | .decl => if c = 62 then ({ l with st := .text }, .quiet) else (l, .quiet)
  | .pi =>
    if c = 63 then ({ l with run := 1 }, .quiet)
    else if c = 62 ∧ l.run = 1 then ({ l with st := .text }, .quiet)
    else ({ l with run := 0 }, .quiet)

def localName (tag : Key) : Key := (tag.reverse.takeWhile (· ≠ 58)).reverse

/-- An element that is held: its bytes so far, where its latest markup began, and whether it has
markup inside. -/
structure Capture where
  field : Field
  depth : Int
  mixed : Bool := false
  buf : Key := []
  lt : Nat := 0

structure Core where
  lex : Lex := {}
  -- everything from here on is forwarded
  done : Bool := false
  tbl : Option Table := none
  matched : List Bool := []
  pending : Int := 0
  depth : Int := 0
  stopNext : Bool := false

/-- The writer within a call: what it has forwarded, and the bytes of the call that are neither
forwarded nor held yet. -/
structure Writer (S : Type) where
  core : Core := {}
  names : Int → Option Key := fun _ => none
  capture : Option Capture := none
  editor : S
  out : Key := []
  seg : Key := []

abbrev Editor (S : Type) := S → Field → Key → Key × S

section

variable {S : Type} (edit : Editor S) (maxText : Nat)

def pathAt (names : Int → Option Key) : Int → List String → Bool
  | _, [] => true
  | d, seg :: rest => decide (names d = some (bytesOf seg)) && pathAt names (d + 1) rest

def findRule (t : Table) (matched : List Bool) (names : Int → Option Key) (depth : Int) :
    Option (Nat × Rule) :=
  (t.rules.zipIdx.find? fun ri =>
    decide ((ri.1.path.length : Int) = depth - 1) && !(ri.1.once && matched[ri.2]?.getD false) &&
      pathAt names 2 ri.1.path).map fun ri => (ri.2, ri.1)

def setName (names : Int → Option Key) (depth : Int) (name : Option Key) : Int → Option Key :=
  fun d => if d = depth then name else names d

def Core.root (core : Core) : Core :=
  match tables.find? fun t =>
      !core.lex.tagLong && decide (localName core.lex.tag = bytesOf t.root) with
  | none => { core with tbl := none, done := true }
  | some t =>
    { core with tbl := some t, matched := List.replicate t.rules.length false
                pending := t.rules.length }

def Core.hit (core : Core) (i : Nat) (r : Rule) : Core :=
  if r.once then { core with matched := core.matched.set i true, pending := core.pending - 1 }
  else core

def Core.enter (core : Core) : Core :=
  { core with depth := if core.lex.slash then core.depth else core.depth + 1 }

/-- The rule a start tag matches, and the names of the open elements with it. -/
def Core.lookup (core : Core) (names : Int → Option Key) (depth : Int) :
    Option (Nat × Rule) × (Int → Option Key) :=
  match core.tbl with
  | none => (none, names)
  | some t =>
    if depth = 1 ∨ maxDepth < depth then (none, names)
    else if core.lex.tagLong || core.lex.slash then (none, setName names depth none)
    else
      let opened := setName names depth (some (localName core.lex.tag))
      (findRule t core.matched opened depth, opened)

def startTag (w : Writer S) : Writer S :=
  let depth := w.core.depth + 1
  let core := if depth = 1 ∧ w.capture.isNone then w.core.enter.root else w.core.enter
  match w.capture with
  | some cap => { w with core := core, capture := some { cap with mixed := true } }
  | none =>
    match core.lookup w.names depth with
    | (none, names) => { w with core := core, names := names }
    | (some (i, r), names) =>
      { w with
        core := core.hit i r
        names := names
        capture := some { field := r.field, depth := depth }
        out := w.out ++ w.seg
        seg := [] }

def finish (editor : S) (cap : Capture) (held : Key) : Key × S :=
  let text := held.take cap.lt
  let tail := held.drop cap.lt
  if cap.mixed = true ∨ maxText < text.length ∨ tagSlack < tail.length then (held, editor)
  else
    let (edited, post) := edit editor cap.field text
    (edited ++ tail, post)

def Core.exhausted (core : Core) : Bool :=
  match core.tbl with
  | some t => !t.repeats && decide (core.pending = 0)
  | none => false

def Core.leave (core : Core) (capturing : Bool) : Core :=
  { core with
    depth := core.depth - 1
    done := core.done || decide (core.depth - 1 ≤ 0) || (core.stopNext && !capturing) }

def endTag (w : Writer S) : Writer S :=
  match w.capture with
  | some cap =>
    if w.core.depth = cap.depth then
      let (bytes, post) := finish edit maxText w.editor cap (cap.buf ++ w.seg)
      { w with
        core := { w.core with stopNext := w.core.stopNext || w.core.exhausted }.leave false
        capture := none
        editor := post
        out := w.out ++ bytes
        seg := [] }
    else { w with core := w.core.leave true }
  | none => { w with core := w.core.leave false }

def scan (w : Writer S) (c : UInt8) : Writer S :=
  if w.core.done then { w with seg := w.seg ++ [c] }
  else
    let (lex, event) := w.core.lex.step c
    let next := { w with core := { w.core with lex := lex }, seg := w.seg ++ [c] }
    match event with
    | .quiet => next
    | .opened =>
      { next with capture := w.capture.map fun cap =>
          { cap with lt := cap.buf.length + w.seg.length } }
    | .markup => { next with capture := w.capture.map fun cap => { cap with mixed := true } }
    | .notXML => { next with core := { next.core with done := true } }
    | .startTag => startTag next
    | .endTag => endTag edit maxText next

def Capture.overLimits (cap : Capture) (st : Mode) (total : Nat) : Bool :=
  if st = .text then decide (maxText < total)
  else decide (maxText < cap.lt) || decide (tagSlack < total - cap.lt)

def endWrite (w : Writer S) : Writer S :=
  match w.capture with
  | none => { w with out := w.out ++ w.seg, seg := [] }
  | some cap =>
    if cap.overLimits maxText w.core.lex.st (cap.buf.length + w.seg.length) then
      { w with capture := none, out := w.out ++ cap.buf ++ w.seg, seg := [] }
    else { w with capture := some { cap with buf := cap.buf ++ w.seg }, seg := [] }

def write (w : Writer S) (p : Key) : Writer S := endWrite maxText (p.foldl (scan edit maxText) w)

def flush (w : Writer S) : Writer S :=
  match w.capture with
  | none => w
  | some cap => { w with capture := none, out := w.out ++ cap.buf }

def rewrite (editor : S) (calls : List Key) : Key :=
  (flush (calls.foldl (write edit maxText) { editor := editor })).out

end

end Shunt.Xmlrw
