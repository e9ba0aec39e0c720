/-
Requests on the contents of the backend buckets: what the proxy does with a write,
a delete, a read and a listing, what the mover does with a key, and what the steps
of a placement's migrations and moves leave in the buckets.
-/

import Shunt.Library.PathText
import Shunt.Migrate.Dispatch

namespace Shunt.Proxy

open Directory
open Migrate

def decodeListingKey (s : Key) : Key :=
  if s.contains 37 then (Library.pathUnescape s).getD s else s

abbrev Contents (V : Type) := Leg → Key → Option V

variable {V : Type}

def Contents.set (c : Contents V) (bucket : Leg) (key : Key) (value : Option V) : Contents V :=
  fun b k => if b = bucket ∧ k = key then value else c b k

section

variable (hash : Key → Hash) (p : Placement) (c : Contents V)

def put (key : Key) (v : V) : Except RouteError (Option (Contents V)) :=
  match dispatch hash p .write key with
  | .error e => .error e
  | .ok d => .ok (if d.route.held then none else some (c.set d.first key (some v)))

def delete (key : Key) : Except RouteError (Contents V) :=
  match dispatch hash p .delete key with
  | .error e => .error e
  | .ok d =>
    .ok ((if d.route.both then c.set d.source key none else c).set d.first key none)

def get (key : Key) : Except RouteError (Option V) :=
  match dispatch hash p .read key with
  | .error e => .error e
  | .ok d =>
    .ok (if d.route.fallback then (c d.first key).or (c d.source key) else c d.first key)

section

-- how the backend of a bucket writes a key in its listing, and the keys that may be stored
variable (texts : Leg → Key → Key) (keys : List Key)

/-- What the pages of a bucket's listing under a prefix show, each text decoded. -/
def pagesOf (pre : Key) : Contents V := fun b name =>
  keys.findSome? fun k =>
    if hasPrefix k pre ∧ decodeListingKey (texts b k) = name then c b k else none

end

def ownKey (id : String) (key : Key) : Bool :=
  (match p.move with
    | none => false
    | some m => (decide (id = m.source) || decide (id = m.dest)) && inMove hash p key) ||
  match ownerOf hash p key with
  | .error _ => false
  | .ok owner => decide (owner = id)

def legEntry (id : String) (key : Key) : Option V :=
  if ownKey hash p id key then c (legIn p.legs id) key else none

def spreadListing (pre key : Key) : Option V :=
  let ids := p.listingLegs pre
  let first := ids.findSome? fun id => legEntry hash p c id key
  match p.move with
  | none => first
  | some m => if m.dest ∈ ids then (legEntry hash p c m.dest key).or first else first

/-- The listing of a plain placement: one bucket's own, or the pages of both with the
primary's entry of a key in both. -/
def mergeListing (pages : Contents V) (pre key : Key) : Except RouteError (Option V) :=
  match decideRoute hash p .list [] with
  | .error e => .error e
  | .ok route =>
    let first := match route.cluster with
      | .primary => endpoint p .primary
      | .source => endpoint p .source
    .ok (if route.merge then (pages first key).or (pages (endpoint p .source) key)
      else if hasPrefix key pre then c first key else none)

def list (texts : Leg → Key → Key) (keys : List Key) (pre key : Key) :
    Except RouteError (Option V) :=
  let pages := pagesOf c texts keys pre
  if p.spread then .ok (spreadListing hash p pages pre key)
  else mergeListing hash p c pages pre key

def moverView : Placement :=
  match p.move with
  | none => p
  | some m => p.moveView m

def moverRuns : Bool :=
  let v := moverView p
  decide (v.state = .migrating) ||
    decide (v.state = .ramping) && v.ramp.any fun r => decide (1 ≤ r.ratio)

def moverKeeps (key : Key) : Bool :=
  match p.move with
  | none => true
  | some _ => inMove hash p key

def copyOne (key : Key) : Contents V :=
  let source := endpoint (moverView p) .source
  let target := endpoint (moverView p) .primary
  if moverRuns p ∧ moverKeeps hash p key ∧ c target key = none then
    c.set target key (c source key)
  else c

def buckets : List Leg :=
  if p.spread then p.legs.toList.map Prod.snd
  else if p.state = .active then [endpoint p .primary]
  else [endpoint p .primary, endpoint p .source]

def Converged : Prop :=
  ∀ key, moverKeeps hash p key = true →
    c (endpoint (moverView p) .primary) key = none → c (endpoint (moverView p) .source) key = none

def purged (t : Transition) (q : Placement) : Contents V := fun b key =>
  match p.move with
  | none => c b key
  | some m =>
    if q.state = .active ∧ t.release = false ∧ inMove hash p key ∧
        b = legIn p.legs m.source ∧ b ∈ buckets q then none
    else c b key

end

structure World (V : Type) where
  placement : Placement
  contents : Contents V
  bucket : Key → Option V

/-- One accepted request, one copy of the mover, or one step of the placement. -/
inductive Serves (hash : Key → Hash) : World V → World V → Prop where
  | write {w key v c} (ok : put hash w.placement w.contents key v = .ok (some c)) :
      Serves hash w { w with contents := c, bucket := Function.update w.bucket key (some v) }
  | delete {w key c} (ok : delete hash w.placement w.contents key = .ok c) :
      Serves hash w { w with contents := c, bucket := Function.update w.bucket key none }
  | copy {w} (key : Key) :
      Serves hash w { w with contents := copyOne hash w.placement w.contents key }
  | apply {w t q} (ok : w.placement.apply t = .ok q)
      -- a bucket that is new to the placement starts empty
      (fresh : ∀ b ∈ buckets q, b ∉ buckets w.placement → ∀ key, w.contents b key = none)
      (converged : q.state = .cutover → Converged hash w.placement w.contents) : Serves hash w
        { w with placement := q, contents := purged hash w.placement w.contents t q }

end Shunt.Proxy
