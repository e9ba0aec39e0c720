/-
The publisher of runtime bundles.  A bundle is the directory and the cluster set a request
uses from its first step to its last; it is counted, and a replaced one is kept while
requests hold it.  At most `limit` replaced bundles are kept: a bundle published beyond
that waits, and is made current when one of them drains.
-/

import Shunt.Admission.Gates
import Shunt.Library.Calls

namespace Shunt.Runtimecfg

open Function (update)

open Admission (Snapshot)
open Directory (Identity)
open Library (Resumes)

structure Bundle where
  snapshot : Snapshot
  clusters : Nat

def Bundle.identity (b : Bundle) : Identity := b.snapshot.file.identity

def Bundle.version (b : Bundle) : Int := b.snapshot.version

/-- What a call in progress has still to do.  Bundles are named by the order in which
`Publish` accepted them. -/
inductive Act where
  | acquire (b : Nat)
  | release (b : Nat)
  | closeSet (b : Nat)
  | drained (b : Nat)
  | discard (b : Nat)
  | published (b : Nat)
  | serving (b : Nat)
  deriving DecidableEq

def maxRetired : Int := 8

/-- The publisher, the counts of its bundles and of their cluster sets, the calls in
progress, the bundles requests hold, and the sets the registry holds. -/
structure Publisher where
  bundle : Nat → Bundle
  accepted : Nat
  refs : Nat → Int
  cur : Nat
  retired : Int
  held : List Nat
  pending : Option Nat
  limit : Int
  setRefs : Nat → Int
  calls : List (List Act)
  holders : List Nat
  registry : List Nat

/-- A publisher holding its first bundle, whose set the registry holds too. -/
def newPublisher (b : Bundle) : Publisher where
  bundle := fun _ => b
  accepted := 1
  refs := update (fun _ => 0) 0 1
  cur := 0
  retired := 0
  held := []
  pending := none
  limit := maxRetired
  setRefs := update (fun _ => 0) b.clusters 2
  calls := []
  holders := []
  registry := [b.clusters]

def Publisher.swapLocked (p : Publisher) (b : Nat) : Publisher × List Act :=
  if p.limit ≤ p.retired then ({ p with pending := some b }, [])
  else
    ({ p with cur := b, retired := p.retired + 1, held := p.cur :: p.held },
      [.release p.cur, .published b])

def Publisher.latest (p : Publisher) : Nat := p.pending.getD p.cur

def Publisher.refuses (p : Publisher) (b : Bundle) : Option String :=
  let latest := p.bundle p.latest
  if latest.identity.isZero = false ∧ latest.identity ≠ b.identity then
    some ("runtimecfg: bundle for cluster " ++ b.identity.clusterID ++ " epoch " ++
      b.identity.epoch ++ " refused: this proxy runs cluster " ++ latest.identity.clusterID ++
      " epoch " ++ latest.identity.epoch)
  else if b.version < latest.version then
    some ("runtimecfg: bundle for directory version " ++ toString b.version ++
      " refused: version " ++ toString latest.version ++ " is published")
  else if p.setRefs b.clusters ≤ 0 then
    some ("runtimecfg: bundle for directory version " ++ toString b.version ++
      " refused: its cluster set was replaced and released")
  else none

def Publisher.accept (p : Publisher) (b : Bundle) : Publisher :=
  { p with
    bundle := update p.bundle p.accepted b
    accepted := p.accepted + 1
    refs := update p.refs p.accepted 1
    setRefs := update p.setRefs b.clusters (p.setRefs b.clusters + 1) }

def Publisher.publish (p : Publisher) (b : Bundle) : Except String (Publisher × List Act) :=
  match p.refuses b with
  | some why => .error why
  | none =>
    let swapped := { p.accept b with pending := none }.swapLocked p.accepted
    .ok (swapped.1, p.pending.toList.map .discard ++ swapped.2)

def Publisher.drain (p : Publisher) (b : Nat) : Publisher × List Act :=
  let gone := { p with retired := p.retired - 1, held := p.held.erase b }
  match p.pending with
  | some next => { gone with pending := none }.swapLocked next
  | none => (gone, [])

def Publisher.releaseSet (p : Publisher) (b : Nat) : Publisher :=
  let set := (p.bundle b).clusters
  { p with setRefs := update p.setRefs set (p.setRefs set - 1) }

inductive Work : Publisher → Publisher → Prop where
  | newSet {p set} (fresh : p.setRefs set = 0)
      (unused : ∀ b < p.accepted, (p.bundle b).clusters ≠ set) :
      Work p { p with setRefs := update p.setRefs set 1, registry := set :: p.registry }
  | dropSet {p set} (live : set ∈ p.registry) :
      Work p { p with
        setRefs := update p.setRefs set (p.setRefs set - 1)
        registry := p.registry.erase set }
  | publish {p p' b acts}
      (accepted : p.publish b = .ok (p', acts)) : Work p { p' with calls := acts :: p.calls }
  | acquire {p} : Work p { p with calls := [.acquire p.cur] :: p.calls }
  | retry {p b calls} (turn : Resumes (.acquire b) [.acquire p.cur] p.calls calls) :
      Work p { p with calls := calls }
  | take {p b calls} (turn : Resumes (.acquire b) [] p.calls calls) (live : 0 < p.refs b) :
      Work p { p with
        calls := calls, refs := update p.refs b (p.refs b + 1)
        holders := b :: p.holders }
  | giveBack {p b} (holds : b ∈ p.holders) :
      Work p { p with holders := p.holders.erase b, calls := [.release b] :: p.calls }
  | release {p b calls}
      (turn : Resumes (.release b) (if p.refs b - 1 = 0 then [.closeSet b] else []) p.calls calls) :
      Work p { p with calls := calls, refs := update p.refs b (p.refs b - 1) }
  | closeSet {p b calls} (turn : Resumes (.closeSet b) [.drained b] p.calls calls) :
      Work p { p.releaseSet b with calls := calls }
  | drained {p b calls} (turn : Resumes (.drained b) (p.drain b).2 p.calls calls) :
      Work p { (p.drain b).1 with calls := calls }
  | discard {p b calls} (turn : Resumes (.discard b) [] p.calls calls) :
      Work p { p.releaseSet b with calls := calls }

inductive Step : Publisher → Publisher → Prop where
  | work {p p'} (work : Work p p') : Step p p'
  | deliver {p b calls} (turn : Resumes (.published b) [.serving b] p.calls calls) :
      Step p { p with calls := calls }
  | returned {p b calls}
      (turn : Resumes (.serving b) [] p.calls calls) : Step p { p with calls := calls }

end Shunt.Runtimecfg
