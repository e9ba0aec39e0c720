/-
Prefix ownership: the scope a key belongs to, the owner table of a scope, and
the leg a hash falls to in a table.
-/

import Shunt.Directory.HashSpace
import Shunt.Library.Search

namespace Shunt.Directory

open Library (search)

def maxPrefixRules : Nat := 64

def maxPrefixLen : Nat := 1024

def hasPrefix (key pre : Key) : Bool := pre.isPrefixOf key

def longerRule (key : Key) (best : Option PrefixRule) (rule : PrefixRule) : Option PrefixRule :=
  match best with
  | none => if hasPrefix key rule.pre then some rule else none
  | some kept =>
    if kept.pre.length < rule.pre.length ∧ hasPrefix key rule.pre then some rule else some kept

def Placement.ruleOf (p : Placement) (key : Key) : Option PrefixRule :=
  p.prefixes.foldl (longerRule key) none

def Placement.scope (p : Placement) (key : Key) : Key × List Owner :=
  match p.ruleOf key with
  | none => ([], p.owners)
  | some rule => (rule.pre, rule.owners)

def endsAfter (owners : List Owner) (h : Hash) (index : Nat) : Bool :=
  match owners[index]? with
  | some o => decide (h ≤ o.hi)
  | none => true

def ownerIn (owners : List Owner) (h : Hash) : String :=
  match owners[search owners.length (endsAfter owners h)]? with
  | some o => o.leg
  | none => ""

def Placement.scopeTable (p : Placement) (scope : Key) : Option (List Owner) :=
  if scope = [] then some p.owners
  else (p.prefixes.find? fun rule => rule.pre = scope).map PrefixRule.owners

def Placement.setScopeTable (p : Placement) (scope : Key) (owners : List Owner) : Placement :=
  if scope = [] then { p with owners := owners }
  else
    { p with
      prefixes := p.prefixes.map fun rule =>
        if rule.pre = scope then { rule with owners := owners } else rule }

def Placement.ownsKeys (p : Placement) (leg : String) : Bool :=
  p.owners.any (fun o => o.leg == leg) ||
    p.prefixes.any fun rule => rule.owners.any fun o => o.leg == leg

def ownerLegs (owners : List Owner) : List String := owners.map Owner.leg

def Placement.listingLegs (p : Placement) (pre : Key) : List String :=
  let own := ownerLegs (p.scope pre).2
  let nested := (p.prefixes.filter fun rule => hasPrefix rule.pre pre).flatMap
    fun rule => ownerLegs rule.owners
  let moves := match p.move with
    | some m => [m.source, m.dest]
    | none => []
  ((own ++ nested ++ moves).foldl (fun (set : StrMap Unit) id => set.insert id ()) ∅).keys

end Shunt.Directory
