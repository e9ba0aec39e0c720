/-
What a request reaches: only buckets that its placement holds.
-/

import Shunt.Directory.MoveValid
import Shunt.Migrate.Hands

namespace Shunt.Migrate

open Directory

variable {hash : Key → Hash} {p v : Placement} {key : Key} {cls : OpClass}
  {clusters : StrMap Config.Cluster}

/-- The buckets a routed request is sent to: the first, and the source of a read that falls back,
a delete on both sides and a merged listing. -/
def Dispatch.buckets (d : Dispatch) : List Leg :=
  d.first :: if d.route.fallback || d.route.both || d.route.merge then [d.source] else []

def Holds (p : Placement) (b : Leg) : Prop := (b.cluster, b.bucket) ∈ p.buckets

theorem Holds.holdable {b : Leg} (holds : Holds p b) (sound : p.Sound clusters) :
    Holdable clusters (b.cluster, b.bucket) := by
  rcases sound with valid | valid
  · exact valid.held _ _ ((mem_plain_buckets valid.plain).mp holds)
  · obtain ⟨id, l, got, eq⟩ := (mem_spread_buckets valid.spread).mp holds
    rw [← eq]
    exact valid.held id l got

theorem Holds.named {b : Leg} (holds : Holds p b) (sound : p.Sound clusters) : b.bucket ≠ "" :=
  validBucketName_ne_empty (holds.holdable sound).2.2

theorem routedBy_held (sound : p.Sound clusters) (sent : routedBy hash p key = .ok v) :
    Holds p (endpoint v .primary) ∧ (v.source ≠ "" → Holds p (endpoint v .source)) := by
  have legs : p.spread → ∀ id ∈ p.legs, Holds p (legIn p.legs id) := by
    intro spread id mem
    obtain ⟨l, got⟩ := exists_leg mem
    rw [Holds, legIn_of_getElem? got, mem_spread_buckets spread]
    exact ⟨id, l, got, rfl⟩
  have view := @routedBy_cases hash _ key sound.formed
  rw [sent] at view
  cases view with
  | plain form =>
    have named : ∀ role ∈ p.names, Holds p ⟨role, nameIn p.names role⟩ := by
      intro role mem
      rw [Holds, mem_plain_buckets form.plain, nameIn, Std.ExtTreeMap.getElem?_eq_some_getElem mem]
      rfl
    rw [endpoint_plain form.roles, endpoint_plain form.roles]
    rcases sound with valid | valid
    · exact ⟨named _ valid.primaryNamed, fun given => named _ (valid.sourceNamed given)⟩
    · exact absurd valid.spread (ne_true_of_eq_false form.plain)
  | owner form =>
    rw [endpoint_onLeg]
    exact ⟨legs form.spread _ (ownerID_mem form.tables key), fun given => absurd rfl given⟩
  | move form has moves =>
    have ends := form.moving _ moves
    rw [endpoint_moveView_primary, endpoint_moveView_source p _ ends.different]
    exact ⟨legs form.spread _ ends.dest, fun _ => legs form.spread _ ends.source⟩

/-- A view with no source in it is served from its primary alone. -/
theorem decideRoute_alone {r : Route} (alone : v.source = "")
    (decided : decideRoute hash v cls key = .ok r) : r = { cluster := .primary } := by
  rw [decideRoute, if_pos (.inl alone)] at decided
  cases decided
  rfl

theorem dispatch_held {d : Dispatch} (sound : p.Sound clusters)
    (sent : dispatch hash p cls key = .ok d) : ∀ b ∈ d.buckets, Holds p b := by
  unfold dispatch at sent
  split at sent
  · cases sent
  rename_i v view
  split at sent
  · cases sent
  rename_i r decided
  cases sent
  obtain ⟨primary, source⟩ := routedBy_held sound view
  intro b mem
  by_cases alone : v.source = ""
  · rw [decideRoute_alone alone decided] at mem
    rw [List.mem_singleton.mp mem]
    exact primary
  have both : b = endpoint v .primary ∨ b = endpoint v .source := by
    unfold Dispatch.buckets Dispatch.first at mem
    rcases List.mem_cons.mp mem with eq | second
    · rw [eq]
      split
      · exact .inl rfl
      · exact .inr rfl
    split at second
    · exact .inr (List.mem_singleton.mp second)
    · cases second
  rcases both with rfl | rfl
  · exact primary
  · exact source alone

end Shunt.Migrate
