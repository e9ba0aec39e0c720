/-
The incarnation marker of a proxy's cache directory and the client's memory of it.
A process writes its marker before it serves, carries in it the earlier processes the
control plane has not recorded, and rewrites it when a heartbeat is answered and when
it retires.  The file is the typed record it holds; a state the file lacks is `none`.
-/

import Shunt.Cp.Fleet

namespace Shunt.Member

open Cp List

def markerSchema : Nat := 2

def maxPredecessors : Nat := 4 * maxUnresolvedIncarnations

structure Marker where
  schema : Nat
  proxyID : String
  incarnation : String
  started : Nat := 0
  state : Option IncarnationState
  ended : Nat := 0
  uncertain : Int := 0
  registered : Bool := false
  predecessors : List Incarnation := []
deriving DecidableEq

namespace Marker

def usable (proxyID : String) (m : Marker) : Bool :=
  decide (m.schema = 1 ∨ m.schema = markerSchema) && decide (m.proxyID = proxyID) &&
    validIncarnation m.incarnation

def process (m : Marker) : Incarnation :=
  { id := m.incarnation
    started := m.started
    ended := m.ended
    state :=
      match m.state with
      | none | some .active => .unclean
      | some state => state
    uncertain := m.uncertain }

def reported (m : Marker) : Bool :=
  decide (m.process.state ≠ .retired) || decide (0 < m.process.uncertain) || m.registered ||
    decide (m.schema = 1)

def earlier (m : Marker) : List Incarnation :=
  if m.reported then m.predecessors ++ [m.process] else m.predecessors

def names (m : Marker) : List String := m.incarnation :: m.predecessors.map Incarnation.id

end Marker

/-- The processes before this one, oldest first; too many refuse the start. -/
def readPredecessors (path proxyID : String) : Option Marker → Except String (List Incarnation)
  | none => .ok []
  | some m =>
    if m.usable proxyID = false then .ok []
    else if maxPredecessors < m.earlier.length then
      .error (toString m.earlier.length ++ " earlier processes of proxy " ++ proxyID ++
        " ended without the control plane recording them, more than the " ++
        toString maxPredecessors ++ " its marker keeps: each may have left a backend outcome " ++
        "unknown, so this process does not start and the marker (" ++ path ++
        ") keeps them; resolve them with the control plane (\x60shunt proxy show " ++ proxyID ++
        "\x60) once it is reachable, or retire this cache directory")
    else .ok m.earlier

structure Process where
  incarnation : String
  started : Nat
  markState : IncarnationState := .active
  markUncertain : Int := 0
  registered : Bool := false
  predecessors : List Incarnation
  retired : Bool := false
deriving DecidableEq

namespace Process

def marker (proxyID : String) (now : Nat) (p : Process) : Marker :=
  { schema := markerSchema
    proxyID := proxyID
    incarnation := p.incarnation
    started := p.started
    state := some p.markState
    ended := if p.markState = .active then 0 else now
    uncertain := p.markUncertain
    registered := p.registered
    predecessors := p.predecessors }

def predecessorsToReport (p : Process) : List Incarnation :=
  p.predecessors.take (min p.predecessors.length maxUnresolvedIncarnations)

def heartbeat (p : Process) : Heartbeat :=
  { incarnation := p.incarnation, started := p.started, previous := p.predecessorsToReport }

def unrecorded (sent : List Incarnation) (noted : Bool) (p : Process) : List Incarnation :=
  if noted = true ∧ sent ≠ [] then
    p.predecessors.filter fun q => !sent.any fun s => decide (s.id = q.id)
  else p.predecessors

def answered (sent : List Incarnation) (noted : Bool) (p : Process) : Process :=
  { p with registered := true, predecessors := p.unrecorded sent noted }

def changed (sent : List Incarnation) (noted : Bool) (p : Process) : Bool :=
  !p.registered || decide ((p.unrecorded sent noted).length ≠ p.predecessors.length)

def mark (uncertain : Int) (p : Process) : Process :=
  { p with
    markState := if 0 < uncertain then .unclean else .retired
    markUncertain := uncertain }

end Process

section

variable {path proxyID id : String} {m : Marker} {read : List Incarnation} {p : Process} {now : Nat}
  {q : Incarnation}

theorem Process.marker_usable (valid : validIncarnation p.incarnation) :
    (p.marker proxyID now).usable proxyID = true := by
  unfold Marker.usable
  rw [Bool.and_eq_true, Bool.and_eq_true]
  exact ⟨⟨decide_eq_true (.inr rfl), decide_eq_true rfl⟩, valid⟩

theorem readPredecessors_earlier (usable : m.usable proxyID)
    (reads : readPredecessors path proxyID (some m) = .ok read) : read = m.earlier := by
  unfold readPredecessors at reads
  dsimp only at reads
  rw [usable, if_neg Bool.noConfusion] at reads
  split at reads
  · cases reads
  · exact (Except.ok.inj reads).symm

theorem Marker.process_retired (state : m.process.state = .retired) : m.state = some .retired := by
  unfold Marker.process at state
  dsimp only at state
  split at state
  · cases state
  · cases state
  · next is_ => rw [is_, state]

theorem Marker.reported_or_clean (counted : 0 ≤ m.uncertain) :
    m.reported ∨ m.state = some .retired ∧ m.uncertain = 0 := by
  unfold Marker.reported
  by_cases state : m.process.state = .retired
  · by_cases none_ : m.uncertain = 0
    · exact .inr ⟨Marker.process_retired state, none_⟩
    left
    have pos : 0 < m.process.uncertain := by
      change 0 < m.uncertain
      omega
    simp [pos]
  · left
    simp [state]

theorem Marker.earlier_names (counted : 0 ≤ m.uncertain) (listed : id ∈ m.names) :
    id ∈ m.earlier.map Incarnation.id ∨
      id = m.incarnation ∧ m.state = some .retired ∧ m.uncertain = 0 := by
  unfold Marker.names at listed
  rcases mem_cons.mp listed with own | prev
  · rcases Marker.reported_or_clean counted with told | clean
    · left
      unfold Marker.earlier
      rw [if_pos told, map_append, own]
      exact mem_append_right _ (mem_singleton.mpr rfl)
    · exact .inr ⟨own, clean⟩
  left
  unfold Marker.earlier
  split
  · rw [map_append]
    exact mem_append_left _ prev
  · exact prev

theorem Marker.mem_earlier (mem : q ∈ m.earlier) : q ∈ m.predecessors ∨ q = m.process := by
  unfold Marker.earlier at mem
  split at mem
  · exact (mem_append.mp mem).imp id fun own => mem_singleton.mp own
  · exact .inl mem

theorem Marker.process_clean (clean : m.process.clean) :
    m.state = some .retired ∧ m.uncertain = 0 := by
  unfold Incarnation.clean at clean
  obtain ⟨state, none_⟩ := of_decide_eq_true clean
  exact ⟨Marker.process_retired state, none_⟩

theorem Process.mem_unrecorded {sent : List Incarnation} {noted : Bool}
    (mem : q ∈ p.unrecorded sent noted) : q ∈ p.predecessors := by
  unfold Process.unrecorded at mem
  split at mem
  · exact List.mem_of_mem_filter mem
  · exact mem

theorem Process.unrecorded_or_sent {sent : List Incarnation} {noted : Bool}
    (mem : id ∈ p.predecessors.map Incarnation.id) :
    id ∈ (p.unrecorded sent noted).map Incarnation.id ∨ noted ∧ id ∈ sent.map Incarnation.id := by
  obtain ⟨q, isIn, rfl⟩ := List.mem_map.mp mem
  unfold Process.unrecorded
  split
  · next told =>
      by_cases among : q.id ∈ sent.map Incarnation.id
      · exact .inr ⟨told.1, among⟩
      refine .inl (List.mem_map.mpr ⟨q, List.mem_filter.mpr ⟨isIn, ?_⟩, rfl⟩)
      rw [Bool.not_eq_true', List.any_eq_false]
      intro s member_
      simp only [decide_eq_true_eq]
      intro eq
      exact among (eq ▸ List.mem_map_of_mem member_)
  · exact .inl mem

theorem Process.mem_heartbeat (mem : q ∈ p.heartbeat.previous) : q ∈ p.predecessors :=
  mem_of_mem_take mem

end

end Shunt.Member
