/-
The states the store can hold.  A directory that passed its checks, whose placements
are in the form they are read back in, with secrets of its own clusters only and
client keys under their own access keys; every write keeps this.
-/

import Shunt.Cp.Mutate
import Shunt.Directory.RoundTrip

namespace Shunt.Directory

variable {f g : File} {k name : String}

theorem Mutation.clusters_kept {now : Int} {m : Mutation} (res : m.run now f = .ok g)
    (has : name ∈ f.clusters) : name ∈ g.clusters := by
  cases Mutation.mutated res with
  | opened gone placements clusters | spread gone several placements clusters =>
    rw [clusters]
    exact has
  | changed | deleted => exact has
  | beside placements clusters => exact clusters name has

end Shunt.Directory

namespace Shunt.Cp

open Config (Cluster)
open Directory Std.ExtTreeMap

variable {cipher : Cipher} {env : Env} {cur next copy : State} {call again : Call}
  {ops : List Event}

structure State.Kept (st : State) : Prop where
  stored : st.file.Stored
  held : ∀ (name secret : String), st.secrets[name]? = some secret →
    name ∈ st.file.clusters ∧ secret ≠ ""
  keyed : ∀ (accessKey : String) (c : Credential), st.creds[accessKey]? = some c →
    c.accessKey = accessKey

structure State.Sound (st : State) : Prop extends st.Kept where
  version : st.file.version = st.version
  valid : st.file.validate = []

theorem sound_empty : State.Sound {} where
  stored := by
    intro k p got
    simp at got
  held := by
    intro name secret got
    simp at got
  keyed := by
    intro accessKey c got
    simp at got
  version := rfl
  valid := by decide

theorem State.Sound.placementValid (sound : cur.Sound) {k : String} {p : Placement}
    (got : cur.file.placements[k]? = some p) : p.Valid :=
  ⟨(sound.stored k p got).roles, cur.file, k, sound.valid, got⟩

/-- The states whose records JSON can carry: every key a placement stores is UTF-8 and every
number is one. -/
def State.Plain (st : State) : Prop :=
  ∀ (k : String) (p : Placement), st.file.placements[k]? = some p →
    (∀ key ∈ p.storedKeys, Library.Utf8 key) ∧ ∀ x ∈ p.numbers, x.isNum

/-- The text of every placement, as it is put under its key, decodes to the placement. -/
def State.ReadsBack (st : State) : Prop :=
  ∀ (k : String) (p : Placement), st.file.placements[k]? = some p →
    p.encode.bind Placement.unmarshalJSON = .ok p

theorem State.Sound.readsBack (sound : cur.Sound) (plain : cur.Plain) : cur.ReadsBack :=
  fun k p got =>
    ((sound.stored k p got).decodes (sound.placementValid got)).mpr (plain k p got)

theorem State.plain_of_empty (nil : cur.file.placements = ∅) : cur.Plain := by
  intro k p got
  simp [nil] at got

theorem putSecret_held {name : String} {c : Cluster} {secret : String} {secrets : StrMap String}
    (kept : cur.Kept) (res : cur.putSecret name c secret = .ok secrets) :
    ∀ other plain, secrets[other]? = some plain →
      (other = name ∨ other ∈ cur.file.clusters) ∧ plain ≠ "" := by
  intro other plain got
  unfold State.putSecret at res
  split at res
  · rename_i given
    cases res
    rw [Std.ExtTreeMap.getElem?_insert] at got
    split at got
    · rename_i eq
      cases got
      exact ⟨.inl (Std.compare_eq_iff_eq.mp eq).symm, given⟩
    · exact ⟨.inr (kept.held other plain got).1, (kept.held other plain got).2⟩
  split at res
  · split at res
    · cases res
      exact ⟨.inr (kept.held other plain got).1, (kept.held other plain got).2⟩
    · cases res
  cases res
  rw [getElem?_erase] at got
  split at got
  · cases got
  · exact ⟨.inr (kept.held other plain got).1, (kept.held other plain got).2⟩

theorem mem_putCluster {f : File} {name other : String} {c : Cluster} :
    other ∈ (f.putCluster name c).clusters ↔ other = name ∨ other ∈ f.clusters := by
  simp only [File.putCluster, Config.applyClusterDefaults, Std.ExtTreeMap.mem_map, mem_insert,
    Std.compare_eq_iff_eq]
  exact or_congr_left eq_comm

theorem Call.kept {now : Int} (sound : cur.Sound)
    (res : call.run now cur = .ok (.changed copy again)) : copy.Kept := by
  cases call with
  | change =>
    simp only [Call.run] at res
    split at res
    · cases res
    rename_i f changed
    cases res
    refine ⟨Mutation.stored (fun k p got => (sound.placementValid got).formed)
      sound.stored changed, ?_, sound.keyed⟩
    intro name secret got
    exact ⟨Mutation.clusters_kept changed (sound.held name secret got).1,
      (sound.held name secret got).2⟩
  | putCluster =>
    simp only [Call.run] at res
    split at res
    · cases res
    rename_i secrets put
    cases res
    refine ⟨sound.stored, ?_, sound.keyed⟩
    intro other plain got
    obtain ⟨has, given⟩ := putSecret_held sound.toKept put other plain got
    exact ⟨mem_putCluster.mpr has, given⟩
  | removeCluster =>
    simp only [Call.run, File.removeCluster] at res
    split at res
    · cases res
    rename_i f removed
    cases res
    repeat' split at removed
    all_goals cases removed
    refine ⟨sound.stored, ?_, sound.keyed⟩
    intro other plain got
    rw [getElem?_erase] at got
    split at got
    · cases got
    rename_i ne
    exact ⟨mem_erase.mpr ⟨ne, (sound.held other plain got).1⟩, (sound.held other plain got).2⟩
  | addKey =>
    simp only [Call.run] at res
    split at res
    · cases res
      refine ⟨sound.stored, sound.held, ?_⟩
      intro accessKey d got
      rw [Std.ExtTreeMap.getElem?_insert] at got
      split at got
      · rename_i eq
        cases got
        exact Std.compare_eq_iff_eq.mp eq
      · exact sound.keyed accessKey d got
    · rename_i held got
      split at res
      · cases res
      rename_i merged unified
      split at res
      · cases res
      cases res
      refine ⟨sound.stored, sound.held, ?_⟩
      intro accessKey d at_
      rw [Std.ExtTreeMap.getElem?_insert] at at_
      split at at_
      · rename_i eq
        cases at_
        exact Std.compare_eq_iff_eq.mp eq
      · exact sound.keyed accessKey d at_
  | removeKey =>
    simp only [Call.run] at res
    split at res
    · cases res
      refine ⟨sound.stored, sound.held, ?_⟩
      intro ak d got
      rw [getElem?_erase] at got
      split at got
      · cases got
      · exact sound.keyed ak d got
    · cases res
  | upgrade =>
    simp only [Call.run] at res
    split at res
    · cases res
      exact sound.toKept
    · cases res

structure Candidate (cur copy next : State) : Prop where
  version : next.version = cur.version + 1
  fileVersion : next.file.version = next.version
  valid : next.file.validate = []
  clusters : next.file.clusters = copy.file.clusters
  tenants : next.file.tenants = copy.file.tenants
  placements : next.file.placements = copy.file.placements
  creds : next.creds = copy.creds
  secrets : next.secrets = copy.secrets

theorem candidate_ok (res : candidate env cur copy = .ok next) : Candidate cur copy next := by
  simp only [candidate, File.stamp] at res
  split at res
  · cases res
  rename_i f stamped
  split at stamped
  · cases stamped
  cases stamped
  split at res
  · cases res
  rename_i ok
  split at res
  · cases res
  · cases res
    exact ⟨rfl, rfl, by simpa using ok, rfl, rfl, rfl, rfl, rfl⟩

theorem attempt_commit (res : attempt cipher env cur call = .ok (.commit next ops again)) :
    ∃ copy, call.run env.now cur = .ok (.changed copy again) ∧
      candidate env cur copy = .ok next ∧ ops = writes cipher env call cur next := by
  unfold attempt at res
  split at res
  · cases res
  · cases res
  rename_i copy next' ran
  split at res
  · cases res
  rename_i candidate
  cases res
  exact ⟨copy, ran, candidate, rfl⟩

theorem committed_attempt (made : committed cipher env cur call = some (next, ops)) :
    ∃ again, attempt cipher env cur call = .ok (.commit next ops again) := by
  unfold committed at made
  split at made
  · rename_i res
    cases made
    exact ⟨_, res⟩
  · cases made

theorem attempt_sound (sound : cur.Sound)
    (res : attempt cipher env cur call = .ok (.commit next ops again)) : next.Sound := by
  obtain ⟨copy, ran, made, -⟩ := attempt_commit res
  have kept := Call.kept sound ran
  have is_ := candidate_ok made
  refine ⟨⟨?_, ?_, ?_⟩, is_.fileVersion, is_.valid⟩
  · intro k p got
    rw [is_.placements] at got
    exact kept.stored k p got
  · intro name secret got
    rw [is_.secrets] at got
    rw [is_.clusters]
    exact kept.held name secret got
  intro accessKey c got
  rw [is_.creds] at got
  exact kept.keyed accessKey c got

theorem attempt_version (res : attempt cipher env cur call = .ok (.commit next ops again)) :
    next.version = cur.version + 1 := by
  obtain ⟨copy, -, made, -⟩ := attempt_commit res
  exact (candidate_ok made).version

end Shunt.Cp
