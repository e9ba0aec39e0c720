/-
A control node following the directory.  It reads every key when it starts and when
its watch is cut, and applies each later write to the state it has installed; a batch
that it cannot decode, or that does not pass its checks, is passed over.
-/

import Shunt.Cp.Agree

namespace Shunt.Cp

open Config (Cluster)
open Directory Relation

/-- The versions of a directory one write after the other, with what etcd held at each: a write
is made from the copy of the directory that the writing node has. -/
structure History (cipher : Cipher) where
  length : Nat
  state : Nat → State
  kv : Nat → KV
  env : Nat → Env
  call : Nat → Call
  ops : Nat → List Event
  copy : Nat → State
  result : Nat → State
  sound : (state 0).Sound
  held : Holds cipher (kv 0) (state 0)
  made : ∀ i < length, committed cipher (env i) (copy i) (call i) = some (result i, ops i)
  stored : ∀ i < length, kv (i + 1) = (kv i).commit (ops i)
  read : ∀ i < length, cipher.reader.load (kv (i + 1)) = .ok (state (i + 1))

/-- Every write was made from exactly the directory that etcd held, and stores what JSON can
carry. -/
def History.Current {cipher : Cipher} (h : History cipher) : Prop :=
  (∀ i < h.length, h.copy i = h.state i) ∧ ∀ i ≤ h.length, (h.state i).Plain

variable {cipher : Cipher} {h : History cipher} {r : Reader}

theorem History.keeps (current : h.Current) {i : Nat} (within : i ≤ h.length) :
    (h.state i).Sound ∧ Holds cipher (h.kv i) (h.state i) ∧
      (h.state i).version = (h.state 0).version + i ∧ ∀ j, i = j + 1 → h.state i = h.result j := by
  induction i with
  | zero => exact ⟨h.sound, h.held, by simp, nofun⟩
  | succ i ih =>
    obtain ⟨sound, held, version, -⟩ := ih (Nat.le_of_succ_le within)
    have made := h.made i within
    rw [current.1 i within] at made
    obtain ⟨again, result⟩ := committed_attempt made
    obtain ⟨copy, -, -, eq⟩ := attempt_commit result
    have post := attempt_sound sound result
    have holds : Holds cipher (h.kv (i + 1)) (h.result i) := by
      rw [h.stored i within]
      exact held.commit sound post fun e => by rw [eq]
    have is_ : h.state (i + 1) = h.result i :=
      Except.ok.inj ((h.read i within).symm.trans (holds.load post))
    rw [is_]
    refine ⟨post, holds, ?_, fun j next => by rw [Nat.succ.inj next]⟩
    rw [attempt_version result, version]
    omega

theorem History.attempted (current : h.Current) {i : Nat} (within : i < h.length) :
    ∃ again, attempt cipher (h.env i) (h.state i) (h.call i) =
      .ok (.commit (h.state (i + 1)) (h.ops i) again) := by
  have made := h.made i within
  rw [current.1 i within, ← (h.keeps current within).2.2.2 i rfl] at made
  exact committed_attempt made

/-- A node: the version it has installed, and how many of the writes it was sent. -/
structure Node where
  cur : State
  seen : Nat

def Reader.receive (r : Reader) (cur : State) (batch : List Event) : State :=
  match r.applyAll cur batch with
  | .error _ => cur
  | .ok st => if r.validate st.versioned.file ≠ [] then cur else st.versioned

inductive WatchStep (h : History cipher) (r : Reader) : Node → Node → Prop where
  | batch {n : Node} {events : List Event} (more : n.seen < h.length)
      (delivered : events.Perm (h.ops n.seen)) :
      WatchStep h r n ⟨r.receive n.cur events, n.seen + 1⟩
  | reload {n : Node} {st : State} {w : Nat} (later : n.seen ≤ w) (within : w ≤ h.length)
      (loaded : r.load (h.kv w) = .ok st) : WatchStep h r n ⟨st, w⟩

/-- The node missed no write before the one it is sent next, and that write takes no
stored secret out. -/
def Follows (h : History cipher) (n : Node) : Prop :=
  n.cur.version = (h.state n.seen).version ∧
    (h.call n.seen).dropsSecret (h.state n.seen) = false

/-- A batch is sent only to a node that follows; a node reads everything at any time. -/
inductive CleanStep (h : History cipher) (r : Reader) : Node → Node → Prop where
  | batch {n : Node} {events : List Event} (more : n.seen < h.length)
      (delivered : events.Perm (h.ops n.seen)) (follows : Follows h n) :
      CleanStep h r n ⟨r.receive n.cur events, n.seen + 1⟩
  | reload {n : Node} {st : State} {w : Nat} (later : n.seen ≤ w) (within : w ≤ h.length)
      (loaded : r.load (h.kv w) = .ok st) : CleanStep h r n ⟨st, w⟩

structure Node.Installed (h : History cipher) (n : Node) : Prop where
  within : n.seen ≤ h.length
  state : ∃ v ≤ n.seen, n.cur = h.state v

theorem Reader.receive_cases (r : Reader) (cur : State) (batch : List Event) :
    r.receive cur batch = cur ∨
      ∃ st, r.applyAll cur batch = .ok st ∧ r.receive cur batch = st.versioned := by
  unfold Reader.receive
  split
  · exact .inl rfl
  rename_i st applied
  split
  · exact .inl rfl
  · exact .inr ⟨st, applied, rfl⟩

theorem CleanStep.installed {n n' : Node} (current : h.Current) (honest : r.Honest cipher)
    (installed : n.Installed h) (step : CleanStep h r n n') : n'.Installed h := by
  cases step with
  | @reload st w later within loaded =>
    obtain ⟨sound, held, -⟩ := h.keeps current within
    exact ⟨within, w, le_rfl, held.loaded sound honest loaded⟩
  | @batch events more delivered follows =>
    obtain ⟨v, old, eq⟩ := installed.state
    refine ⟨more, ?_⟩
    rcases r.receive_cases n.cur events with kept | ⟨st, applied, reached⟩
    · exact ⟨v, Nat.le_succ_of_le old, kept.trans eq⟩
    have here : v = n.seen := by
      have versions := follows.1
      rw [eq, (h.keeps current (old.trans installed.within)).2.2.1,
        (h.keeps current installed.within).2.2.1] at versions
      omega
    obtain ⟨again, made⟩ := h.attempted current more
    obtain ⟨copy, -, -, written⟩ := attempt_commit made
    rw [eq, here] at applied
    refine ⟨n.seen + 1, le_rfl, ?_⟩
    change r.receive n.cur events = _
    rw [reached]
    refine batch_applied (h.keeps current installed.within).1 (h.keeps current more).1 honest
      (fun e => by rw [delivered.mem_iff, written]) ?_ applied
    exact fun name stays gone => attempt_clear made follows.2 stays gone

theorem installed_run {n n' : Node} (current : h.Current) (honest : r.Honest cipher)
    (installed : n.Installed h) (run : ReflTransGen (CleanStep h r) n n') : n'.Installed h := by
  induction run with
  | refl => exact installed
  | tail _ step ih => exact step.installed current honest ih

/-- A node that starts from a full read, and is sent a batch only while it follows, has
installed at each version the directory etcd held at that version, if every write was made from
what etcd held. -/
theorem installs_stored_versions (cipher : Cipher) (h : History cipher) (r : Reader)
    (current : h.Current) (honest : r.Honest cipher) (start : Nat) (loaded : State)
    (within : start ≤ h.length) (started : r.load (h.kv start) = .ok loaded) (n : Node)
    (run : ReflTransGen (CleanStep h r) ⟨loaded, start⟩ n) :
    ∃ v ≤ h.length, n.cur.version = (h.state 0).version + v ∧ n.cur = h.state v ∧
      n.cur.ReadsBack ∧ cipher.reader.load (h.kv v) = .ok n.cur := by
  have installed : Node.Installed h ⟨loaded, start⟩ :=
    ⟨within, start, le_rfl,
      (h.keeps current within).2.1.loaded (h.keeps current within).1 honest started⟩
  have reached := installed_run current honest installed run
  obtain ⟨v, old, eq⟩ := reached.state
  have has := old.trans reached.within
  obtain ⟨sound, held, version, -⟩ := h.keeps current has
  rw [← eq] at sound held version
  exact ⟨v, has, version, eq, sound.readsBack (eq ▸ current.2 v has), held.load sound⟩

def addWest : Call := .putCluster "west" (eastCluster "env:WEST_SECRET") ""

def storedEast : State × List Event := wrote {} storeSecret

def addedWest : State × List Event := wrote storedEast.1 addWest

def twoWrites : History fleetCipher where
  length := 2
  state
    | 0 => {}
    | 1 => storedEast.1
    | _ => addedWest.1
  kv
    | 0 => ∅
    | 1 => KV.commit ∅ storedEast.2
    | _ => KV.commit (KV.commit ∅ storedEast.2) addedWest.2
  env := fun _ => operator
  call
    | 0 => storeSecret
    | _ => addWest
  ops
    | 0 => storedEast.2
    | _ => addedWest.2
  copy
    | 0 => {}
    | _ => storedEast.1
  result
    | 0 => storedEast.1
    | _ => addedWest.1
  sound := sound_empty
  held := holds_empty fleetCipher
  made := by
    intro i within
    rcases i with _ | _ | i
    · decide
    · decide
    · omega
  stored := by
    intro i within
    rcases i with _ | _ | i
    · rfl
    · rfl
    · omega
  read := by
    intro i within
    rcases i with _ | _ | i
    · decide
    · decide
    · omega

theorem twoWrites_current : twoWrites.Current := by
  refine ⟨fun i within => ?_, fun i _ => ?_⟩
  · rcases i with _ | _ | i
    · rfl
    · rfl
    · exact absurd within (by simp [twoWrites])
  · rcases i with _ | _ | i
    all_goals exact State.plain_of_empty rfl

def strayReader : Reader := (keyedCipher "stray:").reader

theorem strayReader_honest : strayReader.Honest fleetCipher := by
  intro nonce plain other opened
  have unopened := @cutPrefix_other "stray:" "fleet:" plain (by decide)
  change cutPrefix "stray:" ("fleet:" ++ plain) = some other at opened
  rw [unopened] at opened
  cases opened

/-- The node installs a version 2 without the cluster that version 1 added. -/
theorem passed_over_write_is_lost :
    strayReader.Honest fleetCipher ∧ strayReader.load (twoWrites.kv 0) = .ok (twoWrites.state 0) ∧
      ∃ n : Node, ReflTransGen (WatchStep twoWrites strayReader) ⟨twoWrites.state 0, 0⟩ n ∧
        n.cur.version = (twoWrites.state 2).version ∧ n.cur ≠ twoWrites.state 2 := by
  refine ⟨strayReader_honest, by decide, _,
    .tail (.tail .refl (.batch (by decide) (List.Perm.refl _)))
      (.batch (by decide) (List.Perm.refl _)), ?_, ?_⟩
  · decide
  · decide

theorem twoWrites_installed : ∃ v ≤ 2, ∃ n : Node,
      ReflTransGen (CleanStep twoWrites fleetCipher.reader) ⟨{}, 0⟩ n ∧
        n.cur.version = 1 ∧ n.cur = twoWrites.state v := by
  have started : fleetCipher.reader.load (twoWrites.kv 0) = .ok {} := by decide
  have run : ReflTransGen (CleanStep twoWrites fleetCipher.reader) ⟨{}, 0⟩
      ⟨fleetCipher.reader.receive {} storedEast.2, 1⟩ :=
    .tail .refl (.batch (by decide) (List.Perm.refl _) ⟨rfl, by decide⟩)
  obtain ⟨v, within, -, eq, -⟩ := installs_stored_versions fleetCipher twoWrites
    fleetCipher.reader twoWrites_current fleetCipher.reader_honest 0 {} (Nat.zero_le _) started _
      run
  exact ⟨v, within, _, run, by decide, eq⟩

end Shunt.Cp
