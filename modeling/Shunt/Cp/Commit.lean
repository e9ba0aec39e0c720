/-
Many writers of one directory.  Each call applies its function to the state its node
holds and writes the difference under a compare on the version; a call that loses
waits for its node to have the newer version and applies its function again.
-/

import Shunt.Cp.Agree

namespace Shunt.Cp

open Function (update)

open Directory List Relation

def maxAttempts : Nat := 8

/-- Where a call is.  `given` is the call as it was made and `now` the call as its next
attempt runs it. -/
inductive Phase (N : Type) where
  | idle
  | running (node : N) (given now : Call) (tries : Nat)
  | writing (node : N) (given now again : Call) (tries : Nat) (cur next : State) (ops : List Event)
  -- the call has returned an error, and its transaction may still be made
  | adrift (given now : Call) (cur next : State) (ops : List Event)
  | won
  | lost

/-- A committed write: the call that made it, and the state it stored. -/
structure Entry (C : Type) where
  by_ : C
  given : Call
  ran : Call
  state : State

/-- The control nodes and etcd.  The log has the newest write first. -/
structure Fleet (N C : Type) where
  kv : KV
  first : State
  log : List (Entry C)
  cache : N → State
  phase : C → Phase N

variable {N C : Type}

def Fleet.states (f : Fleet N C) : List State := f.log.map Entry.state ++ [f.first]

def Fleet.current (f : Fleet N C) : State := (f.log.head?.map Entry.state).getD f.first

inductive Chain (cipher : Cipher) (first : State) : List (Entry C) → Prop where
  | nil : Chain cipher first []
  | cons {e : Entry C} {rest : List (Entry C)} (env : Env) (ops : List Event)
      (made : committed cipher env ((rest.head?.map Entry.state).getD first) e.ran =
        some (e.state, ops)) (prev : Chain cipher first rest) :
      Chain cipher first (e :: rest)

theorem current_mem (f : Fleet N C) : f.current ∈ f.states := by
  cases log : f.log with
  | nil | cons => simp [Fleet.current, Fleet.states, log]

theorem Chain.versions {cipher : Cipher} {first : State} {log : List (Entry C)}
    (chain : Chain cipher first log) :
    ∀ (i : Nat) (st : State), (log.map Entry.state ++ [first])[i]? = some st →
      st.version + i = first.version + log.length := by
  induction chain with
  | nil =>
    intro i st got
    cases i with
    | zero =>
      simp only [map_nil, nil_append, getElem?_cons_zero, Option.some.injEq] at got
      simp [got]
    | succ => simp at got
  | @cons e rest env ops made prev ih =>
    intro i st got
    cases i with
    | zero =>
      simp only [map_cons, cons_append, getElem?_cons_zero, Option.some.injEq] at got
      obtain ⟨again, res⟩ := committed_attempt made
      have newer := attempt_version res
      have older := ih 0 ((rest.head?.map Entry.state).getD first) (by cases rest <;> rfl)
      rw [← got, newer, length_cons]
      push_cast at older ⊢
      omega
    | succ i =>
      simp only [map_cons, cons_append, getElem?_cons_succ] at got
      have older := ih i st got
      rw [length_cons]
      push_cast
      omega

theorem Chain.version_inj {cipher : Cipher} {first a b : State} {log : List (Entry C)}
    (chain : Chain cipher first log) (left : a ∈ log.map Entry.state ++ [first])
    (right : b ∈ log.map Entry.state ++ [first]) (eq : a.version = b.version) : a = b := by
  obtain ⟨i, atI⟩ := mem_iff_getElem?.mp left
  obtain ⟨j, atJ⟩ := mem_iff_getElem?.mp right
  have here := chain.versions i a atI
  have there := chain.versions j b atJ
  have equal : i = j := by omega
  rw [equal, atJ] at atI
  exact (Option.some.inj atI).symm

theorem Chain.made {cipher : Cipher} {first : State} {log : List (Entry C)}
    (chain : Chain cipher first log)
    {newer older : List (Entry C)} {e : Entry C} (split : log = newer ++ e :: older) :
    ∃ env ops, committed cipher env ((older.head?.map Entry.state).getD first) e.ran =
      some (e.state, ops) := by
  induction chain generalizing newer with
  | nil => simp at split
  | @cons head rest env ops made prev ih =>
    cases newer with
    | nil =>
      simp only [nil_append, List.cons.injEq] at split
      obtain ⟨rfl, rfl⟩ := split
      exact ⟨env, ops, made⟩
    | cons =>
      simp only [cons_append, List.cons.injEq] at split
      exact ih split.2

def Phase.Ready (cipher : Cipher) (stored : List State) : Phase N → Prop
  | .writing _ _ now again _ cur next ops =>
    cur ∈ stored ∧ ∃ env, attempt cipher env cur now = .ok (.commit next ops again)
  | .adrift _ now cur next ops =>
    cur ∈ stored ∧ ∃ env again, attempt cipher env cur now = .ok (.commit next ops again)
  | _ => True

structure Fleet.Inv (cipher : Cipher) (f : Fleet N C) : Prop where
  sound : ∀ st ∈ f.states, st.Sound
  holds : Holds cipher f.kv f.current
  chain : Chain cipher f.first f.log
  cached : ∀ node, f.cache node ∈ f.states
  ready : ∀ c, (f.phase c).Ready cipher f.states
  own : ∀ e ∈ f.log, f.phase e.by_ = .won

variable {cipher : Cipher} {f g : Fleet N C} {c : C}

theorem Phase.Ready.mono {p : Phase N} {stored more : List State} (ready : p.Ready cipher stored)
    (among : stored ⊆ more) : p.Ready cipher more := by
  cases p with
  | writing | adrift =>
    exact ⟨among ready.1, ready.2⟩
  | _ => trivial

/-- Every node holds the first state, and no call was made. -/
structure Fleet.Start (cipher : Cipher) (f : Fleet N C) : Prop where
  sound : f.first.Sound
  holds : Holds cipher f.kv f.first
  empty : f.log = []
  fresh : ∀ node, f.cache node = f.first
  idle : ∀ c, f.phase c = .idle

theorem Fleet.Start.inv (start : f.Start cipher) : f.Inv cipher where
  sound := by
    intro st mem
    rw [Fleet.states, start.empty] at mem
    rw [mem_singleton.mp mem]
    exact start.sound
  holds := by
    rw [Fleet.current, start.empty]
    exact start.holds
  chain := by
    rw [start.empty]
    exact .nil
  cached := by
    intro node
    rw [start.fresh, Fleet.states, start.empty]
    simp
  ready := by
    intro c
    rw [start.idle c]
    trivial
  own := by
    intro e mem
    rw [start.empty] at mem
    cases mem

theorem Holds.compared {kv : KV} {st : State} {version : Int} (holds : Holds cipher kv st)
    (unchanged : kv.compare version) : st.version = version := by
  have slot : slotOf kVersion = .version := by decide
  unfold KV.compare at unchanged
  split at unchanged
  · rename_i zero
    have missing := holds.absent kVersion (of_decide_eq_true unchanged)
    rw [slot] at missing
    rw [zero]
    exact Eq.symm missing
  rcases holds.present kVersion _ (of_decide_eq_true unchanged) with ⟨k, unknown⟩ | written
  · rw [slot] at unknown
    cases unknown
  rw [slot] at written
  generalize text : kVersion = key at written
  cases written
  rfl

theorem Fleet.Inv.compared (inv : f.Inv cipher) {cur : State} (stored : cur ∈ f.states)
    (unchanged : f.kv.compare cur.version) : cur = f.current :=
  inv.chain.version_inj stored (current_mem f) (inv.holds.compared unchanged).symm

section

variable [DecidableEq C]

def Fleet.set (f : Fleet N C) (c : C) (p : Phase N) : Fleet N C :=
  { f with phase := update f.phase c p }

def Fleet.commit (f : Fleet N C) (c : C) (given now : Call) (next : State) (ops : List Event)
    (p : Phase N) : Fleet N C :=
  { f.set c p with kv := f.kv.commit ops, log := ⟨c, given, now, next⟩ :: f.log }

@[simp] theorem Fleet.set_phase (p : Phase N) : (f.set c p).phase c = p :=
  Function.update_self ..

theorem Fleet.set_set (p q : Phase N) : (f.set c p).set c q = f.set c q := by
  simp only [Fleet.set, Function.update_idem]

theorem Fleet.set_commit {given now : Call} {next : State} {ops : List Event} (p q : Phase N) :
    (f.set c p).commit c given now next ops q = f.commit c given now next ops q := by
  simp only [Fleet.commit, Fleet.set, Function.update_idem]

theorem Fleet.Inv.set (inv : f.Inv cipher) {p : Phase N} (open_ : f.phase c ≠ .won)
    (ready : p.Ready cipher f.states) : (f.set c p).Inv cipher where
  sound := inv.sound
  holds := inv.holds
  chain := inv.chain
  cached := inv.cached
  ready := by
    intro other
    change (update f.phase c p other).Ready cipher f.states
    rw [Function.update_apply]
    split
    · exact ready
    · exact inv.ready other
  own := by
    intro e mem
    have ne : e.by_ ≠ c := by
      intro eq
      have won := inv.own e mem
      rw [eq] at won
      exact open_ won
    simpa [Fleet.set, ne] using inv.own e mem

theorem Fleet.Inv.commit (inv : f.Inv cipher) {env : Env} {given now again : Call}
    {cur next : State} {ops : List Event} (open_ : f.phase c ≠ .won) (stored : cur ∈ f.states)
    (made : Cp.attempt cipher env cur now = .ok (.commit next ops again))
    (unchanged : f.kv.compare cur.version) : (f.commit c given now next ops .won).Inv cipher := by
  have newest := inv.compared stored unchanged
  have prev := inv.sound cur stored
  have post := attempt_sound prev made
  have grown : (f.commit c given now next ops .won).states = next :: f.states := rfl
  have other := inv.set open_ (p := .won) trivial
  refine ⟨?_, ?_, ?_, ?_, ?_, ?_⟩
  · intro st mem
    rw [grown] at mem
    rcases mem_cons.mp mem with rfl | old
    · exact post
    · exact inv.sound st old
  · obtain ⟨copy, -, -, written⟩ := attempt_commit made
    have holds := inv.holds
    rw [← newest] at holds
    rw [written]
    exact holds.commit prev post fun e => Iff.rfl
  · refine .cons env ops ?_ inv.chain
    change committed cipher env f.current now = some (next, ops)
    rw [← newest, committed, made]
  · intro node
    rw [grown]
    exact mem_cons_of_mem _ (inv.cached node)
  · intro d
    rw [grown]
    exact (other.ready d).mono (subset_cons_self _ _)
  intro e mem
  rcases mem_cons.mp mem with rfl | old
  · simp [Fleet.commit, Fleet.set]
  · exact other.own e old

variable [DecidableEq N]

inductive Step (cipher : Cipher) : Fleet N C → Fleet N C → Prop where
  | begin {f c : _} (node : N) (call : Call) (free : f.phase c = .idle)
      (ok : call.precheck = none) : Step cipher f (f.set c (.running node call.given call.given 0))
  -- a node holds at each version the state etcd had at that version
  | install {f : _} (node : N) {st : _} (stored : st ∈ f.states) :
      Step cipher f { f with cache := update f.cache node st }
  | attempt {f c node given now again tries next ops : _} (env : Env)
      (at_ : f.phase c = .running node given now tries) (left : tries < maxAttempts)
      (made : Cp.attempt cipher env (f.cache node) now = .ok (.commit next ops again)) :
      Step cipher f (f.set c (.writing node given now again tries (f.cache node) next ops))
  -- the function refused, or found nothing to change, or the call has no attempt left
  | end_ {f c node given now tries : _}
      (at_ : f.phase c = .running node given now tries) : Step cipher f (f.set c .lost)
  | win {f c node given now again tries cur next ops : _}
      (at_ : f.phase c = .writing node given now again tries cur next ops)
      (unchanged : f.kv.compare cur.version = true) :
      Step cipher f (f.commit c given now next ops .won)
  | lose {f c node given now again tries cur next ops : _}
      (at_ : f.phase c = .writing node given now again tries cur next ops)
      (diff : f.kv.compare cur.version = false) :
      Step cipher f (f.set c (.running node given again (tries + 1)))
  | noReply {f c node given now again tries cur next ops : _}
      (at_ : f.phase c = .writing node given now again tries cur next ops) :
      Step cipher f (f.set c (.adrift given now cur next ops))
  | lateWin {f c given now cur next ops : _} (at_ : f.phase c = .adrift given now cur next ops)
      (unchanged : f.kv.compare cur.version = true) :
      Step cipher f (f.commit c given now next ops .won)
  -- a transaction without a reply that finds another version, or that never arrived
  | lateLose {f c given now cur next ops : _}
      (at_ : f.phase c = .adrift given now cur next ops) : Step cipher f (f.set c .lost)

theorem Step.inv (inv : f.Inv cipher) (step : Step cipher f g) : g.Inv cipher := by
  cases step with
  | @begin c node call free => exact inv.set (by simp [free]) trivial
  | install node stored =>
    refine ⟨inv.sound, inv.holds, inv.chain, fun other => ?_, inv.ready, inv.own⟩
    change update f.cache node _ other ∈ f.states
    rw [Function.update_apply]
    split
    · exact stored
    · exact inv.cached other
  | attempt env at_ left made =>
    exact inv.set (by simp [at_]) ⟨inv.cached _, env, made⟩
  | end_ at_ | lose at_ | lateLose at_ => exact inv.set (by simp [at_]) trivial
  | @win c node given now again tries cur next ops at_ unchanged =>
    have ready := inv.ready c
    rw [at_] at ready
    obtain ⟨stored, env, made⟩ := ready
    exact inv.commit (by simp [at_]) stored made unchanged
  | @noReply c node given now again tries cur next ops at_ =>
    have ready := inv.ready c
    rw [at_] at ready
    obtain ⟨stored, env, made⟩ := ready
    exact inv.set (by simp [at_]) ⟨stored, env, again, made⟩
  | @lateWin c given now cur next ops at_ unchanged =>
    have ready := inv.ready c
    rw [at_] at ready
    obtain ⟨stored, env, again, made⟩ := ready
    exact inv.commit (by simp [at_]) stored made unchanged

theorem run_inv (inv : f.Inv cipher) (run : ReflTransGen (Step cipher) f g) : g.Inv cipher := by
  induction run with
  | refl => exact inv
  | tail _ step ih => exact step.inv ih

theorem Step.kv_eq (step : Step cipher f g) :
    g.kv = f.kv ∧ g.log = f.log ∨ ∃ e, g.log = e :: f.log ∧ g.phase e.by_ = .won := by
  cases step with
  | @win c node given now again tries cur next | @lateWin c given now cur next =>
    exact .inr ⟨⟨c, given, now, next⟩, rfl, by simp [Fleet.commit, Fleet.set]⟩
  | _ => exact .inl ⟨rfl, rfl⟩

theorem commits_alone {node : N} {given now again : Call} {tries : Nat} {next : State}
    {ops : List Event} (env : Env) (at_ : f.phase c = .running node given now tries)
    (left : tries < maxAttempts)
    (made : Cp.attempt cipher env (f.cache node) now = .ok (.commit next ops again))
    (unchanged : f.kv.compare (f.cache node).version) :
    ReflTransGen (Step cipher) f (f.commit c given now next ops .won) := by
  have tried : Step cipher f
      (f.set c (.writing node given now again tries (f.cache node) next ops)) :=
    .attempt env at_ left made
  have stored : Step cipher (f.set c (.writing node given now again tries (f.cache node) next ops))
      (f.commit c given now next ops .won) := by
    rw [← Fleet.set_commit]
    exact .win (Fleet.set_phase _) unchanged
  exact .tail (.single tried) stored

/-- In every run whose committing calls run their functions as they were given and store what JSON
can carry: the texts read as the records, etcd holds the newest state of the log, the versions of
the log are consecutive, each is what the call that stored it makes of exactly the one before, and a
call that has lost is in no entry of the log, outside of which nothing is written. -/
theorem no_update_lost (cipher : Cipher) (f g : Fleet N C) (start : f.Start cipher)
    (run : ReflTransGen (Step cipher) f g) (asGiven : ∀ e ∈ g.log, e.ran = e.given)
    (plain : ∀ st ∈ g.states, st.Plain) :
    (∀ st ∈ g.states, st.ReadsBack) ∧ cipher.reader.load g.kv = .ok g.current ∧
      (∀ (i : Nat) (st : State), g.states.reverse[i]? = some st →
        st.version = g.first.version + i) ∧
      (∀ (newer older : List (Entry C)) (e : Entry C), g.log = newer ++ e :: older →
        ∃ env ops, committed cipher env ((older.head?.map Entry.state).getD g.first) e.given =
          some (e.state, ops)) ∧ (∀ c, g.phase c = .lost → ∀ e ∈ g.log, e.by_ ≠ c) ∧
      ∀ h, Step cipher g h → h.kv = g.kv ∧ h.log = g.log ∨
        ∃ e, h.log = e :: g.log ∧ h.phase e.by_ = .won := by
  have inv := run_inv start.inv run
  refine ⟨fun st mem => (inv.sound st mem).readsBack (plain st mem),
    inv.holds.load (inv.sound _ (current_mem g)), ?_, ?_, ?_, fun h step => step.kv_eq⟩
  · intro i st got
    have lt : i < g.states.length := by
      rw [← length_reverse]
      exact (List.getElem?_eq_some_iff.mp got).1
    rw [getElem?_reverse lt] at got
    have version := inv.chain.versions _ st got
    have length : g.states.length = g.log.length + 1 := by simp [Fleet.states]
    omega
  · intro newer older e split
    rw [← asGiven e (by simp [split])]
    exact inv.chain.made split
  intro c lost e mem eq
  have won := inv.own e mem
  rw [eq, lost] at won
  cases won

end

def clientKey (buckets : List String) : Credential := ⟨"AKIA", "hunter2", "default", buckets⟩

def grant (buckets : List String) : Call := .addKey (clientKey buckets)

def revoke : Call := .removeKey "AKIA"

def emptyFleet : Fleet Bool Nat :=
  { kv := ∅, first := {}, log := [], cache := fun _ => {}, phase := fun _ => .idle }

theorem emptyFleet_start : emptyFleet.Start fleetCipher :=
  ⟨sound_empty, holds_empty fleetCipher, rfl, fun _ => rfl, fun _ => rfl⟩

def granted : State × List Event := wrote {} (grant ["a"])

def grantedMore : State × List Event := wrote granted.1 (grant ["b"])

def revoked : State × List Event := wrote granted.1 revoke

def grantedAgain : State × List Event := wrote revoked.1 (grant ["a", "b"])

def Fleet.caughtUp (f : Fleet Bool Nat) : Fleet Bool Nat := { f with cache := fun _ => f.current }

theorem caughtUp_run (f : Fleet Bool Nat) : ReflTransGen (Step cipher) f f.caughtUp := by
  have first : Step cipher f { f with cache := update f.cache false f.current } :=
    .install false (current_mem f)
  have second : Step cipher { f with cache := update f.cache false f.current }
      { f with cache := update (update f.cache false f.current) true f.current } :=
    .install true (current_mem f)
  have both : update (update f.cache false f.current) true f.current =
      fun _ => f.current := by
    funext node
    cases node <;> rfl
  rw [both] at second
  exact .tail (.single first) second

def fleetGranted : Fleet Bool Nat :=
  ((emptyFleet.commit 0 (grant ["a"]) (grant ["a"]) granted.1 granted.2 .won)).caughtUp

def fleetRevoked : Fleet Bool Nat :=
  ((fleetGranted.set 1 (.writing false (grant ["b"]) (grant ["b"]) (grant ["a", "b"]) 0 granted.1
    grantedMore.1 grantedMore.2)).commit 2 revoke revoke revoked.1 revoked.2 .won).caughtUp

def fleetRegranted : Fleet Bool Nat :=
  fleetRevoked.commit 1 (grant ["b"]) (grant ["a", "b"]) grantedAgain.1 grantedAgain.2 .won

theorem fleetGranted_run : ReflTransGen (Step fleetCipher) emptyFleet fleetGranted := by
  have begun : Step fleetCipher emptyFleet
      (emptyFleet.set 0 (.running false (grant ["a"]) (grant ["a"]) 0)) :=
    .begin false (grant ["a"]) rfl (by decide)
  have stored : ReflTransGen (Step fleetCipher)
      (emptyFleet.set 0 (.running false (grant ["a"]) (grant ["a"]) 0))
      (emptyFleet.commit 0 (grant ["a"]) (grant ["a"]) granted.1 granted.2 .won) := by
    rw [← Fleet.set_commit]
    exact commits_alone operator (Fleet.set_phase _) (by decide) rfl (by decide)
  exact ((ReflTransGen.single begun).trans stored).trans (caughtUp_run _)

theorem fleetRevoked_run : ReflTransGen (Step fleetCipher) fleetGranted fleetRevoked := by
  have begun : Step fleetCipher fleetGranted
      (fleetGranted.set 1 (.running false (grant ["b"]) (grant ["b"]) 0)) :=
    .begin false (grant ["b"]) rfl (by decide)
  have tried : Step fleetCipher (fleetGranted.set 1 (.running false (grant ["b"]) (grant ["b"]) 0))
      (fleetGranted.set 1 (.writing false (grant ["b"]) (grant ["b"]) (grant ["a", "b"]) 0 granted.1
        grantedMore.1 grantedMore.2)) := by
    have res : Cp.attempt fleetCipher operator granted.1 (grant ["b"]) =
        .ok (.commit grantedMore.1 grantedMore.2 (grant ["a", "b"])) := rfl
    have made : Step fleetCipher
        (fleetGranted.set 1 (.running false (grant ["b"]) (grant ["b"]) 0)) _ :=
      .attempt operator (Fleet.set_phase (.running false (grant ["b"]) (grant ["b"]) 0))
        (by decide) res
    rw [Fleet.set_set] at made
    exact made
  generalize waiting : fleetGranted.set 1 (.writing false (grant ["b"]) (grant ["b"])
    (grant ["a", "b"]) 0 granted.1 grantedMore.1 grantedMore.2) = f at tried
  have rival : Step fleetCipher f (f.set 2 (.running true revoke revoke 0)) :=
    .begin true revoke (by rw [← waiting]; rfl) (by decide)
  have stored : ReflTransGen (Step fleetCipher) (f.set 2 (.running true revoke revoke 0))
      (f.commit 2 revoke revoke revoked.1 revoked.2 .won) := by
    rw [← Fleet.set_commit]
    subst waiting
    exact commits_alone operator (Fleet.set_phase (.running true revoke revoke 0)) (by decide) rfl
      (by decide)
  rw [fleetRevoked, waiting]
  exact ((((ReflTransGen.single begun).tail tried).tail rival).trans stored).trans (caughtUp_run _)

theorem fleetRevoked_empty : ∀ st ∈ fleetRevoked.states, st.file.placements = ∅ := by
  decide

theorem fleetRegranted_run : ReflTransGen (Step fleetCipher) fleetRevoked fleetRegranted := by
  have beaten : Step fleetCipher fleetRevoked
      (fleetRevoked.set 1 (.running false (grant ["b"]) (grant ["a", "b"]) 1)) :=
    .lose rfl (by decide)
  have stored : ReflTransGen (Step fleetCipher)
      (fleetRevoked.set 1 (.running false (grant ["b"]) (grant ["a", "b"]) 1)) fleetRegranted := by
    rw [fleetRegranted, ← Fleet.set_commit]
    exact commits_alone operator
      (Fleet.set_phase (.running false (grant ["b"]) (grant ["a", "b"]) 1)) (by decide) rfl
      (by decide)
  exact (ReflTransGen.single beaten).trans stored

theorem committed_addKey {env : Env} {st next : State} {ops : List Event} {k : Credential}
    (gone : st.creds[k.accessKey]? = none)
    (made : committed cipher env st (.addKey k) = some (next, ops)) :
    next.creds[k.accessKey]? = some k := by
  obtain ⟨again, res⟩ := committed_attempt made
  obtain ⟨copy, ran, candidate, -⟩ := attempt_commit res
  simp only [Call.run, gone, Except.ok.injEq, Ran.changed.injEq] at ran
  rw [(candidate_ok candidate).creds, ← ran.1]
  exact Std.ExtTreeMap.getElem?_insert_self

/-- The removed key is stored again with the bucket it had lost: what the function made of
the version it was first applied to, not of the version it follows. -/
theorem retried_grant_restores : ∃ (g : Fleet Bool Nat) (e : Entry Nat) (older : List (Entry Nat)),
      ReflTransGen (Step fleetCipher) emptyFleet g ∧ g.log = e :: older ∧
        ∀ env ops, committed fleetCipher env ((older.head?.map Entry.state).getD g.first) e.given ≠
          some (e.state, ops) := by
  refine ⟨fleetRegranted, ⟨1, grant ["b"], grant ["a", "b"], grantedAgain.1⟩, fleetRevoked.log,
    (fleetGranted_run.trans fleetRevoked_run).trans fleetRegranted_run, rfl, ?_⟩
  intro env ops made
  have gone : revoked.1.creds["AKIA"]? = none := by decide
  have stored := committed_addKey (k := clientKey ["b"]) gone made
  revert stored
  decide

section

variable [DecidableEq N] [DecidableEq C] {h : Fleet N C}

theorem states_kept (run : ReflTransGen (Step cipher) f g) : f.states ⊆ g.states := by
  induction run with
  | refl => exact Subset.refl _
  | tail _ step ih =>
    refine Subset.trans ih ?_
    cases step with
    | win | lateWin => exact subset_cons_self _ _
    | _ => exact Subset.refl _

/-- However the calls interleave and whatever their retries run, if they store what JSON can carry:
every directory etcd ever holds passes its checks and is read as it was stored, and a version number
names one directory for good. -/
theorem versions_identify (start : f.Start cipher) (run : ReflTransGen (Step cipher) f g)
    (later : ReflTransGen (Step cipher) g h) (plain : ∀ st ∈ h.states, st.Plain) :
    (∀ st ∈ h.states, st.Sound ∧ st.ReadsBack) ∧
      ∀ a ∈ g.states, ∀ b ∈ h.states, a.version = b.version → a = b := by
  have inv := run_inv start.inv (run.trans later)
  refine ⟨fun st mem => ⟨inv.sound st mem, (inv.sound st mem).readsBack (plain st mem)⟩,
    fun a old b stored eq => ?_⟩
  exact inv.chain.version_inj (states_kept later old) stored eq

end

theorem granted_stored : ∃ g : Fleet Bool Nat, ReflTransGen (Step fleetCipher) emptyFleet g ∧
      g.log.length = 1 ∧ fleetCipher.reader.load g.kv = .ok g.current := by
  refine ⟨fleetGranted, fleetGranted_run, rfl, ?_⟩
  refine (no_update_lost fleetCipher emptyFleet fleetGranted emptyFleet_start fleetGranted_run
    ?_ ?_).2.1
  · intro e mem
    rw [mem_singleton.mp (show e ∈ [_] from mem)]
  · exact fun st mem =>
      State.plain_of_empty (fleetRevoked_empty st (states_kept fleetRevoked_run mem))

theorem granted_for_good : granted.1 ∈ fleetRevoked.states ∧
    ∀ st ∈ fleetRevoked.states, granted.1.version = st.version → granted.1 = st :=
  ⟨states_kept fleetRevoked_run mem_cons_self,
    (versions_identify emptyFleet_start fleetGranted_run fleetRevoked_run fun st mem =>
      State.plain_of_empty (fleetRevoked_empty st mem)).2 _ mem_cons_self⟩

end Shunt.Cp
