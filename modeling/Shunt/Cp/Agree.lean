/-
Following the watch and reading every key.  Every write puts or deletes the keys at
which the next state differs, with the values of the next state, so a full read of
what etcd then holds gives that state.  A node that applies the same changes to its
own copy arrives there too, unless the write took a cluster's secret out.
-/

import Shunt.Cp.Replay
import Shunt.Cp.Sound

namespace Shunt.Cp

open Config (Cluster)
open Directory List Std.ExtTreeMap
open Library (mapDiff mem_mapDiff mapDiff_covers foldl_settles)

variable {cipher : Cipher} {env : Env} {cur next copy st : State} {call again : Call}
  {ops : List Event} {slot : Slot} {e : Event} {r : Reader} {kv : KV}
variable {name : String} {d : Delta}

inductive Written (cipher : Cipher) (st : State) : Slot → Event → Prop where
  | cluster {name c : _} (env : Env) (got : st.file.clusters[name]? = some c) :
      Written cipher st (.cluster name)
        (.put (kClusters ++ name) (.cluster (sealedCluster cipher env st name c)))
  | noCluster {name : _} (absent : st.file.clusters[name]? = none)
      (noSecret : st.secrets[name]? = none) :
      Written cipher st (.cluster name) (.delete (kClusters ++ name))
  | tenant {name t : _} (got : st.file.tenants[name]? = some t) :
      Written cipher st (.tenant name) (.put (kTenants ++ name) (.tenant t))
  | noTenant {name : _} (absent : st.file.tenants[name]? = none) :
      Written cipher st (.tenant name) (.delete (kTenants ++ name))
  | placement {k p : _} (got : st.file.placements[k]? = some p) :
      Written cipher st (.placement k) (.put (kPlacements ++ k) (.placement p))
  | noPlacement {k : _} (absent : st.file.placements[k]? = none) :
      Written cipher st (.placement k) (.delete (kPlacements ++ k))
  | credential {accessKey c : _} (env : Env) (got : st.creds[accessKey]? = some c) :
      Written cipher st (.credential accessKey)
        (.put (kCredentials ++ accessKey) (.credential (sealedKey cipher env accessKey c)))
  | noCredential {accessKey : _} (absent : st.creds[accessKey]? = none) :
      Written cipher st (.credential accessKey) (.delete (kCredentials ++ accessKey))
  | generation {res g : _} (got : st.file.generations[res]? = some g) :
      Written cipher st (.generation res) (.put (kGenerations ++ res) (.number g))
  | noGeneration {res : _} (absent : st.file.generations[res]? = none) :
      Written cipher st (.generation res) (.delete (kGenerations ++ res))
  | schema : Written cipher st .schema (.put kSchema (.number st.file.schema))
  | identity : Written cipher st .identity (.put kIdentity (.identity st.file.identity))
  | version : Written cipher st .version (.put kVersion (.number st.version))
  | audit (v : String) (c : Change) :
      Written cipher st (.change v) (.put (kChanges ++ v) (.change c))
  | noAudit (v : String) : Written cipher st (.change v) (.delete (kChanges ++ v))

def Event.key : Event → String
  | .put key _ => key
  | .delete key => key

theorem Event.slot_eq (e : Event) : e.slot = slotOf e.key := by
  cases e with
  | put | delete => rfl

theorem Written.key (written : Written cipher st slot e) : e.key = slot.text := by
  cases written with
  | _ => rfl

theorem Written.known (written : Written cipher st slot e) (key : String) :
    slot ≠ .unknown key := by
  cases written with
  | _ => simp

theorem Written.slotOf_event (written : Written cipher st slot e) : e.slot = slot := by
  rw [e.slot_eq, written.key, slotOf_text slot written.known]

theorem State.Sound.noSecret (sound : st.Sound) (absent : st.file.clusters[name]? = none) :
    st.secrets[name]? = none := by
  cases secret : st.secrets[name]? with
  | none => rfl
  | some plain =>
    have known := (sound.held name plain secret).1
    rw [← isSome_getElem?_iff_mem, absent] at known
    cases known

theorem mem_writes (sound : next.Sound) (mem : e ∈ writes cipher env call cur next) :
    ∃ slot, Written cipher next slot e := by
  simp only [writes, diff, mem_append] at mem
  rcases mem with ((((((((clusters | tenants) | placements) | schema) | identity) |
    generations) | credentials)) | ends) | old
  · rcases mem_mapDiff clusters with ⟨name, c, got, rfl⟩ | ⟨name, absent, rfl⟩
    · exact ⟨_, .cluster env got⟩
    · exact ⟨_, .noCluster absent (sound.noSecret absent)⟩
  · rcases mem_mapDiff tenants with ⟨name, t, got, rfl⟩ | ⟨name, absent, rfl⟩
    · exact ⟨_, .tenant got⟩
    · exact ⟨_, .noTenant absent⟩
  · rcases mem_mapDiff placements with ⟨k, p, got, rfl⟩ | ⟨k, absent, rfl⟩
    · exact ⟨_, .placement got⟩
    · exact ⟨_, .noPlacement absent⟩
  · split at schema
    · rw [mem_singleton.mp schema]
      exact ⟨_, .schema⟩
    · cases schema
  · split at identity
    · rw [mem_singleton.mp identity]
      exact ⟨_, .identity⟩
    · cases identity
  · rcases mem_mapDiff generations with ⟨res, g, got, rfl⟩ | ⟨res, absent, rfl⟩
    · exact ⟨_, .generation got⟩
    · exact ⟨_, .noGeneration absent⟩
  · rcases mem_mapDiff credentials with ⟨ak, c, got, rfl⟩ | ⟨ak, absent, rfl⟩
    · exact ⟨_, .credential env got⟩
    · exact ⟨_, .noCredential absent⟩
  · rcases mem_cons.mp ends with rfl | audit
    · exact ⟨_, .version⟩
    · rw [mem_singleton.mp audit]
      exact ⟨_, .audit _ _⟩
  split at old
  · rw [mem_singleton.mp old]
    exact ⟨_, .noAudit _⟩
  · cases old

theorem diff_entry {V : Type} (put : String → V → Event) (delete : String → Event)
    (eq : String → V → V → Bool) (prev post : StrMap V) {k text : String}
    (puts : ∀ v, (put k v).key = text) (deletes : (delete k).key = text)
    (equal : ∀ old v, eq k old v → old = v) :
    prev[k]? = post[k]? ∨ ∃ e ∈ mapDiff put delete eq prev post, e.key = text := by
  rcases @mapDiff_covers _ _ _ _ _ _ put delete eq prev post k with
    ⟨old, v, atOld, atNew, kept⟩ | ⟨noOld, noNew⟩ | ⟨v, -, mem⟩ | ⟨-, mem⟩
  · rw [atOld, atNew, equal old v kept]
    exact .inl rfl
  · rw [noOld, noNew]
    exact .inl rfl
  · exact .inr ⟨_, mem, puts v⟩
  · exact .inr ⟨_, mem, deletes⟩

theorem secret_eq (prev : cur.Sound) (post : next.Sound)
    (eq : secretIn cur.secrets name = secretIn next.secrets name) :
    cur.secrets[name]? = next.secrets[name]? := by
  simp only [secretIn, getD_eq_getD_getElem?] at eq
  cases was : cur.secrets[name]? with
  | none =>
    cases is_ : next.secrets[name]? with
    | none => rfl
    | some plain =>
      rw [was, is_] at eq
      exact absurd eq.symm (post.held name plain is_).2
  | some old =>
    cases is_ : next.secrets[name]? with
    | none =>
      rw [was, is_] at eq
      exact absurd eq (prev.held name old was).2
    | some =>
      rw [was, is_] at eq
      exact congrArg some eq

theorem clusters_cover (prev : cur.Sound) (post : next.Sound) (name : String) :
    SameAt cur next (.cluster name) ∨
      ∃ e ∈ diffClusters cipher env cur next, e.key = kClusters ++ name := by
  rcases @mapDiff_covers _ _ _ _ _ _
    (fun name c => Event.put (kClusters ++ name) (.cluster (sealedCluster cipher env next name c)))
    (fun name => .delete (kClusters ++ name))
    (fun name old c => decide (old = c) &&
      decide (secretIn cur.secrets name = secretIn next.secrets name))
    cur.file.clusters next.file.clusters name with
    ⟨old, c, atOld, atNew, kept⟩ | ⟨noOld, noNew⟩ | ⟨c, -, mem⟩ | ⟨-, mem⟩
  · simp only [Bool.and_eq_true, decide_eq_true_eq] at kept
    exact .inl ⟨by rw [atOld, atNew, kept.1], secret_eq prev post kept.2⟩
  · exact .inl ⟨by rw [noOld, noNew], by rw [prev.noSecret noOld, post.noSecret noNew]⟩
  · exact .inr ⟨_, mem, rfl⟩
  · exact .inr ⟨_, mem, rfl⟩

theorem writes_cover (cipher : Cipher) (env : Env) (call : Call) (prev : cur.Sound)
    (post : next.Sound) (slot : Slot) :
    SameAt cur next slot ∨ ∃ e ∈ writes cipher env call cur next, e.key = slot.text := by
  have lt : ∀ {part : List Event}, part ⊆ diff cipher env cur next →
      (∃ e ∈ part, e.key = slot.text) →
        ∃ e ∈ writes cipher env call cur next, e.key = slot.text := by
    intro part among got
    obtain ⟨e, mem, eq⟩ := got
    exact ⟨e, by simp [writes, among mem], eq⟩
  cases slot with
  | version =>
    refine .inr ⟨.put kVersion (.number next.version), ?_, rfl⟩
    simp [writes]
  | cluster name =>
    exact (clusters_cover prev post name).imp id
      (@lt (diffClusters cipher env cur next) fun e mem => by simp [diff, mem])
  | tenant =>
    exact (diff_entry _ _ _ _ _ (fun t => rfl) rfl fun old t => of_decide_eq_true).imp id
      (@lt (diffTenants cur.file next.file) fun e mem => by simp [diff, mem])
  | placement =>
    exact (diff_entry _ _ _ _ _ (fun p => rfl) rfl fun old p => of_decide_eq_true).imp id
      (@lt (diffPlacements cur.file next.file) fun e mem => by simp [diff, mem])
  | credential =>
    exact (diff_entry _ _ _ _ _ (fun c => rfl) rfl fun old c => of_decide_eq_true).imp id
      (@lt (diffCredentials cipher env cur next) fun e mem => by simp [diff, mem])
  | generation =>
    exact (diff_entry _ _ _ _ _ (fun g => rfl) rfl fun old g => of_decide_eq_true).imp id
      (@lt (diffGenerations cur.file next.file) fun e mem => by simp [diff, mem])
  | schema =>
    by_cases eq : next.file.schema = cur.file.schema
    · exact .inl eq.symm
    · exact .inr ⟨.put kSchema (.number next.file.schema), by simp [writes, diff, eq], rfl⟩
  | identity =>
    by_cases eq : next.file.identity = cur.file.identity
    · exact .inl eq.symm
    · exact .inr ⟨.put kIdentity (.identity next.file.identity),
        by simp [writes, diff, eq], rfl⟩
  | change | unknown => exact .inl trivial

def Reader.Honest (r : Reader) (cipher : Cipher) : Prop :=
  ∀ nonce plain other, r.cipher.unwrap (cipher.wrap nonce plain) = some other → other = plain

def Cipher.reader (cipher : Cipher) : Reader := { cipher := cipher }

theorem Cipher.reader_honest (cipher : Cipher) : cipher.reader.Honest cipher := by
  intro nonce plain other opened
  change cipher.unwrap (cipher.wrap nonce plain) = some other at opened
  rw [cipher.inverts] at opened
  exact (Option.some.inj opened).symm

theorem Reader.Honest.decrypt (honest : r.Honest cipher) {nonce : Nat} {plain other : String}
    (opened : r.cipher.decrypt (cipher.encrypt nonce plain) = .ok other) : other = plain := by
  simp only [Cipher.decrypt, Cipher.encrypt, cutPrefix_append] at opened
  split at opened
  · cases opened
  rename_i got
  cases opened
  exact honest nonce plain _ got

theorem Reader.Honest.open_ (honest : r.Honest cipher) {name : String} {c : Cluster}
    {secret : Option String}
    (opened : r.cipher.open_ (sealedCluster cipher env st name c).secret = .ok secret) :
    st.secrets[name]? = secret := by
  simp only [sealedCluster] at opened
  cases held : st.secrets[name]? with
  | none =>
    simp only [held, Cipher.open_, if_true] at opened
    exact Except.ok.inj opened
  | some plain =>
    simp only [held, Cipher.open_, if_neg (cipher.encrypt_ne_empty _ _)] at opened
    cases decrypted : r.cipher.decrypt (cipher.encrypt (env.nonce (kClusters ++ name)) plain) with
    | error => simp [decrypted, Except.map] at opened
    | ok =>
      rw [decrypted] at opened
      rw [← Except.ok.inj opened, honest.decrypt decrypted]

theorem Reader.read_put {value : Value} (slot : Slot) (known : slotOf slot.text = slot)
    (read : r.read (.put slot.text value) = .ok d) : r.decode slot value = .ok d := by
  simp only [Reader.read, known] at read
  split at read
  · cases read
  · exact read

theorem Reader.read_delete (slot : Slot) (known : slotOf slot.text = slot)
    (read : r.read (.delete slot.text) = .ok d) : removed slot = .ok d := by
  simp only [Reader.read, known] at read
  exact read

theorem Tells.change (v : String) : Tells (.nothing (.change v)) st := .inl ⟨v, rfl⟩

theorem Written.tells (sound : st.Sound) (honest : r.Honest cipher)
    (written : Written cipher st slot e) (read : r.read e = .ok d) :
    Tells d st ∧ d.slot = slot := by
  have known := slotOf_text slot written.known
  cases written with
  | cluster env got =>
    have decoded := r.read_put (.cluster _) known read
    simp only [Reader.decode] at decoded
    split at decoded
    · cases decoded
    rename_i secret opened
    cases decoded
    exact ⟨⟨got, honest.open_ opened⟩, rfl⟩
  | noCluster absent noSecret =>
    cases r.read_delete (.cluster _) known read
    exact ⟨⟨absent, noSecret⟩, rfl⟩
  | tenant got =>
    cases r.read_put (.tenant _) known read
    exact ⟨got, rfl⟩
  | noTenant absent =>
    cases r.read_delete (.tenant _) known read
    exact ⟨absent, rfl⟩
  | placement got =>
    have decoded := r.read_put (.placement _) known read
    simp only [Reader.decode, (sound.stored _ _ got).fromV2 (sound.placementValid got)] at decoded
    cases decoded
    exact ⟨got, rfl⟩
  | noPlacement absent =>
    cases r.read_delete (.placement _) known read
    exact ⟨absent, rfl⟩
  | @credential accessKey c env got =>
    have decoded := r.read_put (.credential _) known read
    simp only [Reader.decode] at decoded
    split at decoded
    · cases decoded
    rename_i secret opened
    cases decoded
    refine ⟨?_, rfl⟩
    have eq : (⟨accessKey, secret, c.tenant, c.buckets⟩ : Credential) = c := by
      rw [honest.decrypt opened, ← sound.keyed accessKey c got]
    exact got.trans (congrArg some eq.symm)
  | noCredential absent =>
    cases r.read_delete (.credential _) known read
    exact ⟨absent, rfl⟩
  | generation got =>
    cases r.read_put (.generation _) known read
    exact ⟨got, rfl⟩
  | noGeneration absent =>
    cases r.read_delete (.generation _) known read
    exact ⟨absent, rfl⟩
  | schema =>
    cases r.read_put .schema known read
    exact ⟨rfl, rfl⟩
  | identity =>
    cases r.read_put .identity known read
    exact ⟨rfl, rfl⟩
  | version =>
    cases r.read_put .version known read
    exact ⟨rfl, rfl⟩
  | audit v =>
    cases r.read_put (.change v) known read
    exact ⟨.change v, rfl⟩
  | noAudit v =>
    cases r.read_delete (.change v) known read
    exact ⟨.change v, rfl⟩

theorem Written.readable (sound : st.Sound) (written : Written cipher st slot e) :
    ∃ d, cipher.reader.read e = .ok d := by
  have known := slotOf_text slot written.known
  have puts : ∀ value d, cipher.reader.decode slot value = .ok d →
      cipher.reader.read (.put slot.text value) = .ok d := by
    intro value d decoded
    simp only [Reader.read, known, Cipher.reader] at decoded ⊢
    exact decoded
  have deletes : ∀ d, removed slot = .ok d → cipher.reader.read (.delete slot.text) = .ok d := by
    intro d gone
    simp only [Reader.read, known]
    exact gone
  cases written with
  | @cluster name c env =>
    have opened : cipher.open_ (sealedCluster cipher env st name c).secret =
        .ok st.secrets[name]? := by
      simp only [sealedCluster]
      cases held : st.secrets[name]? with
      | none => rfl
      | some =>
        simp only [Cipher.open_, if_neg (cipher.encrypt_ne_empty _ _), cipher.decrypt_encrypt]
        rfl
    refine ⟨.cluster name (some (c, st.secrets[name]?)), puts _ _ ?_⟩
    simp only [Reader.decode, Cipher.reader, opened]
    rfl
  | noCluster absent noSecret | noTenant absent | noPlacement absent | noCredential absent
  | noGeneration absent | noAudit v => exact ⟨_, deletes _ rfl⟩
  | tenant | generation | schema | identity | version | audit =>
    exact ⟨_, puts _ _ rfl⟩
  | @placement k p got =>
    refine ⟨.placement k (some p), puts _ _ ?_⟩
    simp only [Reader.decode, (sound.stored _ _ got).fromV2 (sound.placementValid got)]
  | @credential accessKey c =>
    refine ⟨.credential accessKey (some ⟨accessKey, c.secret, c.tenant, c.buckets⟩), puts _ _ ?_⟩
    simp only [Reader.decode, Cipher.reader, sealedKey, cipher.decrypt_encrypt]

theorem mapM_mem {es : List Event} {ds : List Delta} (read : es.mapM r.read = .ok ds) :
    (∀ d ∈ ds, ∃ e ∈ es, r.read e = .ok d) ∧ ∀ e ∈ es, ∃ d ∈ ds, r.read e = .ok d := by
  induction es generalizing ds with
  | nil =>
    cases read
    exact ⟨fun d mem => (nomatch mem), fun e mem => (nomatch mem)⟩
  | cons e rest ih =>
    rw [mapM_cons] at read
    cases first : r.read e with
    | error =>
      rw [first] at read
      cases read
    | ok d =>
      cases later : rest.mapM r.read with
      | error =>
        rw [first, later] at read
        cases read
      | ok =>
        rw [first, later] at read
        cases read
        obtain ⟨fromEvent, toDelta⟩ := ih later
        constructor
        · intro other mem
          rcases mem_cons.mp mem with rfl | post
          · exact ⟨e, by simp, first⟩
          · obtain ⟨e', there, eq⟩ := fromEvent other post
            exact ⟨e', by simp [there], eq⟩
        intro e' mem
        rcases mem_cons.mp mem with rfl | post
        · exact ⟨d, by simp, first⟩
        · obtain ⟨d', there, eq⟩ := toDelta e' post
          exact ⟨d', by simp [there], eq⟩

theorem mapM_readable {es : List Event} (readable : ∀ e ∈ es, ∃ d, r.read e = .ok d) :
    ∃ ds, es.mapM r.read = .ok ds := by
  induction es with
  | nil => exact ⟨[], rfl⟩
  | cons e rest ih =>
    obtain ⟨d, first⟩ := readable e (by simp)
    obtain ⟨ds, later⟩ := ih fun e' mem => readable e' (by simp [mem])
    exact ⟨d :: ds, by rw [mapM_cons, first, later]; rfl⟩

theorem Tells.noSecret (told : Tells d st) (keeps : d.keepsSecret = some name) :
    name ∈ st.file.clusters ∧ st.secrets[name]? = none := by
  rcases d with _ | ⟨n, _ | ⟨c, _ | plain⟩⟩ | _ | _ | _ | _ | _ | _ | _ <;> cases keeps
  refine ⟨?_, told.2⟩
  rw [← isSome_getElem?_iff_mem, told.1]
  rfl

theorem Tells.keepsSecret (told : Tells d st)
    (here : d.slot = .cluster name) (known : name ∈ st.file.clusters)
    (noSecret : st.secrets[name]? = none) : d.keepsSecret = some name := by
  rcases d with _ | ⟨n, _ | ⟨c, _ | plain⟩⟩ | _ | _ | _ | _ | _ | _ | slot <;> cases here
  · rw [← isSome_getElem?_iff_mem, told.1] at known
    cases known
  · rfl
  · rw [told.2] at noSecret
    cases noSecret
  · rcases told with ⟨v, no⟩ | ⟨key, no⟩ <;> cases no

theorem State.Sound.versioned (sound : st.Sound) : st.versioned = st := by
  obtain ⟨version, file, creds, secrets⟩ := st
  have eq : file.version = version := sound.version
  simp only [State.versioned, ← eq]

theorem batch_applied {batch : List Event} {reached : State} (prev : cur.Sound)
    (post : next.Sound) (honest : r.Honest cipher)
    (eq : ∀ e, e ∈ batch ↔ e ∈ writes cipher env call cur next)
    (clear : ∀ name, name ∈ next.file.clusters → next.secrets[name]? = none →
      cur.secrets[name]? = none)
    (applied : r.applyAll cur batch = .ok reached) : reached.versioned = next := by
  rw [applyAll_eq] at applied
  cases read : batch.mapM r.read with
  | error =>
    rw [read] at applied
    cases applied
  | ok ds =>
    rw [read] at applied
    obtain ⟨fromEvent, toDelta⟩ := mapM_mem read
    have told : ∀ d ∈ ds, Tells d next := by
      intro d mem
      obtain ⟨e, isIn, was⟩ := fromEvent d mem
      obtain ⟨slot, written⟩ := mem_writes post ((eq e).mp isIn)
      exact (written.tells post honest was).1
    rw [← Except.ok.inj applied, replay_settles told, post.versioned]
    · intro d mem name keeps
      obtain ⟨known, noSecret⟩ := (told d mem).noSecret keeps
      exact clear name known noSecret
    intro slot
    by_cases unknown : ∃ key, slot = .unknown key
    · obtain ⟨key, rfl⟩ := unknown
      exact .inl trivial
    rcases writes_cover cipher env call prev post slot with agree | ⟨e, isIn, key⟩
    · exact .inl agree
    obtain ⟨d, mem, was⟩ := toDelta e ((eq e).mpr isIn)
    obtain ⟨other, written⟩ := mem_writes post isIn
    refine .inr ⟨d, mem, ?_⟩
    rw [(written.tells post honest was).2, ← written.slotOf_event, e.slot_eq, key]
    exact slotOf_text slot fun key eq => unknown ⟨key, eq⟩

/-- etcd holds a state: each key has the record of its part, and a key that is missing is
of a part the state has not. -/
structure Holds (cipher : Cipher) (kv : KV) (st : State) : Prop where
  absent : ∀ key : String, kv[key]? = none → SameAt {} st (slotOf key)
  present : ∀ (key : String) (v : Value), kv[key]? = some v →
    (∃ k, slotOf key = .unknown k) ∨ Written cipher st (slotOf key) (.put key v)

theorem holds_empty (cipher : Cipher) : Holds cipher ∅ {} where
  absent := fun key _ => SameAt.refl {} (slotOf key)
  present := by
    intro key v got
    simp at got

theorem Written.transfer {key : String} {v : Value} (written : Written cipher cur slot (.put key v))
    (agree : SameAt cur next slot) : Written cipher next slot (.put key v) := by
  cases written with
  | @cluster name c env got =>
    have eq : sealedCluster cipher env cur name c = sealedCluster cipher env next name c := by
      simp only [sealedCluster, agree.2]
    rw [eq]
    exact .cluster env (agree.1.symm.trans got)
  | tenant got => exact .tenant (Eq.trans (Eq.symm agree) got)
  | placement got => exact .placement (Eq.trans (Eq.symm agree) got)
  | credential env got => exact .credential env (Eq.trans (Eq.symm agree) got)
  | generation got => exact .generation (Eq.trans (Eq.symm agree) got)
  | schema =>
    rw [show cur.file.schema = next.file.schema from agree]
    exact .schema
  | identity =>
    rw [show cur.file.identity = next.file.identity from agree]
    exact .identity
  | version =>
    rw [show cur.version = next.version from agree]
    exact .version
  | audit v c => exact .audit v c

theorem Written.gone {key : String} (written : Written cipher st slot (.delete key)) :
    SameAt {} st slot := by
  cases written with
  | noCluster absent noSecret => exact ⟨by simp [absent], by simp [noSecret]⟩
  | noTenant absent | noPlacement absent | noCredential absent | noGeneration absent =>
    simp [SameAt, absent]
  | noAudit => trivial

theorem SameAt.trans {a b c : State} (ab : SameAt a b slot) (bc : SameAt b c slot) :
    SameAt a c slot := by
  cases slot with
  | cluster => exact ⟨ab.1.trans bc.1, ab.2.trans bc.2⟩
  | change | unknown => trivial
  | _ => exact Eq.trans ab bc

theorem KV.write_other {key : String} (away : key ≠ e.key) : (kv.write e)[key]? = kv[key]? := by
  cases e with
  | put k => simp [KV.write, Std.ExtTreeMap.getElem?_insert, Ne.symm (show key ≠ k from away)]
  | delete k => simp [KV.write, getElem?_erase, Ne.symm (show key ≠ k from away)]

theorem Holds.commit {batch : List Event} (prev : cur.Sound) (post : next.Sound)
    (holds : Holds cipher kv cur) (eq : ∀ e, e ∈ batch ↔ e ∈ writes cipher env call cur next) :
    Holds cipher (kv.commit batch) next := by
  have rests : ∀ key : String,
      ((kv.commit batch)[key]? = none → SameAt {} next (slotOf key)) ∧
        ∀ v, (kv.commit batch)[key]? = some v → (∃ k, slotOf key = .unknown k) ∨
          Written cipher next (slotOf key) (.put key v) := by
    intro key
    refine foldl_settles KV.write Event.key (fun _ _ => True)
      (fun key kv => (kv[key]? = none → SameAt {} next (slotOf key)) ∧
        ∀ v, kv[key]? = some v → (∃ k, slotOf key = .unknown k) ∨
          Written cipher next (slotOf key) (.put key v))
      (fun _ _ _ _ _ => trivial) ?_ ?_ (fun _ => .inl trivial) key ?_
    · intro kv e key away good
      rw [KV.write_other away]
      exact good
    · intro e mem kv _
      obtain ⟨slot, written⟩ := mem_writes post ((eq e).mp mem)
      have here := written.slotOf_event
      rw [e.slot_eq] at here
      rw [here]
      cases e with
      | put =>
        constructor
        · intro missing
          simp [KV.write, Event.key] at missing
        intro w got
        simp only [KV.write, Event.key, getElem?_insert_self, Option.some.injEq] at got
        rw [← got]
        exact .inr written
      | delete =>
        constructor
        · intro _
          exact written.gone
        · intro w got
          simp [KV.write, Event.key] at got
    · rcases writes_cover cipher env call prev post (slotOf key) with agree | ⟨e, isIn, at_⟩
      · refine .inl ⟨fun missing => (holds.absent key missing).trans agree, fun v got => ?_⟩
        exact (holds.present key v got).imp id fun written => written.transfer agree
      · rw [text_slotOf] at at_
        exact .inr ⟨e, (eq e).mpr isIn, at_⟩
  exact ⟨fun key missing => (rests key).1 missing, fun key v got => (rests key).2 v got⟩

theorem mem_events : e ∈ kv.events ↔ ∃ key v, kv[key]? = some v ∧ e = .put key v := by
  simp only [KV.events, List.mem_map, Prod.exists, mem_toList_iff_getElem?_eq_some]
  constructor
  · rintro ⟨key, v, got, rfl⟩
    exact ⟨key, v, got, rfl⟩
  · rintro ⟨key, v, got, rfl⟩
    exact ⟨key, v, got, rfl⟩

theorem Reader.read_unknown {key k : String} {v : Value} (unknown : slotOf key = .unknown k)
    (read : r.read (.put key v) = .ok d) : d = .nothing (.unknown k) := by
  simp only [Reader.read, unknown] at read
  split at read
  · cases read
  · cases read
    rfl

theorem Holds.replayed {ds : List Delta} (sound : st.Sound) (honest : r.Honest cipher)
    (holds : Holds cipher kv st) (read : kv.events.mapM r.read = .ok ds) :
    (ds.foldl State.put {}).versioned = st := by
  obtain ⟨fromEvent, toDelta⟩ := mapM_mem read
  have told : ∀ d ∈ ds, Tells d st := by
    intro d mem
    obtain ⟨e, isIn, was⟩ := fromEvent d mem
    obtain ⟨key, v, got, rfl⟩ := mem_events.mp isIn
    rcases holds.present key v got with ⟨k, unknown⟩ | written
    · rw [r.read_unknown unknown was]
      exact .inr ⟨k, rfl⟩
    · exact (written.tells sound honest was).1
  rw [replay_settles told, sound.versioned]
  · intro d mem name keeps
    simp
  intro slot
  by_cases unknown : ∃ k, slot = .unknown k
  · obtain ⟨k, rfl⟩ := unknown
    exact .inl trivial
  have known := slotOf_text slot fun k eq => unknown ⟨k, eq⟩
  cases got : kv[slot.text]? with
  | none =>
    have missing := holds.absent slot.text got
    rw [known] at missing
    exact .inl missing
  | some v =>
    obtain ⟨d, mem, was⟩ := toDelta _ (mem_events.mpr ⟨slot.text, v, got, rfl⟩)
    refine .inr ⟨d, mem, ?_⟩
    rcases holds.present slot.text v got with ⟨k, other⟩ | written
    · rw [known] at other
      exact absurd ⟨k, other⟩ unknown
    · rw [known] at written
      exact (written.tells sound honest was).2

theorem Holds.loaded {reached : State} (sound : st.Sound) (honest : r.Honest cipher)
    (holds : Holds cipher kv st) (loaded : r.load kv = .ok reached) : reached = st := by
  unfold Reader.load at loaded
  rw [applyAll_eq] at loaded
  cases read : kv.events.mapM r.read with
  | error =>
    rw [read] at loaded
    cases loaded
  | ok =>
    simp only [read, Except.map] at loaded
    iterate 2
      split at loaded
      · cases loaded
    · rw [← Except.ok.inj loaded]
      exact holds.replayed sound honest read

theorem validate_schema {f : File} (valid : f.validate = []) : f.schema ≤ schemaVersion := by
  by_contra newer
  push Not at newer
  simp [File.validate, validateLineage, newer] at valid

theorem Holds.load (sound : st.Sound) (holds : Holds cipher kv st) :
    cipher.reader.load kv = .ok st := by
  have readable : ∀ e ∈ kv.events, ∃ d, cipher.reader.read e = .ok d := by
    intro e isIn
    obtain ⟨key, v, got, rfl⟩ := mem_events.mp isIn
    rcases holds.present key v got with ⟨k, unknown⟩ | written
    · exact ⟨.nothing (.unknown k), by simp only [Reader.read, Cipher.reader, unknown]; rfl⟩
    · exact written.readable sound
  obtain ⟨ds, read⟩ := mapM_readable readable
  have replayed := holds.replayed sound cipher.reader_honest read
  have schema : (ds.foldl State.put {}).file.schema = st.file.schema := by
    rw [← replayed]
    rfl
  have current := validate_schema sound.valid
  have checks : cipher.reader.validate st.file = [] := sound.valid
  unfold Reader.load
  rw [applyAll_eq, read]
  simp only [Except.map, schema, replayed, checks]
  rw [if_neg (by omega), if_neg (by simp)]

def Call.dropsSecret (cur : State) : Call → Bool
  | .putCluster name c secret =>
    decide (secret = "" ∧ c.credentials.secretRef ≠ secretRef name ∧ name ∈ cur.secrets)
  | _ => false

theorem putSecret_kept {other : String} {c : Cluster} {secret : String}
    {secrets : StrMap String} (result : cur.putSecret name c secret = .ok secrets)
    (keeps : (Call.putCluster name c secret).dropsSecret cur = false) (held : other ∈ cur.secrets) :
    other ∈ secrets := by
  unfold State.putSecret at result
  split at result
  · cases result
    exact mem_insert.mpr (.inr held)
  rename_i none_
  push Not at none_
  split at result
  · split at result
    · cases result
      exact held
    · cases result
  rename_i elsewhere
  cases result
  simp only [Call.dropsSecret, none_, elsewhere, ne_eq, not_false_eq_true, true_and,
    decide_eq_false_iff_not] at keeps
  refine mem_erase.mpr ⟨?_, held⟩
  intro eq
  rw [Std.compare_eq_iff_eq] at eq
  rw [eq] at keeps
  exact keeps held

theorem secrets_kept {now : Int} (ran : call.run now cur = .ok (.changed copy again))
    (keeps : call.dropsSecret cur = false)
    (held : name ∈ cur.secrets) (stays : name ∈ copy.file.clusters) : name ∈ copy.secrets := by
  cases call with
  | change =>
    simp only [Call.run] at ran
    split at ran
    · cases ran
    · cases ran
      exact held
  | putCluster =>
    simp only [Call.run] at ran
    split at ran
    · cases ran
    rename_i secrets put
    cases ran
    exact putSecret_kept put keeps held
  | removeCluster =>
    simp only [Call.run, File.removeCluster] at ran
    split at ran
    · cases ran
    rename_i f removed
    cases ran
    repeat' split at removed
    all_goals cases removed
    exact mem_erase.mpr ⟨(mem_erase.mp stays).1, held⟩
  | addKey =>
    simp only [Call.run] at ran
    repeat' split at ran
    all_goals cases ran
    all_goals exact held
  | removeKey | upgrade =>
    simp only [Call.run] at ran
    repeat' split at ran
    all_goals cases ran
    exact held

theorem secret_dropped {now : Int} (ran : call.run now cur = .ok (.changed copy again))
    (drops : call.dropsSecret cur) :
    ∃ name, name ∈ cur.secrets ∧ name ∈ copy.file.clusters ∧ copy.secrets[name]? = none := by
  cases call with
  | putCluster name =>
    simp only [Call.dropsSecret, decide_eq_true_eq] at drops
    obtain ⟨noSecret, elsewhere, held⟩ := drops
    simp only [Call.run, State.putSecret, noSecret, elsewhere, ne_eq, not_true_eq_false, if_false]
      at ran
    cases ran
    exact ⟨name, held, mem_putCluster.mpr (.inl rfl), by simp⟩
  | _ => cases drops

theorem attempt_clear (made : attempt cipher env cur call = .ok (.commit next ops again))
    (keeps : call.dropsSecret cur = false) (stays : name ∈ next.file.clusters)
    (gone : next.secrets[name]? = none) : cur.secrets[name]? = none := by
  obtain ⟨copy, ran, candidate, -⟩ := attempt_commit made
  have is_ := candidate_ok candidate
  by_contra held
  have mem : name ∈ cur.secrets := by
    rw [← isSome_getElem?_iff_mem]
    exact Option.isSome_iff_ne_none.mpr held
  rw [is_.clusters] at stays
  have there := secrets_kept ran keeps mem stays
  rw [← isSome_getElem?_iff_mem, ← is_.secrets, gone] at there
  cases there

/-- A write goes to etcd and to every node that follows it.  Its texts are read as its records, and
what etcd then holds reads as the state the write made; a node that applies the write to its copy
has that state exactly when the write took no stored secret out. -/
theorem watch_and_reload (cipher : Cipher) (env : Env) (kv : KV) (cur next : State)
    (call again : Call) (ops batch : List Event) (sound : cur.Sound) (holds : Holds cipher kv cur)
    (made : attempt cipher env cur call = .ok (.commit next ops again))
    (plain : next.Plain) (delivered : batch.Perm ops) :
    next.ReadsBack ∧ cipher.reader.load (kv.commit batch) = .ok next ∧
      ((cipher.reader.applyAll cur batch).map State.versioned = .ok next ↔
        call.dropsSecret cur = false) := by
  have post := attempt_sound sound made
  obtain ⟨copy, ran, candidate, rfl⟩ := attempt_commit made
  have is_ := candidate_ok candidate
  have eq : ∀ e, e ∈ batch ↔ e ∈ writes cipher env call cur next := fun e => delivered.mem_iff
  refine ⟨post.readsBack plain, (holds.commit sound post eq).load post, ?_⟩
  have readable : ∀ e ∈ batch, ∃ d, cipher.reader.read e = .ok d := by
    intro e isIn
    obtain ⟨slot, written⟩ := mem_writes post ((eq e).mp isIn)
    exact written.readable post
  obtain ⟨ds, read⟩ := mapM_readable readable
  have applied : cipher.reader.applyAll cur batch = .ok (ds.foldl State.put cur) := by
    rw [applyAll_eq, read]
    rfl
  rw [applied]
  constructor
  · intro reached
    have reached : (ds.foldl State.put cur).versioned = next := Except.ok.inj reached
    by_contra dropped
    obtain ⟨name, held, stays, gone⟩ := secret_dropped ran (by simpa using dropped)
    rw [← is_.clusters] at stays
    rw [← is_.secrets] at gone
    have kept : (ds.foldl State.put cur).secrets[name]? = cur.secrets[name]? := by
      refine replay_keeps fun d mem here => ?_
      obtain ⟨e, isIn, was⟩ := (mapM_mem read).1 d mem
      obtain ⟨slot, written⟩ := mem_writes post ((eq e).mp isIn)
      exact (written.tells post cipher.reader_honest was).1.keepsSecret here stays gone
    rw [← reached] at gone
    have gone : (ds.foldl State.put cur).secrets[name]? = none := gone
    rw [kept] at gone
    rw [← isSome_getElem?_iff_mem, gone] at held
    cases held
  · intro keeps
    exact congrArg Except.ok (batch_applied sound post cipher.reader_honest eq
      (fun name stays gone => attempt_clear made keeps stays gone) applied)

/-! A cluster whose secret is stored first and then taken from the environment. -/

def keyedCipher (key : String) : Cipher :=
  ⟨fun _ plain => key ++ plain, cutPrefix key, fun _ plain => cutPrefix_append key plain⟩

def fleetCipher : Cipher := keyedCipher "fleet:"

def operator : Env where
  now := 0
  drawn := .ok ⟨"0123456789abcdef0123456789abcdef", "fedcba9876543210fedcba9876543210"⟩
  nonce := fun _ => 0
  prepare := fun _ => none
  actor := "ops"

def eastCluster (ref : String) : Cluster :=
  { type := "minio", scheme := "https", region := "us-east-1", endpointMode := "static"
    endpoints := ["10.0.0.1:9000"], credentials := ⟨"AK", ref⟩ }

def storeSecret : Call := .putCluster "east" (eastCluster "control:east") "hunter2"

def useEnvironment : Call := .putCluster "east" (eastCluster "env:EAST_SECRET") ""

def wrote (st : State) (call : Call) : State × List Event :=
  (committed fleetCipher operator st call).getD (st, [])

theorem storeSecret_follows :
    ∃ next ops again, attempt fleetCipher operator {} storeSecret = .ok (.commit next ops again) ∧
      next.ReadsBack ∧ fleetCipher.reader.load (KV.commit ∅ ops) = .ok next ∧
      ((fleetCipher.reader.applyAll {} ops).map State.versioned = .ok next ↔
        storeSecret.dropsSecret {} = false) :=
  ⟨_, _, _, rfl, watch_and_reload fleetCipher operator ∅ {} _ storeSecret _ _ _ sound_empty
    (holds_empty fleetCipher) rfl (State.plain_of_empty rfl) (List.Perm.refl _)⟩

/-- The watch leaves the secret on a node that followed it. -/
theorem environment_keeps_secret :
    ∃ cur ops next ops', committed fleetCipher operator {} storeSecret = some (cur, ops) ∧
      committed fleetCipher operator cur useEnvironment = some (next, ops') ∧
      (fleetCipher.reader.applyAll cur ops').map State.versioned ≠ .ok next := by
  refine ⟨_, _, _, _, rfl, rfl, ?_⟩
  decide

end Shunt.Cp
