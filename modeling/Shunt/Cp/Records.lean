/-
The directory in etcd: one key for each record, and the state a control node keeps
of all of them.  A node reads every key when it starts and follows the changes after
that; both go through one function that puts a record into the state.
-/

import Shunt.Directory.Mutations
import Shunt.Directory.Stamp

namespace Shunt.Cp

open Config (Cluster FieldError)
open Directory

def dirPrefix : String := "/shunt/v1/"

def kVersion : String := dirPrefix ++ "version"

def kClusters : String := dirPrefix ++ "clusters/"

def kTenants : String := dirPrefix ++ "tenants/"

def kPlacements : String := dirPrefix ++ "placements/"

def kCredentials : String := dirPrefix ++ "credentials/"

def kChanges : String := dirPrefix ++ "changes/"

def kSchema : String := dirPrefix ++ "schema"

def kIdentity : String := dirPrefix ++ "identity"

def kGenerations : String := dirPrefix ++ "generations/"

inductive Slot where
  | version
  | cluster (name : String)
  | tenant (name : String)
  | placement (key : String)
  | credential (accessKey : String)
  | schema
  | identity
  | generation (resource : String)
  | change (version : String)
  | unknown (key : String)
  deriving DecidableEq

def Slot.text : Slot → String
  | .version => kVersion
  | .cluster name => kClusters ++ name
  | .tenant name => kTenants ++ name
  | .placement key => kPlacements ++ key
  | .credential accessKey => kCredentials ++ accessKey
  | .schema => kSchema
  | .identity => kIdentity
  | .generation resource => kGenerations ++ resource
  | .change v => kChanges ++ v
  | .unknown key => key

/-- The first of the kinds of key, in the order they are tried, that a key starts as. -/
def slotOf (key : String) : Slot :=
  if key = kVersion then .version
  else if let some name := cutPrefix kClusters key then .cluster name
  else if let some name := cutPrefix kTenants key then .tenant name
  else if let some k := cutPrefix kPlacements key then .placement k
  else if let some accessKey := cutPrefix kCredentials key then .credential accessKey
  else if key = kSchema then .schema
  else if key = kIdentity then .identity
  else if let some resource := cutPrefix kGenerations key then .generation resource
  else if let some version := cutPrefix kChanges key then .change version
  else .unknown key

theorem append_ne_of_cutPrefix {pre text : String} (s : String) (gone : cutPrefix pre text = none) :
    pre ++ s ≠ text := by
  intro eq
  rw [← eq, cutPrefix_append] at gone
  cases gone

theorem slotOf_text (slot : Slot) (has : ∀ key, slot ≠ .unknown key) : slotOf slot.text = slot := by
  cases slot with
  | version | schema | identity => decide
  | unknown key => exact absurd rfl (has key)
  -- A key of one kind starts as no kind that is tried before its own.
  | cluster | tenant | placement | credential | generation | change =>
    simp (disch := decide) only [Slot.text, slotOf, append_ne_of_cutPrefix, cutPrefix_other,
      cutPrefix_append, if_false]

theorem append_of_cutPrefix {pre text s : String} (cut : cutPrefix pre text = some s) :
    pre ++ s = text := by
  unfold cutPrefix at cut
  split at cut
  · rename_i starts
    obtain ⟨rest, all⟩ := List.isPrefixOf_iff_prefix.mp starts
    rw [← all, List.drop_left] at cut
    rw [← Option.some.inj cut, ← String.toList_inj, String.toList_append, String.toList_ofList]
    exact all
  · cases cut

theorem text_slotOf (key : String) : (slotOf key).text = key := by
  unfold slotOf
  repeat' split
  all_goals first
    | exact append_of_cutPrefix (by assumption)
    | exact Eq.symm (by assumption)
    | rfl

structure Credential where
  accessKey : String
  secret : String
  tenant : String
  buckets : List String
  deriving DecidableEq

/-- A cluster as it is stored.  The secret is sealed, and empty when none is stored. -/
structure ClusterRecord where
  cluster : Cluster
  secret : String
  deriving DecidableEq

structure CredentialRecord where
  tenant : String
  buckets : List String
  secret : String
  deriving DecidableEq

structure Change where
  time : Int
  actor : String
  op : String
  key : String
  version : Int
  before : Option Placement := none
  after : Option Placement := none
  clusterBefore : Option Cluster := none
  clusterAfter : Option Cluster := none
  deriving DecidableEq

inductive Value where
  | number (n : Int)
  | cluster (record : ClusterRecord)
  | tenant (t : Tenant)
  | placement (p : Placement)
  | credential (record : CredentialRecord)
  | identity (i : Identity)
  | change (c : Change)
  deriving DecidableEq

/-- The node's data-encryption key, as its two directions on the text behind the mark of
the format.  What was sealed with another key does not open. -/
structure Cipher where
  wrap : Nat → String → String
  unwrap : String → Option String
  inverts : ∀ nonce plain, unwrap (wrap nonce plain) = some plain

def Cipher.encrypt (c : Cipher) (nonce : Nat) (plain : String) : String :=
  "v1:" ++ c.wrap nonce plain

def errCiphertext : String :=
  "cannot decrypt a stored secret: not sealed with this control plane's data-encryption key"

def Cipher.decrypt (c : Cipher) (stored : String) : Except String String :=
  match cutPrefix "v1:" stored with
  | none => .error errCiphertext
  | some body =>
    match c.unwrap body with
    | none => .error errCiphertext
    | some plain => .ok plain

theorem Cipher.decrypt_encrypt (c : Cipher) (nonce : Nat) (plain : String) :
    c.decrypt (c.encrypt nonce plain) = .ok plain := by
  simp only [Cipher.decrypt, Cipher.encrypt, cutPrefix_append, c.inverts]

theorem Cipher.encrypt_ne_empty (c : Cipher) (nonce : Nat) (plain : String) :
    c.encrypt nonce plain ≠ "" := by
  intro nil
  have length := congrArg String.length nil
  simp [Cipher.encrypt] at length

/-- What one control node reads with: its key, the decoder of its build, which refuses
what it does not know, and the checks of its build. -/
structure Reader where
  cipher : Cipher
  refuses : Value → Option String := fun _ => none
  validate : File → List FieldError := File.validate

/-- One version of everything the store holds.  A cluster's secret is kept under the
cluster's name; its ref is `control:<name>`. -/
structure State where
  version : Int := 0
  file : File := {}
  creds : StrMap Credential := ∅
  secrets : StrMap String := ∅
  deriving DecidableEq

/-- What one record says, decoded: the new value at its key, or that the key is gone. -/
inductive Delta where
  | version (v : Int)
  | cluster (name : String) (record : Option (Cluster × Option String))
  | tenant (name : String) (t : Option Tenant)
  | placement (key : String) (p : Option Placement)
  | credential (accessKey : String) (c : Option Credential)
  | schema (n : Int)
  | identity (i : Identity)
  | generation (resource : String) (g : Option Int)
  | nothing (slot : Slot)
  deriving DecidableEq

def mistyped : String := "the value is not of the record's type"

def Cipher.open_ (c : Cipher) (stored : String) : Except String (Option String) :=
  if stored = "" then .ok none else (c.decrypt stored).map some

def Reader.decode (r : Reader) (slot : Slot) (value : Value) : Except String Delta :=
  match slot, value with
  | .version, .number v => .ok (.version v)
  | .version, _ => .error ("directory version: " ++ mistyped)
  | .cluster name, .cluster record =>
    match r.cipher.open_ record.secret with
    | .error e => .error ("cluster " ++ name ++ ": " ++ e)
    | .ok secret => .ok (.cluster name (some (record.cluster, secret)))
  | .cluster name, _ => .error ("cluster " ++ name ++ ": " ++ mistyped)
  | .tenant name, .tenant t => .ok (.tenant name (some t))
  | .tenant name, _ => .error ("tenant " ++ name ++ ": " ++ mistyped)
  | .placement key, .placement wrote =>
    match wrote.fromV2 with
    | .error e => .error ("placement " ++ key ++ ": " ++ e)
    | .ok p => .ok (.placement key (some p))
  | .placement key, _ => .error ("placement " ++ key ++ ": " ++ mistyped)
  | .credential accessKey, .credential record =>
    match r.cipher.decrypt record.secret with
    | .error e => .error ("credential " ++ accessKey ++ ": " ++ e)
    | .ok secret =>
      .ok (.credential accessKey (some ⟨accessKey, secret, record.tenant, record.buckets⟩))
  | .credential accessKey, _ => .error ("credential " ++ accessKey ++ ": " ++ mistyped)
  | .schema, .number n => .ok (.schema n)
  | .schema, _ => .error ("directory schema: " ++ mistyped)
  | .identity, .identity i => .ok (.identity i)
  | .identity, _ => .error ("directory identity: " ++ mistyped)
  | .generation resource, .number g => .ok (.generation resource (some g))
  | .generation resource, _ => .error ("generation of " ++ resource ++ ": " ++ mistyped)
  -- audit records are written, never read back into the state
  | .change v, _ => .ok (.nothing (.change v))
  | .unknown key, _ => .ok (.nothing (.unknown key))

def removed : Slot → Except String Delta
  | .version => .error "the directory version key was deleted"
  | .cluster name => .ok (.cluster name none)
  | .tenant name => .ok (.tenant name none)
  | .placement key => .ok (.placement key none)
  | .credential accessKey => .ok (.credential accessKey none)
  | .schema => .ok (.schema 0)
  | .identity => .error "the directory identity key was deleted"
  | .generation resource => .ok (.generation resource none)
  | .change v => .ok (.nothing (.change v))
  | .unknown key => .ok (.nothing (.unknown key))

def setEntry {V : Type} (m : StrMap V) (k : String) : Option V → StrMap V
  | none => m.erase k
  | some v => m.insert k v

def State.put (st : State) : Delta → State
  | .version v => { st with version := v }
  | .cluster name none =>
    { st with
      file := { st.file with clusters := st.file.clusters.erase name }
      secrets := st.secrets.erase name }
  | .cluster name (some (c, secret)) =>
    { st with
      file := { st.file with clusters := st.file.clusters.insert name c }
      secrets := match secret with
        | none => st.secrets
        | some plain => st.secrets.insert name plain }
  | .tenant name t =>
    { st with file := { st.file with tenants := setEntry st.file.tenants name t } }
  | .placement key p =>
    { st with file := { st.file with placements := setEntry st.file.placements key p } }
  | .credential accessKey c => { st with creds := setEntry st.creds accessKey c }
  | .schema n => { st with file := { st.file with schema := n } }
  | .identity i => { st with file := { st.file with identity := i } }
  | .generation resource g =>
    { st with file := { st.file with generations := setEntry st.file.generations resource g } }
  | .nothing _ => st

/-- One change under the directory's keys: a value put, or the key deleted. -/
inductive Event where
  | put (key : String) (value : Value)
  | delete (key : String)
  deriving DecidableEq

def Event.slot : Event → Slot
  | .put key _ => slotOf key
  | .delete key => slotOf key

def Reader.read (r : Reader) : Event → Except String Delta
  | .put key value =>
    match r.refuses value with
    | some e => .error e
    | none => r.decode (slotOf key) value
  | .delete key => removed (slotOf key)

def Reader.apply (r : Reader) (st : State) (e : Event) : Except String State :=
  (r.read e).map st.put

def Reader.applyAll (r : Reader) (st : State) : List Event → Except String State
  | [] => .ok st
  | e :: rest =>
    match r.apply st e with
    | .error msg => .error msg
    | .ok next => r.applyAll next rest

def State.versioned (st : State) : State :=
  { st with file := { st.file with version := st.version } }

abbrev KV := StrMap Value

def KV.events (kv : KV) : List Event := kv.toList.map fun (key, value) => .put key value

def invalidText (errors : List FieldError) : String :=
  Config.joined "; " (errors.map fun e => e.key ++ ": " ++ e.msg)

def newerSchema (schema : Int) : String :=
  "directory: written by a newer shunt (schema " ++ toString schema ++
    "; this build reads schema " ++ toString schemaVersion ++ "): upgrade this binary"

def Reader.load (r : Reader) (kv : KV) : Except String State :=
  match r.applyAll {} kv.events with
  | .error e => .error e
  | .ok st =>
    if schemaVersion < st.file.schema then .error (newerSchema st.file.schema)
    else if r.validate st.versioned.file ≠ [] then
      .error ("the directory in etcd is invalid: " ++
        invalidText (r.validate st.versioned.file))
    else .ok st.versioned

end Shunt.Cp
