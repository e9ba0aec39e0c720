/-
A multipart upload over a run of transitions.

The id of an upload names the bucket that issued it by its cluster, and by a tag where the
key's two buckets share one.  While the upload's bucket is the key's home, or the target its
writes go to, the id leads back to it.  An id without a tag leads to whichever bucket of the
key is on the cluster.
-/

import Shunt.Migrate.Reaches
import Shunt.Proxy.Requests
import Shunt.Proxy.Uploads

namespace Shunt.Proxy

open Directory List Option Relation
open Library (Hand HandStep Phase cut cut_free)
open Migrate

variable {clusters : List String} {bucket : Leg}

def candidates (a : Hand Leg) (cluster : String) : List Leg :=
  (if a.phase = .rest then [a.home] else [a.target, a.home]).filter fun b =>
    decide (b.cluster = cluster)

def resolve (bucketTag : Digest) (a : Hand Leg) (cluster : String) (tag : Key) : Option Leg :=
  match candidates a cluster with
  | [] => none
  | b :: others =>
    if tag ≠ [] then (b :: others).find? fun x => decide (bucketTag.of x.bucket = tag)
    else if others = [] then some b
    else some a.home

/-- A bucket issued an id that still leads to it: the key is at home there, or gone there. -/
def Leads (a : Hand Leg) (bucket : Leg) (tagged : Bool) : Prop :=
  a.home = bucket ∨
    a.gone ∧ a.target = bucket ∧ (tagged = true ∨ a.home.cluster ≠ a.target.cluster)

/-- No other bucket of the handover is where an id without a tag leads. -/
def OnlyIssuer (a : Hand Leg) (bucket : Leg) : Prop :=
  (a.home.cluster = bucket.cluster → a.home = bucket) ∧
    (a.phase ≠ .rest → a.target.cluster = bucket.cluster → a.target = bucket ∨ a.home = bucket)

def NoneOn (a : Hand Leg) (cluster : String) : Prop :=
  a.home.cluster ≠ cluster ∧ (a.phase ≠ .rest → a.target.cluster ≠ cluster)

section

variable {bucketTag : Digest} {a b : Hand Leg} {bucket : Leg} {cluster : String} {tagged : Bool}

theorem mem_candidates {x : Leg} : x ∈ candidates a cluster ↔
    x.cluster = cluster ∧ (x = a.home ∨ a.phase ≠ .rest ∧ x = a.target) := by
  unfold candidates
  by_cases rests : a.phase = .rest
  · simp [rests, and_comm]
  · simp [rests, and_comm, or_comm]

theorem resolve_untagged : resolve bucketTag a cluster [] =
    if a.home.cluster = cluster then some a.home
    else if a.phase ≠ .rest ∧ a.target.cluster = cluster then some a.target else none := by
  unfold resolve candidates
  by_cases rests : a.phase = .rest
  · by_cases home : a.home.cluster = cluster <;> simp [rests, home]
  · by_cases home : a.home.cluster = cluster <;>
      by_cases target : a.target.cluster = cluster <;> simp [rests, home, target]

theorem resolve_tagged {tag : Key} (given : tag ≠ []) : resolve bucketTag a cluster tag =
    (candidates a cluster).find? fun x => decide (bucketTag.of x.bucket = tag) := by
  unfold resolve
  cases candidates a cluster with
  | nil => rfl
  | cons => exact if_pos given

theorem resolve_mem {tag : Key} {x : Leg} (got : resolve bucketTag a cluster tag = some x) :
    x ∈ candidates a cluster := by
  by_cases given : tag = []
  · subst given
    rw [resolve_untagged] at got
    split at got
    · rename_i home
      cases got
      exact mem_candidates.mpr ⟨home, .inl rfl⟩
    split at got
    · rename_i target
      cases got
      exact mem_candidates.mpr ⟨target.2, .inr ⟨target.1, rfl⟩⟩
    · cases got
  · rw [resolve_tagged given] at got
    exact mem_of_find?_eq_some got

def TagTells (bucketTag : Digest) (a : Hand Leg) (bucket : Leg) : Prop :=
  ∀ x ∈ candidates a bucket.cluster, bucketTag.of x.bucket = bucketTag.of bucket.bucket →
    x = bucket

theorem resolve_tag (tells : TagTells bucketTag a bucket) {x : Leg}
    (got : resolve bucketTag a bucket.cluster (bucketTag.of bucket.bucket) = some x) :
    x = bucket := by
  have mem := resolve_mem got
  rw [resolve_tagged (bucketTag.ne_nil _)] at got
  have chosen := find?_some got
  exact tells x mem (by simpa using chosen)

theorem Leads.candidate (leads : Leads a bucket tagged) : bucket ∈ candidates a bucket.cluster := by
  refine mem_candidates.mpr ⟨rfl, ?_⟩
  rcases leads with home | ⟨gone, target, -⟩
  · exact .inl home.symm
  · refine .inr ⟨?_, target.symm⟩
    rcases gone with same | same <;> simp [same]

theorem Leads.resolves (leads : Leads a bucket tagged) (tells : TagTells bucketTag a bucket) :
    resolve bucketTag a bucket.cluster (if tagged then bucketTag.of bucket.bucket else []) =
      some bucket := by
  cases tagged with
  | true =>
    have some_ : (resolve bucketTag a bucket.cluster (bucketTag.of bucket.bucket)).isSome := by
      rw [resolve_tagged (bucketTag.ne_nil _), find?_isSome]
      exact ⟨bucket, leads.candidate, by simp⟩
    obtain ⟨x, got⟩ := isSome_iff_exists.mp some_
    rw [if_pos rfl, got, resolve_tag tells got]
  | false =>
    rw [if_neg (by simp), resolve_untagged]
    rcases leads with home | ⟨gone, target, shown⟩
    · rw [if_pos (by rw [home]), home]
    have going : a.phase ≠ .rest := by
      rcases gone with same | same <;> simp [same]
    have apart : a.home.cluster ≠ bucket.cluster := by
      rw [← target]
      exact shown.resolve_left (by simp)
    rw [if_neg apart, if_pos ⟨going, by rw [target]⟩, target]

theorem resolve_only_iff : (∀ x, resolve bucketTag a bucket.cluster [] = some x → x = bucket) ↔
    OnlyIssuer a bucket := by
  rw [resolve_untagged]
  unfold OnlyIssuer
  by_cases home : a.home.cluster = bucket.cluster
  · rw [if_pos home]
    constructor
    · intro only
      have same := only a.home rfl
      exact ⟨fun _ => same, fun _ _ => .inr same⟩
    intro only x got
    cases got
    exact only.1 home
  rw [if_neg home]
  have notHome : a.home ≠ bucket := fun same => home (congrArg Leg.cluster same)
  by_cases target : a.phase ≠ .rest ∧ a.target.cluster = bucket.cluster
  · rw [if_pos target]
    constructor
    · intro only
      exact ⟨fun here => absurd here home, fun _ _ => .inl (only a.target rfl)⟩
    intro only x got
    cases got
    exact (only.2 target.1 target.2).resolve_right notHome
  rw [if_neg target]
  exact ⟨fun _ => ⟨fun here => absurd here home, fun going there => absurd ⟨going, there⟩ target⟩,
    nofun⟩

def CutFrom (a : Hand Leg) (bucket : Leg) : Prop := a.phase = .cut ∧ a.home = bucket

theorem HandStep.leads {kind : Library.HandKind} (step : HandStep kind a b)
    (leads : Leads a bucket tagged) (uncut : ¬ CutFrom a bucket) : Leads b bucket tagged := by
  rcases leads with home | ⟨gone, target, shown⟩
  · left
    rw [step.home, if_neg (fun cut => uncut ⟨cut.1, home⟩), home]
  rcases step.gone_stays gone with ⟨still, sameTarget, sameHome⟩ | ⟨-, atHome⟩
  · exact .inr ⟨still, sameTarget.trans target, by rw [sameTarget, sameHome]; exact shown⟩
  · exact .inl (atHome.trans target)

end

structure Named (v : Placement) : Prop where
  roled : Roled v
  primary : v.primary ≠ ""
  bucket : (endpoint v .primary).bucket ≠ ""
  source : v.source ≠ "" → (endpoint v .source).bucket ≠ ""

variable {hash : Key → Hash} {clusterID bucketTag : Digest} {p q v : Placement} {key : Key}

theorem primary_ne_empty (formed : Formed p) (routed : routedBy hash p key = .ok v) :
    v.primary ≠ "" := by
  have view := @routedBy_cases hash _ key formed
  rw [routed] at view
  cases view with
  | plain form => exact form.primary
  | owner form =>
    have owned : ownerID hash p key ∈ p.legs := ownerID_mem form.tables key
    obtain ⟨l, got⟩ := exists_leg owned
    simp only [onLeg, legIn_of_getElem? got]
    exact form.clusters _ l got
  | move form has moving => exact form.ids _ (form.moving _ moving).dest

theorem phase_rest_iff (roled : Roled v) {phase : Phase}
    (got : phaseOf hash v.state v.ramp key = .ok phase) : phase = .rest ↔ v.source = "" :=
  (phaseOf_rest got).symm.trans roled

theorem named_of_valid (valid : p.Valid) (formed : Formed p)
    (routed : routedBy hash p key = .ok v) : Named v := by
  have roled := roled_of_formed formed routed
  obtain ⟨clusters, sound⟩ := valid.sound
  obtain ⟨primary, source⟩ := routedBy_held sound routed
  exact ⟨roled, primary_ne_empty formed routed, primary.named sound,
    fun given => (source given).named sound⟩

theorem rolesOn_buckets {phase : Phase} (named : Named v) (rests : phase = .rest ↔ v.source = "")
    (cluster : String) :
    (rolesOn v cluster).map (bucketIn v) = candidates (handIn v phase) cluster := by
  have first : bucketIn v v.primary = endpoint v .primary := rfl
  have second : bucketIn v v.source = endpoint v .source := rfl
  have primary := named.bucket
  simp only [← first, bucketIn] at primary
  unfold rolesOn candidates handIn
  by_cases still : phase = .rest
  · have none := rests.mp still
    by_cases on : v.clusterOf v.primary = cluster <;>
      simp [still, none, on, named.primary, primary, ← first, bucketIn]
  have given : v.source ≠ "" := fun empty => still (rests.mpr empty)
  have source := named.source given
  simp only [← second, bucketIn] at source
  by_cases on : v.clusterOf v.primary = cluster <;>
    by_cases there : v.clusterOf v.source = cluster <;>
      simp [still, given, on, there, named.primary, primary, source, ← first, ← second, bucketIn]

theorem find_cluster {cluster : String}
    (apart : ∀ name ∈ clusters, clusterID.of name = clusterID.of cluster → name = cluster) :
    clusters.find? (fun name => decide (clusterID.of name = clusterID.of cluster)) =
      if cluster ∈ clusters then some cluster else none := by
  by_cases has : cluster ∈ clusters
  · rw [if_pos has]
    have some_ : (clusters.find? fun name =>
        decide (clusterID.of name = clusterID.of cluster)).isSome := by
      rw [find?_isSome]
      exact ⟨cluster, has, by simp⟩
    obtain ⟨x, got⟩ := isSome_iff_exists.mp some_
    have chosen := find?_some got
    rw [got, apart x (mem_of_find?_eq_some got) (by simpa using chosen)]
  rw [if_neg has, find?_eq_none]
  intro name mem same
  exact has (apart name mem (by simpa using same) ▸ mem)

theorem uploadRole_resolve {phase : Phase} {tagged : Bool}
    (named : Named v) (rests : phase = .rest ↔ v.source = "")
    (apart : ∀ name ∈ clusters, clusterID.of name = clusterID.of bucket.cluster →
      name = bucket.cluster)
    (linked : ∀ x ∈ candidates (handIn v phase) bucket.cluster, x.cluster ∈ clusters) :
    (uploadRole clusterID bucketTag v clusters
        (prefixOf clusterID bucketTag bucket tagged)).map (bucketIn v) =
      resolve bucketTag (handIn v phase) bucket.cluster
        (if tagged then bucketTag.of bucket.bucket else []) := by
  have roles := rolesOn_buckets named rests bucket.cluster
  unfold uploadRole
  simp only [splitUploadPrefix_prefixOf, find_cluster apart]
  unfold resolve
  rw [← roles] at linked ⊢
  by_cases has : bucket.cluster ∈ clusters
  · simp only [if_pos has]
    cases on : rolesOn v bucket.cluster with
    | nil => rfl
    | cons role others =>
      simp only [map_cons]
      by_cases given : (if tagged then bucketTag.of bucket.bucket else []) = []
      · rw [if_neg (not_not.mpr given), if_neg (not_not.mpr given)]
        cases others with
        | nil => rfl
        | cons =>
          simp only [map_cons, reduceCtorEq, if_false, map_some]
          -- both roles are on the cluster, so something moves and the home is the source
          have going : phase ≠ .rest := by
            intro still
            have long := congrArg List.length roles
            rw [on] at long
            simp only [candidates, handIn, still, if_true] at long
            have short := length_filter_le
              (fun b : Leg => decide (b.cluster = bucket.cluster)) [endpoint v .primary]
            simp only [map_cons, length_cons, length_map, length_nil] at long short
            omega
          simp only [handIn, if_neg going]
          rfl
      · rw [if_pos given, if_pos given, ← map_cons, find?_map]
        rfl
  · simp only [if_neg has]
    cases on : rolesOn v bucket.cluster with
    | nil => rfl
    | cons role =>
      have isIn : role ∈ rolesOn v bucket.cluster := by rw [on]; exact mem_cons_self
      have among := linked (bucketIn v role) (List.mem_map_of_mem isIn)
      simp only [rolesOn, List.mem_filter, Bool.and_eq_true, decide_eq_true_eq] at isIn
      exact absurd (isIn.2.1.2 ▸ among) has

variable (hash) in
theorem decideRoute_upload (v : Placement) (key : Key) :
    ∃ route, decideRoute hash v .upload key = .ok route ∧ route.cluster = .primary := by
  unfold decideRoute
  by_cases still : v.source = "" ∨ v.state = .active
  · exact ⟨_, if_pos still, rfl⟩
  rw [if_neg still]
  by_cases cut : v.state = .cutover
  · exact ⟨{ cluster := .primary }, by simp [cut], rfl⟩
  · exact ⟨{ cluster := .primary }, by simp [cut], rfl⟩

variable (hash) in
def tagged (p : Placement) (key : Key) : Bool :=
  match routedBy hash p key with
  | .error _ => false
  | .ok v => sharesCluster v

theorem createUpload_leads {x handed : Key} (formed : Formed p)
    (created : createUpload clusterID bucketTag hash p key x = .ok (some (bucket, handed))) :
    ∃ a, handOf hash p key = .ok a ∧ Leads a bucket (tagged hash p key) ∧ ¬ CutFrom a bucket ∧
      handed = encodeUploadID (prefixOf clusterID bucketTag bucket (tagged hash p key)) x := by
  unfold createUpload at created
  cases routed : routedBy hash p key with
  | error => simp [routed] at created
  | ok v =>
    have roled := roled_of_formed formed routed
    have same : tagged hash p key = sharesCluster v := by simp only [tagged, routed]
    rw [same]
    simp only [routed, decideRoute_phase roled (.inl rfl) key] at created
    cases at_ : phaseOf hash v.state v.ramp key with
    | error => simp [at_, Except.map] at created
    | ok phase =>
      have got : handOf hash p key = .ok (handIn v phase) := by
        simp only [handOf, routed, at_]
      have rests := phase_rest_iff roled at_
      simp only [at_, Except.map, Except.ok.injEq] at created
      have apart : phase ≠ .rest → (handIn v phase).home ≠ (handIn v phase).target :=
        hand_apart formed got
      have shown : phase ≠ .rest → sharesCluster v ∨
          (handIn v phase).home.cluster ≠ (handIn v phase).target.cluster := by
        intro going
        have given : v.source ≠ "" := fun empty => going (rests.mpr empty)
        by_cases shared : v.clusterOf v.source = v.clusterOf v.primary
        · exact .inl (by simp [sharesCluster, given, shared])
        · exact .inr (by simpa [handIn, going, endpoint] using shared)
      refine ⟨_, got, ?_⟩
      cases phase with
      | rest | out =>
        simp only [phaseRoute, Bool.false_eq_true, if_false, Option.some.injEq,
          Prod.mk.injEq] at created
        obtain ⟨rfl, rfl⟩ := created
        exact ⟨.inl rfl, fun cut => (by cases cut.1), rfl⟩
      | held => simp [phaseRoute] at created
      | moved =>
        simp only [phaseRoute, inForce, reduceCtorEq, Bool.false_eq_true, if_false,
          Option.some.injEq, Prod.mk.injEq] at created
        obtain ⟨rfl, rfl⟩ := created
        exact ⟨.inr ⟨.inl rfl, rfl, shown (by simp)⟩, fun cut => (by cases cut.1), rfl⟩
      | cut =>
        simp only [phaseRoute, Bool.false_eq_true, if_false, Option.some.injEq,
          Prod.mk.injEq] at created
        obtain ⟨rfl, rfl⟩ := created
        exact ⟨.inr ⟨.inr rfl, rfl, shown (by simp)⟩, fun cut => apart (by simp) cut.2, rfl⟩

variable (hash) in
def TakenFrom (p : Placement) (key : Key) (bucket : Leg) : Prop :=
  ∃ a, handOf hash p key = .ok a ∧ CutFrom a bucket

variable (hash) in
def Keeps (key : Key) (bucket : Leg) (p q : Placement) : Prop :=
  Numeric Applied p q ∧ ¬ TakenFrom hash q key bucket

theorem knownSplit_of_hand {a : Hand Leg} (got : handOf hash p key = .ok a) :
    KnownSplit p := fun spread => known_of_hand spread got

variable (hash) in
theorem applied_hand (sound : Sound p) (split : KnownSplit p) (numbers : Numbered (rampOf p))
    (step : Numeric Applied p q) (key : Key) :
    ∃ kind a b, handOf hash p key = .ok a ∧ handOf hash q key = .ok b ∧ HandStep kind a b := by
  obtain ⟨⟨t, res⟩, post⟩ := step
  obtain ⟨t', -, step⟩ := apply_step sound.formed res
  exact ⟨_, applyStep_hand hash sound.formed sound.clean split step (fun _ => ⟨numbers, post⟩) key⟩

theorem split_run (sound : Sound p) (split : KnownSplit p)
    (run : ReflTransGen Applied p q) : KnownSplit q := by
  induction run with
  | refl => exact split
  | tail prev step ih =>
    obtain ⟨t, res⟩ := step
    obtain ⟨t', -, step⟩ := apply_step (sound.run prev).formed res
    exact applyStep_split (sound.run prev).formed ih step

theorem leads_run {tagged : Bool} (sound : Sound p) (numbers : Numbered (rampOf p))
    (start : ∃ a, handOf hash p key = .ok a ∧ Leads a bucket tagged ∧ ¬ CutFrom a bucket)
    (run : ReflTransGen (Keeps hash key bucket) p q) :
    (Sound q ∧ Numbered (rampOf q)) ∧ ∃ a, handOf hash q key = .ok a ∧ Leads a bucket tagged ∧
      ¬ CutFrom a bucket := by
  induction run with
  | refl => exact ⟨⟨sound, numbers⟩, start⟩
  | tail _ step ih =>
    obtain ⟨⟨sound, numbers⟩, a, got, leads, uncut⟩ := ih
    obtain ⟨kind, prev, b, atBefore, post, moves⟩ :=
      applied_hand hash sound (knownSplit_of_hand got) numbers step.1 key
    rw [got] at atBefore
    cases atBefore
    exact ⟨⟨sound.applied step.1.1, step.1.2⟩, b, post, HandStep.leads moves leads uncut,
      fun cut => step.2 ⟨b, post, cut⟩⟩

section

variable (hash clusterID bucketTag)

/-- A request with a given query stays with the bucket that issued its ids: it is delivered
there, with the backend's id, until the key is cut off from the bucket, and never to another. -/
structure StaysWith (clusters : List String) (key : Key) (bucket : Leg) (x : Key)
    (p q : Placement) (raw : Key) : Prop where
  delivered : ReflTransGen (Keeps hash key bucket) p q →
    ∃ query, uploadTo clusterID bucketTag hash clusters q key raw = .ok (bucket, query) ∧
      sentIDs query = (sentIDs raw).map fun _ => x
  only : ∀ b query, uploadTo clusterID bucketTag hash clusters q key raw = .ok (b, query) →
    b = bucket ∧ sentIDs query = (sentIDs raw).map fun _ => x

end

theorem uploadTo_resolve {a : Hand Leg} {tagged : Bool}
    {raw query : Key} (valid : q.Valid) (formed : Formed q) (got : handOf hash q key = .ok a)
    (linked : ∀ b ∈ buckets q, b.cluster ∈ clusters)
    (apart : ∀ name ∈ clusters, clusterID.of name = clusterID.of bucket.cluster →
      name = bucket.cluster)
    (rewrites : rewriteUploadIDs raw =
      some (query, prefixOf clusterID bucketTag bucket tagged)) (number : 35 ∉ query) :
    uploadTo clusterID bucketTag hash clusters q key raw =
      match resolve bucketTag a bucket.cluster
          (if tagged then bucketTag.of bucket.bucket else []) with
      | none => .error .noSuchUpload
      | some b => .ok (b, query) := by
  have whole : (cut 35 query).1 = query := by rw [cut_free number]
  obtain ⟨home, target⟩ := hand_buckets formed got
  obtain ⟨v, phase, routed, at_, rfl⟩ := handOf_view got
  have named := named_of_valid valid formed routed
  obtain ⟨route, decided, -⟩ := decideRoute_upload hash v key
  have isIn : ∀ x ∈ candidates (handIn v phase) bucket.cluster, x.cluster ∈ clusters := by
    intro x mem
    rcases (mem_candidates.mp mem).2 with same | ⟨going, same⟩
    · exact linked x (same ▸ home)
    · exact linked x (same ▸ target going)
  rw [← uploadRole_resolve named (phase_rest_iff named.roled at_) apart isIn]
  unfold uploadTo
  simp only [routed, decided, rewrites, if_neg (prefixOf_ne_nil bucket tagged), whole]
  cases uploadRole clusterID bucketTag v clusters
      (prefixOf clusterID bucketTag bucket tagged) with
  | none => rfl
  | some => rfl

variable (clusterID bucketTag) in
theorem uploadTo_unseen {a : Hand Leg} (clusters : List String) {raw : Key}
    (got : handOf hash q key = .ok a) (unseen : ¬ pload <:+: raw) (number : 35 ∉ raw) :
    ∃ b, uploadTo clusterID bucketTag hash clusters q key raw = .ok (b, raw) := by
  obtain ⟨v, phase, routed, -, -⟩ := handOf_view got
  obtain ⟨route, decided, -⟩ := decideRoute_upload hash v key
  refine ⟨endpoint v route.cluster, ?_⟩
  unfold uploadTo
  simp only [routed, decided, rewriteUploadIDs_unseen unseen, if_true, cut_free number]

theorem tagTells_of_buckets {a : Hand Leg} (formed : Formed q) (got : handOf hash q key = .ok a)
    (tags : ∀ b ∈ buckets q, bucketTag.of b.bucket = bucketTag.of bucket.bucket →
      b.bucket = bucket.bucket) : TagTells bucketTag a bucket := by
  intro x mem same
  obtain ⟨on, which⟩ := mem_candidates.mp mem
  obtain ⟨home, target⟩ := hand_buckets formed got
  have isIn : x ∈ buckets q := by
    rcases which with here | ⟨going, there⟩
    · exact here ▸ home
    · exact there ▸ target going
  have names := tags x isIn same
  cases x
  cases bucket
  simp only at on names
  rw [on, names]

variable (clusterID bucketTag) in
theorem decode_issued (bucket : Leg) (tagged : Bool) {x : Key} (given : x ≠ []) :
    decodeUploadID (encodeUploadID (prefixOf clusterID bucketTag bucket tagged) x) =
      some (prefixOf clusterID bucketTag bucket tagged, x) := by
  rw [encodeUploadID, if_neg given]
  exact decodeUploadID_prefixOf bucket tagged x

theorem prefixOf_eq_iff {other : Leg} (tagged tagged' : Bool)
    (ids : clusterID.of bucket.cluster = clusterID.of other.cluster →
      bucket.cluster = other.cluster)
    (tags : bucketTag.of bucket.bucket = bucketTag.of other.bucket → bucket.bucket = other.bucket)
    (differ : bucket ≠ other) :
    prefixOf clusterID bucketTag bucket tagged = prefixOf clusterID bucketTag other tagged' ↔
      bucket.cluster = other.cluster ∧ tagged = false ∧ tagged' = false := by
  constructor
  · intro same
    have split := congrArg splitUploadPrefix same
    rw [splitUploadPrefix_prefixOf, splitUploadPrefix_prefixOf, Prod.mk.injEq] at split
    have cluster := ids split.1
    cases tagged with
    | false =>
      cases tagged' with
      | false => exact ⟨cluster, rfl, rfl⟩
      | true => exact absurd split.2.symm (by simpa using bucketTag.ne_nil other.bucket)
    | true =>
      cases tagged' with
      | false => exact absurd split.2 (by simpa using bucketTag.ne_nil bucket.bucket)
      | true =>
        have name := tags (by simpa using split.2)
        cases bucket
        cases other
        simp only at cluster name
        exact absurd (by rw [cluster, name]) differ
  · rintro ⟨cluster, rfl, rfl⟩
    simp only [prefixOf, Bool.false_eq_true, if_false, cluster]

section

variable {start p' : Placement} {clusters : List String} {bucket other : Leg}
  {x x' handed handed' raw : Key}

theorem hand_forall {a : Hand Leg} {holds : Hand Leg → Prop} (got : handOf hash q key = .ok a) :
    (∀ a', handOf hash q key = .ok a' → holds a') ↔ holds a := by
  rw [got]
  exact ⟨fun all => all a rfl, fun one a' same => by cases same; exact one⟩

theorem staysWith_iff (sound : Sound p) (numbers : Numbered (rampOf p)) (number : 35 ∉ raw)
    (later : ReflTransGen Applied p q) (valid : q.Valid) (given : x ≠ [])
    (created : createUpload clusterID bucketTag hash p key x = .ok (some (bucket, handed)))
    (linked : ∀ b ∈ buckets q, b.cluster ∈ clusters)
    (ids : ∀ name ∈ clusters, clusterID.of name = clusterID.of bucket.cluster →
      name = bucket.cluster)
    (tags : ∀ b ∈ buckets q, bucketTag.of b.bucket = bucketTag.of bucket.bucket →
      b.bucket = bucket.bucket)
    (carries : sentIDs raw ≠ []) (all : ∀ id ∈ sentIDs raw, id = handed) :
    StaysWith hash clusterID bucketTag clusters key bucket x p q raw ↔
      pload <:+: raw ∧ (tagged hash p key ∨
        ∀ a, handOf hash q key = .ok a → OnlyIssuer a bucket) := by
  obtain ⟨first, foundFirst, leads, uncut, rfl⟩ := createUpload_leads sound.formed created
  have soundLater := sound.run later
  obtain ⟨a, got⟩ : ∃ a, handOf hash q key = .ok a :=
    handOf_ok soundLater (split_run sound (knownSplit_of_hand foundFirst) later) key
  have read := decode_issued clusterID bucketTag bucket (tagged hash p key) given
  have stripped : (sentIDs raw).map strip = (sentIDs raw).map fun _ => x := by
    refine map_congr_left fun id mem => ?_
    rw [all id mem, strip, read]
  obtain ⟨sent, isSent⟩ := exists_mem_of_ne_nil _ carries
  by_cases seen : pload <:+: raw
  · have same : ∀ d ∈ (sentIDs raw).filterMap decodeUploadID,
        d.1 = prefixOf clusterID bucketTag bucket (tagged hash p key) := by
      intro d mem
      obtain ⟨id, among, taken⟩ := List.mem_filterMap.mp mem
      rw [all id among, read] at taken
      cases taken
      rfl
    have some_ : (sentIDs raw).filterMap decodeUploadID ≠ [] := by
      rw [← all sent isSent] at read
      exact ne_nil_of_mem (List.mem_filterMap.mpr ⟨sent, isSent, read⟩)
    obtain ⟨query, rewrites, ids_, free⟩ := rewriteUploadIDs_same seen same some_
    rw [stripped] at ids_
    have sentTo := uploadTo_resolve valid soundLater.formed got linked ids rewrites (free number)
    have tells := tagTells_of_buckets soundLater.formed got tags
    have onlyLeads : (∀ b, resolve bucketTag a bucket.cluster
        (if tagged hash p key then bucketTag.of bucket.bucket else []) = some b → b = bucket) ↔
        (tagged hash p key ∨ ∀ a, handOf hash q key = .ok a → OnlyIssuer a bucket) := by
      cases tag : tagged hash p key with
      | true => exact ⟨fun _ => .inl rfl, fun _ b reached => resolve_tag tells reached⟩
      | false =>
        simp only [Bool.false_eq_true, if_false, false_or]
        rw [resolve_only_iff, hand_forall got]
    rw [← onlyLeads]
    constructor
    · intro stays
      refine ⟨seen, fun b reached => ?_⟩
      rw [reached] at sentTo
      exact (stays.only b query sentTo).1
    rintro ⟨-, only⟩
    constructor
    · intro kept
      obtain ⟨-, a', got', still, -⟩ := leads_run sound numbers
        ⟨first, foundFirst, leads, uncut⟩ kept
      rw [got] at got'
      cases got'
      rw [still.resolves tells] at sentTo
      exact ⟨query, sentTo, ids_⟩
    intro b query' told
    cases reached : resolve bucketTag a bucket.cluster
        (if tagged hash p key then bucketTag.of bucket.bucket else []) with
    | none =>
      rw [reached, told] at sentTo
      cases sentTo
    | some =>
      rw [reached, told] at sentTo
      cases sentTo
      exact ⟨only b reached, ids_⟩
  · constructor
    · intro stays
      obtain ⟨b, told⟩ := uploadTo_unseen clusterID bucketTag clusters got seen number
      have ids_ := (stays.only b raw told).2
      have here : sent = x := by
        have mem : sent ∈ (sentIDs raw).map fun _ => x := ids_ ▸ isSent
        obtain ⟨-, -, eq⟩ := List.mem_map.mp mem
        exact eq.symm
      rw [all sent isSent, encodeUploadID, if_neg given] at here
      have long := congrArg List.length here
      simp only [length_append, length_cons] at long
      omega
    · exact fun both => absurd both.1 seen

theorem two_buckets_iff (sound : Sound p) (number : 35 ∉ raw) (later : ReflTransGen Applied p q)
    (formed : Formed p') (valid : q.Valid) (given : x ≠ []) (given' : x' ≠ [])
    (created : createUpload clusterID bucketTag hash p key x = .ok (some (bucket, handed)))
    (created' : createUpload clusterID bucketTag hash p' key x' = .ok (some (other, handed')))
    (linked : ∀ b ∈ buckets q, b.cluster ∈ clusters) (ids : ∀ name ∈ other.cluster :: clusters,
      clusterID.of name = clusterID.of bucket.cluster → name = bucket.cluster)
    (tags : ∀ b ∈ other :: buckets q, bucketTag.of b.bucket = bucketTag.of bucket.bucket →
      b.bucket = bucket.bucket)
    (differ : bucket ≠ other) (first : handed ∈ sentIDs raw) (second : handed' ∈ sentIDs raw)
    (all : ∀ id ∈ sentIDs raw, id = handed ∨ id = handed') :
    uploadTo clusterID bucketTag hash clusters q key raw = .error .noSuchUpload ↔
      pload <:+: raw ∧ (bucket.cluster ≠ other.cluster ∨ tagged hash p key ∨ tagged hash p' key ∨
        ∀ a, handOf hash q key = .ok a → NoneOn a bucket.cluster) := by
  obtain ⟨a₀, foundFirst, -, -, rfl⟩ := createUpload_leads sound.formed created
  obtain ⟨-, -, -, -, rfl⟩ := createUpload_leads formed created'
  have soundLater := sound.run later
  obtain ⟨a, got⟩ : ∃ a, handOf hash q key = .ok a :=
    handOf_ok soundLater (split_run sound (knownSplit_of_hand foundFirst) later) key
  have read := decode_issued clusterID bucketTag bucket (tagged hash p key) given
  have read' := decode_issued clusterID bucketTag other (tagged hash p' key) given'
  have equal := prefixOf_eq_iff (tagged hash p key) (tagged hash p' key)
    (fun same => (ids other.cluster mem_cons_self same.symm).symm)
    (fun same => (tags other mem_cons_self same.symm).symm) differ
  by_cases seen : pload <:+: raw
  · by_cases same : prefixOf clusterID bucketTag bucket (tagged hash p key) =
        prefixOf clusterID bucketTag other (tagged hash p' key)
    · obtain ⟨cluster, plain, plain'⟩ := equal.mp same
      have one : ∀ d ∈ (sentIDs raw).filterMap decodeUploadID,
          d.1 = prefixOf clusterID bucketTag bucket (tagged hash p key) := by
        intro d mem
        obtain ⟨id, among, taken⟩ := List.mem_filterMap.mp mem
        rcases all id among with here | there
        · rw [here, read] at taken
          cases taken
          rfl
        rw [there, read'] at taken
        cases taken
        exact same.symm
      have some_ : (sentIDs raw).filterMap decodeUploadID ≠ [] :=
        ne_nil_of_mem (List.mem_filterMap.mpr ⟨_, first, read⟩)
      obtain ⟨query, rewrites, -, free⟩ := rewriteUploadIDs_same seen one some_
      have sentTo := uploadTo_resolve valid soundLater.formed got
        linked (fun name mem => ids name (mem_cons_of_mem _ mem)) rewrites (free number)
      rw [plain] at sentTo ⊢
      simp only [Bool.false_eq_true, if_false] at sentTo
      have nowhere : resolve bucketTag a bucket.cluster [] = none ↔
          ∀ a, handOf hash q key = .ok a → NoneOn a bucket.cluster := by
        rw [hand_forall got]
        constructor
        · intro none
          rw [resolve_untagged] at none
          refine ⟨fun on => ?_, fun going on => ?_⟩
          · rw [if_pos on] at none
            cases none
          split at none
          · cases none
          · rw [if_pos ⟨going, on⟩] at none
            cases none
        · rintro ⟨home, target⟩
          rw [resolve_untagged, if_neg home, if_neg (fun both => target both.1 both.2)]
      rw [plain', sentTo, ← nowhere]
      simp only [seen, cluster, ne_eq, not_true_eq_false, Bool.false_eq_true, false_or, true_and]
      cases resolve bucketTag a other.cluster [] with
      | none | some => simp
    · have fails := rewriteUploadIDs_conflict seen
        (List.mem_filterMap.mpr ⟨_, first, read⟩)
        (List.mem_filterMap.mpr ⟨_, second, read'⟩) same
      obtain ⟨v, phase, routed, -, -⟩ := handOf_view got
      obtain ⟨route, decided, -⟩ := decideRoute_upload hash v key
      have told : uploadTo clusterID bucketTag hash clusters q key raw =
          .error .noSuchUpload := by
        unfold uploadTo
        simp only [routed, decided, fails]
      refine ⟨fun _ => ⟨seen, ?_⟩, fun _ => told⟩
      by_contra none
      simp only [not_or, not_not, Bool.not_eq_true] at none
      exact same (equal.mpr ⟨none.1, none.2.1, none.2.2.1⟩)
  · obtain ⟨b, told⟩ := uploadTo_unseen clusterID bucketTag clusters got seen number
    rw [told]
    exact ⟨nofun, fun both => absurd both.1 seen⟩

/-- Uploads stay with the bucket that issued their id exactly while its id leads to no other
bucket and is read, and ids of two buckets are refused exactly where they are told apart. -/
theorem uploads_stay_iff (valid : start.Valid) (atRest : start.state = .active)
    (run : ReflTransGen Applied start p) (numbers : Numbered (rampOf p))
    (later : ReflTransGen Applied p q) (validLater : q.Valid) (given : x ≠ [])
    (created : createUpload clusterID bucketTag hash p key x = .ok (some (bucket, handed)))
    (linked : ∀ b ∈ buckets q, b.cluster ∈ clusters)
    (ids : ∀ name ∈ clusters, clusterID.of name = clusterID.of bucket.cluster →
      name = bucket.cluster)
    (tags : ∀ b ∈ buckets q, bucketTag.of b.bucket = bucketTag.of bucket.bucket →
      b.bucket = bucket.bucket) :
    (∀ raw, 35 ∉ raw → sentIDs raw ≠ [] → (∀ id ∈ sentIDs raw, id = handed) →
      (StaysWith hash clusterID bucketTag clusters key bucket x p q raw ↔
        pload <:+: raw ∧ (tagged hash p key = true ∨
          ∀ a, handOf hash q key = .ok a → OnlyIssuer a bucket))) ∧
    (∀ (p' : Placement) (other : Leg) (x' handed' raw : Key),
      ReflTransGen Applied start p' → ReflTransGen Applied p' q → x' ≠ [] →
      createUpload clusterID bucketTag hash p' key x' = .ok (some (other, handed')) →
      (clusterID.of other.cluster = clusterID.of bucket.cluster → other.cluster = bucket.cluster) →
      (bucketTag.of other.bucket = bucketTag.of bucket.bucket → other.bucket = bucket.bucket) →
      bucket ≠ other → 35 ∉ raw → handed ∈ sentIDs raw → handed' ∈ sentIDs raw →
      (∀ id ∈ sentIDs raw, id = handed ∨ id = handed') →
      (uploadTo clusterID bucketTag hash clusters q key raw = .error .noSuchUpload ↔
        pload <:+: raw ∧ (bucket.cluster ≠ other.cluster ∨ tagged hash p key = true ∨
          tagged hash p' key = true ∨
          ∀ a, handOf hash q key = .ok a → NoneOn a bucket.cluster))) := by
  have sound := (sound_active valid.formed atRest).run run
  constructor
  · intro raw number carries all
    exact staysWith_iff sound numbers number later validLater given created linked ids tags carries
      all
  intro p' other x' handed' raw run' _ given' created' ids' tags' differ number first second all
  have formed := ((sound_active valid.formed atRest).run run').formed
  exact two_buckets_iff sound number later formed validLater given given' created created' linked
    (forall_mem_cons.mpr ⟨ids', ids⟩) (forall_mem_cons.mpr ⟨tags', tags⟩) differ
    first second all

end

def photosReturning : Placement :=
  { photosMoved with
    state := .migrating, source := "west", primary := "east"
    names := photosMoved.names.insert "east" "acme-photos-2" }

def eastUpload : Key := uploadIdName ++ 61 :: (List.replicate 6 97 ++ [126, 117])

/-- An upload is delivered to its bucket while the bucket migrates. -/
theorem photos_upload_stays :
    StaysWith (fun _ => 0) sampleDigest sampleDigest ["east", "west"] [] ⟨"east", "acme-photos"⟩
      [117] Migrate.photos photosMigrating eastUpload ∧
    ReflTransGen (Keeps (fun _ => 0) [] ⟨"east", "acme-photos"⟩) Migrate.photos
      photosMigrating := by
  have first : Applied Migrate.photos photosMigrating :=
    ⟨{ toState := some .migrating, target := "west", name := "acme-photos" }, by decide⟩
  have valid : Migrate.photos.Valid := valid_of_directory rfl (by decide)
  have validLater : photosMigrating.Valid := valid_of_directory rfl (by decide)
  have hand : handOf (fun _ => 0) photosMigrating [] =
      .ok ⟨.moved, ⟨"east", "acme-photos"⟩, ⟨"west", "acme-photos"⟩⟩ := rfl
  have created : createUpload sampleDigest sampleDigest (fun _ => 0) Migrate.photos [] [117] =
      .ok (some (⟨"east", "acme-photos"⟩, List.replicate 6 97 ++ [126, 117])) := by decide
  have linked : ∀ b ∈ buckets photosMigrating, b.cluster ∈ ["east", "west"] := by decide
  have claim := uploads_stay_iff valid rfl .refl numbered_none (.single first) validLater
    (by decide) created
    linked (by decide) (by decide)
  refine ⟨(claim.1 eastUpload (by decide) (by decide) (by decide)).mpr ⟨by decide, Or.inr ?_⟩,
    .single ⟨⟨first, numbered_none⟩, ?_⟩⟩
  · intro a got
    rw [hand] at got
    cases got
    exact ⟨fun _ => rfl, fun _ on => absurd on (by decide)⟩
  rintro ⟨a, got, cut⟩
  rw [hand] at got
  cases got
  exact absurd cut.1 (by decide)

/-- Once the bucket has moved to west and is on its way back under another name, the upload's
request goes to the new bucket. -/
theorem photos_upload_misdelivered :
    Migrate.photos.Valid ∧ ReflTransGen Applied Migrate.photos photosReturning ∧
    photosReturning.Valid ∧
    createUpload sampleDigest sampleDigest (fun _ => 0) Migrate.photos [] [117] =
      .ok (some (⟨"east", "acme-photos"⟩, List.replicate 6 97 ++ [126, 117])) ∧
    uploadTo sampleDigest sampleDigest (fun _ => 0) ["east", "west"] photosReturning [] eastUpload =
      .ok (⟨"east", "acme-photos-2"⟩, uploadIdName ++ [61, 117]) := by
  have first : Applied Migrate.photos photosMigrating :=
    ⟨{ toState := some .migrating, target := "west", name := "acme-photos" }, by decide⟩
  have second : Applied photosMigrating photosCutover := ⟨{ toState := some .cutover }, by decide⟩
  have third : Applied photosCutover photosMoved := ⟨{ toState := some .active }, by decide⟩
  have fourth : Applied photosMoved photosReturning :=
    ⟨{ toState := some .migrating, target := "east", name := "acme-photos-2" }, by decide⟩
  exact ⟨valid_of_directory rfl (by decide), .tail (.tail (.tail (.single first) second) third)
    fourth, valid_of_directory rfl (by decide), by decide, by decide⟩

end Shunt.Proxy
