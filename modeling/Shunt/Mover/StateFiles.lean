/-
The files in which the mover keeps its place in a placement and the ledger of what it did.
The tenant and the bucket are joined with a hyphen, which both may hold: two placements use the
same files exactly when one tenant goes on with a hyphen and the start of the other's bucket.
-/

import Shunt.Directory.Validate

namespace Shunt.Mover

open Directory List

/-- The directories of the files, as cleaned paths. -/
structure Paths where
  cursorDir : String
  ledgerDir : String

def inDir (dir name : String) : String :=
  (if dir = "" ∨ dir = "." then "" else if dir = "/" then "/" else dir ++ "/") ++ name

def safeName (tenant client : String) : String :=
  String.ofList ((tenant ++ "-" ++ client).toList.map fun c => if c = '/' then '-' else c)

def cursorPath (paths : Paths) (tenant client : String) : String :=
  inDir paths.cursorDir ("mover-" ++ safeName tenant client ++ ".cursor")

def moveLedger (paths : Paths) (tenant client : String) : String :=
  inDir paths.ledgerDir ("mover-" ++ safeName tenant client ++ ".ledger.jsonl")

def ledgerPath (paths : Paths) (key : String) : String :=
  if '/' ∈ key.toList then
    moveLedger paths (String.ofList (key.toList.takeWhile (· ≠ '/')))
      (String.ofList ((key.toList.dropWhile (· ≠ '/')).drop 1))
  else moveLedger paths "default" key

structure ValidName (tenant bucket : String) : Prop where
  tenant : validTenant tenant = true
  bucket : validBucketName bucket = true

/-- No file of one placement is a file of the other. -/
structure FilesApart (paths : Paths) (t b t₂ b₂ : String) : Prop where
  cursors : cursorPath paths t b ≠ cursorPath paths t₂ b₂
  ledgers : moveLedger paths t b ≠ moveLedger paths t₂ b₂
  read : ledgerPath paths (placementKey t b) ≠ ledgerPath paths (placementKey t₂ b₂)
  crossed : cursorPath paths t b ≠ moveLedger paths t₂ b₂
  crossed₂ : moveLedger paths t b ≠ cursorPath paths t₂ b₂

/-- The second tenant is the first with the start of the first's bucket. -/
def Overlaps (t b t₂ b₂ : String) : Prop :=
  ∃ mid : List Char, t₂.toList = t.toList ++ '-' :: mid ∧ b.toList = mid ++ '-' :: b₂.toList

variable {paths : Paths} {t b t₂ b₂ : String}

theorem slash_not_mem_tenant (valid : validTenant t) : '/' ∉ t.toList := by
  simp only [validTenant, Bool.and_eq_true] at valid
  intro mem
  exact absurd (List.all_eq_true.mp valid.2 _ mem) (by decide)

theorem slash_not_mem_bucket (valid : validBucketName b) : '/' ∉ b.toList := by
  simp only [validBucketName, Bool.and_eq_true] at valid
  intro mem
  exact absurd (List.all_eq_true.mp valid.1.1.1.1.1.1.2 _ mem) (by decide)

theorem safeName_valid (valid : ValidName t b) :
    (safeName t b).toList = t.toList ++ '-' :: b.toList := by
  have eq : ∀ c ∈ (t ++ "-" ++ b).toList, (if c = '/' then '-' else c) = c := by
    intro c mem
    refine if_neg ?_
    rintro rfl
    simp only [String.toList_append, mem_append] at mem
    rcases mem with (inTenant | isIn) | inBucket
    · exact slash_not_mem_tenant valid.tenant inTenant
    · exact absurd isIn (by decide)
    · exact slash_not_mem_bucket valid.bucket inBucket
  rw [safeName, String.toList_ofList, map_congr_left eq, map_id'']
  · simp
  · exact fun _ => rfl

theorem ledgerPath_key (valid : ValidName t b) :
    ledgerPath paths (placementKey t b) = moveLedger paths t b := by
  have free := slash_not_mem_tenant valid.tenant
  have key : (placementKey t b).toList = t.toList ++ '/' :: b.toList := by
    simp [placementKey, String.toList_append]
  have other : ∀ c ∈ t.toList, decide (c ≠ '/') :=
    fun c mem => decide_eq_true fun eq => free (eq ▸ mem)
  rw [ledgerPath, key, if_pos (by simp), takeWhile_append_of_pos other,
    dropWhile_append_of_pos other]
  simp

theorem same_file {dir prev post : String} :
    inDir dir (prev ++ safeName t b ++ post) = inDir dir (prev ++ safeName t₂ b₂ ++ post) ↔
      safeName t b = safeName t₂ b₂ := by
  simp [inDir, String.append_right_inj, String.append_left_inj]

theorem other_file {dir dir₂ prev prev₂ : String} :
    inDir dir (prev ++ ".cursor") ≠ inDir dir₂ (prev₂ ++ ".ledger.jsonl") := by
  intro eq
  have last := congrArg (fun s => s.toList.getLast?) eq
  simp [inDir] at last

theorem overlaps_of_split {mid : List Char} (uniq : (t, b) ≠ (t₂, b₂))
    (tenants : t₂.toList = t.toList ++ mid) (buckets : '-' :: b.toList = mid ++ '-' :: b₂.toList) :
    Overlaps t b t₂ b₂ := by
  cases mid with
  | nil =>
    simp only [append_nil, nil_append, List.cons.injEq, true_and] at tenants buckets
    rw [String.toList_inj] at tenants buckets
    exact absurd (by rw [tenants, buckets]) uniq
  | cons c mid =>
    obtain ⟨rfl, rest⟩ := List.cons.inj buckets
    exact ⟨mid, tenants, rest⟩

theorem safeName_eq_iff (valid : ValidName t b) (valid₂ : ValidName t₂ b₂)
    (uniq : (t, b) ≠ (t₂, b₂)) :
    safeName t b = safeName t₂ b₂ ↔ Overlaps t b t₂ b₂ ∨ Overlaps t₂ b₂ t b := by
  rw [← String.toList_inj, safeName_valid valid, safeName_valid valid₂]
  constructor
  · intro eq
    rcases append_eq_append_iff.mp eq with ⟨mid, tenants, buckets⟩ | ⟨mid, tenants, buckets⟩
    · exact .inl (overlaps_of_split uniq tenants buckets)
    · exact .inr (overlaps_of_split uniq.symm tenants buckets)
  rintro (⟨mid, tenant, bucket⟩ | ⟨mid, tenant, bucket⟩)
  · simp [tenant, bucket]
  · simp [tenant, bucket]

theorem state_files_apart_iff (paths : Paths) (valid : ValidName t b) (valid₂ : ValidName t₂ b₂)
    (uniq : (t, b) ≠ (t₂, b₂)) :
    FilesApart paths t b t₂ b₂ ↔ ¬ Overlaps t b t₂ b₂ ∧ ¬ Overlaps t₂ b₂ t b := by
  rw [← not_or, ← safeName_eq_iff valid valid₂ uniq]
  constructor
  · exact fun apart eq => apart.cursors (same_file.mpr eq)
  intro differ
  refine ⟨fun eq => differ (same_file.mp eq), fun eq => differ (same_file.mp eq), ?_,
    other_file, other_file.symm⟩
  rw [ledgerPath_key valid, ledgerPath_key valid₂]
  exact fun eq => differ (same_file.mp eq)

theorem photos_files_apart : FilesApart ⟨"", ""⟩ "acme" "photos" "acme" "films" :=
  (state_files_apart_iff _ ⟨by decide, by decide⟩ ⟨by decide, by decide⟩ (by decide)).mpr
    ⟨fun ⟨_, tenant, _⟩ => absurd (congrArg List.length tenant) (by simp),
      fun ⟨_, tenant, _⟩ => absurd (congrArg List.length tenant) (by simp)⟩

/-- The bucket `old-photos` of `acme` and the bucket `photos` of `acme-old`. -/
theorem old_photos_share : ValidName "acme" "old-photos" ∧ ValidName "acme-old" "photos" ∧
      cursorPath ⟨"", ""⟩ "acme" "old-photos" = cursorPath ⟨"", ""⟩ "acme-old" "photos" ∧
      moveLedger ⟨"", ""⟩ "acme" "old-photos" = moveLedger ⟨"", ""⟩ "acme-old" "photos" :=
  ⟨⟨by decide, by decide⟩, ⟨by decide, by decide⟩, by decide, by decide⟩

end Shunt.Mover
