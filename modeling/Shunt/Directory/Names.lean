/-
The names of backend buckets that are created for clients: the tenant, four digits of a hash,
and the client's bucket, cut to the length of a bucket name.
-/

import Shunt.Directory.Validate
import Shunt.Library.Json
import Mathlib.Data.List.DropRight

namespace Shunt.Directory

open List

open Library (bytesOf)

def lowerHex (n : UInt8) : Char := Char.ofNat (if n < 10 then 48 + n.toNat else 87 + n.toNat)

def hexText (b : UInt8) : List Char := [lowerHex (b >>> 4), lowerHex (b &&& 15)]

def dotOrHyphen (c : Char) : Bool := c == '.' || c == '-'

def backendName (digest : List UInt8 → UInt8 × UInt8) (tenant bucket : String) (attempt : Int) :
    String :=
  let sum := digest (bytesOf (tenant ++ "/" ++ bucket ++
    if 0 < attempt then "#" ++ toString attempt else ""))
  let name := tenant.toList.map Char.toLower ++ '-' :: (hexText sum.1 ++ hexText sum.2 ++
    '-' :: bucket.toList.map Char.toLower)
  String.ofList (if 63 < name.length then (name.take 63).rdropWhile dotOrHyphen else name)

def keptBucket (tenant bucket : String) : List Char :=
  if 57 < tenant.toList.length + bucket.toList.length then
    (bucket.toList.take (57 - tenant.toList.length)).rdropWhile dotOrHyphen
  else bucket.toList

structure Unreserved (tenant bucket : String) : Prop where
  start : ∀ pre ∈ reservedBucketPrefixes, ¬ pre.toList <+: tenant.toList ++ ['-']
  finish : ∀ suf ∈ reservedBucketSuffixes, ¬ suf.toList <:+ '-' :: keptBucket tenant bucket

variable {tenant bucket : String}

theorem hexChar_lowerHex (b : UInt8) :
    hexChar (lowerHex (b >>> 4)) ∧ hexChar (lowerHex (b &&& 15)) = true := by
  have each : ∀ n < 256, hexChar (lowerHex (UInt8.ofNat n >>> 4)) ∧
      hexChar (lowerHex (UInt8.ofNat n &&& 15)) = true := by decide +kernel
  have read := each b.toNat (UInt8.toNat_lt_size b)
  rwa [UInt8.ofNat_toNat] at read

theorem all_hexText (a b : UInt8) : (hexText a ++ hexText b).all hexChar = true := by
  simp [hexText, hexChar_lowerHex]

theorem isLower_eq (c : Char) :
    c.isLower = (decide (c.val ≥ 'a'.val) && decide (c.val ≤ 'z'.val)) := rfl

theorem toLower_bucketChar {c : Char} (plain : (bucketLetter c || dotOrHyphen c)) :
    c.toLower = c := by
  have upper : 'A'.val.toNat = 65 ∧ 'Z'.val.toNat = 90 := ⟨rfl, rfl⟩
  have lower : 'a'.val.toNat = 97 ∧ '9'.val.toNat = 57 := ⟨rfl, rfl⟩
  unfold Char.toLower
  refine dif_neg ?_
  rintro ⟨low, high⟩
  simp only [bucketLetter, dotOrHyphen, isLower_eq, Char.isDigit, Bool.or_eq_true,
    Bool.and_eq_true, decide_eq_true_eq, beq_iff_eq, ge_iff_le, UInt32.le_iff_toNat_le]
    at plain low high
  rcases plain with (letter | digit) | rfl | rfl
  · omega
  · omega
  · exact absurd low (by decide)
  · exact absurd low (by decide)

/-- What is used of a valid tenant or bucket, and of what is kept of a bucket. -/
structure PartWell (cs : List Char) : Prop where
  first : cs.head?.any bucketLetter = true
  chars : ∀ c ∈ cs, (bucketLetter c || dotOrHyphen c) = true
  dots : noDoubleDot cs = true

theorem dots_append {a l : List Char} (none_ : '.' ∉ a) : noDoubleDot (a ++ l) = noDoubleDot l := by
  induction a with
  | nil => rfl
  | cons c rest ih =>
    rw [mem_cons, not_or] at none_
    rw [cons_append, noDoubleDot, ih none_.2]
    intro _ eq
    exact absurd eq.symm none_.1

theorem dots_of_start {a l : List Char} (start : a <+: l) (dots : noDoubleDot l) :
    noDoubleDot a = true := by
  fun_induction noDoubleDot l generalizing a with
  | case1 => cases dots
  | case2 c rest other ih =>
    cases a with
    | nil => rfl
    | cons =>
      obtain ⟨rfl, isIn⟩ := List.cons_prefix_cons.mp start
      rw [noDoubleDot, ih isIn dots]
      rintro more rfl rfl
      obtain ⟨tail, rfl⟩ := isIn
      exact other _ rfl rfl
  | case3 => rw [List.prefix_nil.mp start]; rfl

theorem tenant_well (valid : validTenant tenant) :
    PartWell tenant.toList ∧ tenant.toList.length ≤ 32 ∧ '.' ∉ tenant.toList := by
  simp only [validTenant, Bool.and_eq_true, decide_eq_true_eq] at valid
  obtain ⟨⟨⟨⟨some_, short⟩, start⟩, -⟩, chars⟩ := valid
  have dotless : '.' ∉ tenant.toList := fun mem =>
    absurd (List.all_eq_true.mp chars _ mem) (by decide)
  have each : ∀ c ∈ tenant.toList, bucketLetter c ∨ c = '-' := by
    intro c mem
    have kept := List.all_eq_true.mp chars c mem
    simpa [tenantChar, bucketLetter] using kept
  refine ⟨⟨?_, fun c mem => ?_, ?_⟩, short, dotless⟩
  · cases cs : tenant.toList with
    | nil => exact absurd (String.toList_eq_nil_iff.mp cs) some_
    | cons c =>
      rw [cs] at start each
      have letter := (each c mem_cons_self).resolve_right fun eq => start (by simp [eq])
      simp [letter]
  · rcases each c mem with letter | rfl
    · simp [letter]
    · decide
  · simpa [noDoubleDot] using dots_append (l := []) dotless

theorem bucket_well (valid : validBucketName bucket) :
    PartWell bucket.toList ∧ bucket.toList.getLast?.any bucketLetter = true := by
  simp only [validBucketName, Bool.and_eq_true] at valid
  obtain ⟨⟨⟨⟨⟨⟨⟨-, chars⟩, first⟩, last⟩, dots⟩, -⟩, -⟩, -⟩ := valid
  refine ⟨⟨first, fun c mem => ?_, dots⟩, last⟩
  have kept := List.all_eq_true.mp chars c mem
  simpa [dotOrHyphen, Bool.or_assoc] using kept

theorem rdropWhile_append {p : Char → Bool} {a b : List Char}
    (some_ : ∃ c ∈ b, p c = false) : (a ++ b).rdropWhile p = a ++ b.rdropWhile p := by
  obtain ⟨c, mem, stops⟩ := some_
  have left : (b.reverse.dropWhile p).isEmpty = false := by
    rw [List.isEmpty_eq_false_iff, Ne, dropWhile_eq_nil_iff]
    exact fun every => by simp [every c (mem_reverse.mpr mem)] at stops
  simp [List.rdropWhile, dropWhile_append, left]

theorem letter_of_hex {c : Char} (hex : hexChar c) : bucketLetter c = true := by
  simp only [hexChar, bucketLetter, isLower_eq, Bool.or_eq_true, Bool.and_eq_true,
    decide_eq_true_eq] at hex ⊢
  rcases hex with digit | ⟨low, high⟩
  · exact .inr digit
  · exact .inl ⟨low, le_trans high (by decide)⟩

theorem letter_stops {c : Char} (letter : bucketLetter c) : dotOrHyphen c = false := by
  by_contra other
  simp only [dotOrHyphen, Bool.not_eq_false, Bool.or_eq_true, beq_iff_eq] at other
  rcases other with rfl | rfl
  · exact absurd letter (by decide)
  · exact absurd letter (by decide)

theorem head_of_start {a l : List Char} (start : a <+: l) (some_ : a ≠ []) : a.head? = l.head? := by
  obtain ⟨rest, rfl⟩ := start
  cases a with
  | nil => exact absurd rfl some_
  | cons => rfl

theorem first_stops {l : List Char} (first : l.head?.any bucketLetter) :
    ∃ c ∈ l, dotOrHyphen c = false := by
  cases l with
  | nil => cases first
  | cons c => exact ⟨c, mem_cons_self, letter_stops first⟩

theorem cut_first (short : tenant.toList.length ≤ 32) (well : PartWell bucket.toList) :
    (bucket.toList.take (57 - tenant.toList.length)).head?.any bucketLetter = true := by
  rw [head?_take, if_neg (by omega)]
  exact well.first

theorem kept_well (short : tenant.toList.length ≤ 32) (well : PartWell bucket.toList)
    (last : bucket.toList.getLast?.any bucketLetter) : PartWell (keptBucket tenant bucket) ∧
      (keptBucket tenant bucket).getLast?.any bucketLetter ∧
      tenant.toList.length + (keptBucket tenant bucket).length ≤ 57 := by
  unfold keptBucket
  split
  · have cut := cut_first short well
    have start := List.rdropWhile_prefix dotOrHyphen
      (bucket.toList.take (57 - tenant.toList.length))
    have all := start.trans <| List.take_prefix _ bucket.toList
    have some_ : (bucket.toList.take (57 - tenant.toList.length)).rdropWhile dotOrHyphen ≠ [] := by
      rw [Ne, rdropWhile_eq_nil_iff]
      obtain ⟨c, mem, stops⟩ := first_stops cut
      exact fun every => by simp [every c mem] at stops
    have chars := fun c mem => well.chars c (all.subset mem)
    refine ⟨⟨(head_of_start all some_).symm ▸ well.first, chars, dots_of_start all well.dots⟩,
      ?_, ?_⟩
    · have stops := rdropWhile_last_not dotOrHyphen _ some_
      have kept := chars _ (getLast_mem some_)
      rw [getLast?_eq_some_getLast some_, Option.any_some]
      simpa [stops] using kept
    have length := start.length_le
    rw [length_take] at length
    omega
  · exact ⟨well, last, by omega⟩

theorem backendName_eq (digest : List UInt8 → UInt8 × UInt8) (attempt : Int)
    (tenantWell : PartWell tenant.toList) (short : tenant.toList.length ≤ 32)
    (well : PartWell bucket.toList) : ∃ a b, (backendName digest tenant bucket attempt).toList =
      tenant.toList ++ '-' :: (hexText a ++ hexText b ++ '-' :: keptBucket tenant bucket) := by
  have eq : ∀ {cs : List Char}, PartWell cs → cs.map Char.toLower = cs := by
    intro cs part
    exact (map_congr_left fun c mem => toLower_bucketChar (part.chars c mem)).trans (List.map_id cs)
  simp only [backendName, String.toList_ofList, eq tenantWell, eq well]
  generalize digest _ = sum
  refine ⟨sum.1, sum.2, ?_⟩
  have joined (k : List Char) :
      tenant.toList ++ '-' :: (hexText sum.1 ++ hexText sum.2 ++ '-' :: k) =
      (tenant.toList ++ '-' :: (hexText sum.1 ++ hexText sum.2 ++ ['-'])) ++ k := by
    simp
  have length : (tenant.toList ++ '-' :: (hexText sum.1 ++ hexText sum.2 ++ ['-'])).length =
      tenant.toList.length + 6 := by
    simp [hexText]
  rw [joined bucket.toList, joined (keptBucket tenant bucket), length_append, length, keptBucket]
  by_cases long : 57 < tenant.toList.length + bucket.toList.length
  · rw [if_pos (by omega), if_pos long, take_append, length,
      take_of_length_le (by omega), show 63 - (tenant.toList.length + 6) =
        57 - tenant.toList.length by omega, rdropWhile_append (first_stops (cut_first short well))]
  · rw [if_neg (by omega), if_neg long]

/-- After a hyphen in the text, the next four characters are not all of a hash. -/
def Marked (text : List Char) : Prop :=
  ∀ k < text.length, text[k]? = some '-' → text.drop (k + 1) ≠ [] →
    ((text.drop (k + 1)).take 4).all hexChar = false

theorem reserved_marked : (∀ pre ∈ reservedBucketPrefixes, Marked pre.toList) ∧
      ∀ suf ∈ reservedBucketSuffixes, Marked suf.toList.reverse := by
  unfold Marked
  decide

theorem prefix_marked {text a hash rest : List Char} (marked : Marked text)
    (hex : hash.all hexChar) (four : hash.length = 4) :
    text <+: a ++ '-' :: (hash ++ rest) ↔ text <+: a ++ ['-'] := by
  have start : a ++ ['-'] <+: a ++ '-' :: (hash ++ rest) := ⟨hash ++ rest, by simp⟩
  refine ⟨fun isIn => ?_, fun isIn => isIn.trans start⟩
  rcases Nat.le_total text.length (a ++ ['-']).length with short | long
  · exact List.prefix_of_prefix_length_le isIn start short
  obtain ⟨more, rfl⟩ := List.prefix_of_prefix_length_le start isIn long
  by_cases none_ : more = []
  · simp [none_]
  have bad := marked a.length (by simp) (by simp) (by simpa using none_)
  rw [show (a ++ ['-'] ++ more).drop (a.length + 1) = more by simp] at bad
  have among : more <+: hash ++ rest := by
    rw [append_assoc, singleton_append, List.prefix_append_right_inj] at isIn
    exact (List.cons_prefix_cons.mp isIn).2
  have lt : more.take 4 <+: hash :=
    List.prefix_of_prefix_length_le (( List.take_prefix 4 more).trans among) ⟨rest, rfl⟩
      (by rw [four, length_take]; exact Nat.min_le_left 4 _)
  have good : (more.take 4).all hexChar :=
    List.all_eq_true.mpr fun c mem => List.all_eq_true.mp hex c (lt.subset mem)
  rw [good] at bad
  cases bad

theorem suffix_marked {text k hash rest : List Char} (marked : Marked text.reverse)
    (hex : hash.all hexChar) (four : hash.length = 4) :
    text <:+ rest ++ '-' :: (hash ++ '-' :: k) ↔ text <:+ '-' :: k := by
  rw [← List.reverse_prefix, ← List.reverse_prefix]
  have turned := @prefix_marked text.reverse k.reverse hash.reverse ('-' :: rest.reverse) marked
    (by simpa using hex) (by simpa using four)
  simpa using turned

theorem mem_intercalate {c x : Char} {fields : List (List Char)}
    (mem : c ∈ [x].intercalate fields) : c = x ∨ ∃ f ∈ fields, c ∈ f := by
  induction fields with
  | nil => simp at mem
  | cons f rest ih =>
    cases rest with
    | nil => exact .inr ⟨f, by simp, by simpa using mem⟩
    | cons =>
      rw [intercalate_cons_cons, mem_append, mem_append, mem_singleton] at mem
      rcases mem with (here | mark) | later
      · exact .inr ⟨f, by simp, here⟩
      · exact .inl mark
      · exact (ih later).imp_right fun ⟨h, among, isIn⟩ => ⟨h, by simp [among], isIn⟩

theorem not_parsesAsIP {cs : List Char} (hyphen : '-' ∈ cs) : parsesAsIP cs = false := by
  by_contra parses
  simp only [parsesAsIP, Bool.not_eq_false, Bool.and_eq_true] at parses
  have joined : ['.'].intercalate (cs.splitOn '.') = cs := intercalate_splitOn '.'
  rcases mem_intercalate (joined.symm ▸ hyphen) with mark | ⟨f, among, isIn⟩
  · exact absurd mark (by decide)
  have field := List.all_eq_true.mp parses.2 f among
  simp only [ipv4Field, Bool.and_eq_true] at field
  exact absurd (List.all_eq_true.mp field.1.1.1.1 _ isIn) (by decide)

theorem backendName_valid_iff (digest : List UInt8 → UInt8 × UInt8) (attempt : Int)
    (tenantValid : validTenant tenant = true) (bucketValid : validBucketName bucket = true) :
    validBucketName (backendName digest tenant bucket attempt) = true ↔
      Unreserved tenant bucket := by
  obtain ⟨tenantWell, short, dotless⟩ := tenant_well tenantValid
  obtain ⟨well, last⟩ := bucket_well bucketValid
  obtain ⟨keptWell, keptLast, fits⟩ := kept_well short well last
  obtain ⟨a, b, name⟩ := backendName_eq digest attempt tenantWell short well
  have hex := all_hexText a b
  have starts : ∀ pre ∈ reservedBucketPrefixes, _ := fun pre mem =>
    @prefix_marked _ tenant.toList _ ('-' :: keptBucket tenant bucket)
      (reserved_marked.1 pre mem) hex rfl
  have ends : ∀ suf ∈ reservedBucketSuffixes, _ := fun suf mem =>
    @suffix_marked _ (keptBucket tenant bucket) _ tenant.toList
      (reserved_marked.2 suf mem) hex rfl
  simp only [validBucketName, name, Bool.and_eq_true, List.all_eq_true, Bool.not_eq_true',
    ← Bool.not_eq_true, List.isPrefixOf_iff_prefix, List.isSuffixOf_iff_suffix]
  constructor
  · rintro ⟨⟨-, start⟩, finish⟩
    exact ⟨fun pre mem isIn => start pre mem ((starts pre mem).mpr isIn),
      fun suf mem isIn => finish suf mem ((ends suf mem).mpr isIn)⟩
  rintro ⟨start, finish⟩
  refine ⟨⟨?_, fun pre mem isIn => start pre mem ((starts pre mem).mp isIn)⟩,
    fun suf mem isIn => finish suf mem ((ends suf mem).mp isIn)⟩
  have chars : ∀ c ∈ tenant.toList ++ '-' :: (hexText a ++ hexText b ++
      '-' :: keptBucket tenant bucket), (bucketLetter c || dotOrHyphen c) = true := by
    intro c mem
    rw [mem_append, mem_cons, mem_append, mem_cons] at mem
    rcases mem with inTenant | rfl | inHash | rfl | inBucket
    · exact tenantWell.chars c inTenant
    · rfl
    · simp [letter_of_hex (List.all_eq_true.mp hex c inHash)]
    · rfl
    · exact keptWell.chars c inBucket
  refine ⟨⟨⟨⟨⟨⟨?_, ?_⟩, ?_⟩, ?_⟩, ?_⟩, ?_⟩, ?_⟩
  · simp [hexText]
    omega
  · simp [hexText]
    omega
  · exact fun c mem => by simpa [dotOrHyphen, Bool.or_assoc] using chars c mem
  · have some_ : tenant.toList ≠ [] := fun none_ => by simpa [none_] using tenantWell.first
    rw [← head_of_start (List.prefix_append _ _) some_]
    exact tenantWell.first
  · have kept : keptBucket tenant bucket ≠ [] := fun none_ => by simp [none_] at keptLast
    rw [getLast?_eq_some_getLast kept] at keptLast
    simpa [getLast?_append, getLast?_cons, getLast?_eq_some_getLast kept] using keptLast
  · have inHash : '.' ∉ hexText a ++ hexText b := fun mem =>
      absurd (List.all_eq_true.mp hex _ mem) (by decide)
    have joined : tenant.toList ++ '-' :: (hexText a ++ hexText b ++ '-' ::
        keptBucket tenant bucket) = (tenant.toList ++ '-' :: (hexText a ++ hexText b ++ ['-'])) ++
          keptBucket tenant bucket := by simp
    rw [joined, dots_append (by simpa [dotless] using inHash)]
    exact keptWell.dots
  · simp [not_parsesAsIP]

theorem photos_name_valid :
    validBucketName (backendName (fun _ => (0, 0)) "acme" "photos" 0) = true :=
  (backendName_valid_iff _ 0 (by decide) (by decide)).mpr ⟨by decide, by decide⟩

/-- The tenant `sthree`, and the bucket `s3alias`. -/
theorem reserved_name_built : validTenant "sthree" = true ∧ validBucketName "photos" = true ∧
      validBucketName (backendName (fun _ => (0, 0)) "sthree" "photos" 0) = false ∧
      validTenant "acme" = true ∧ validBucketName "s3alias" = true ∧
      validBucketName (backendName (fun _ => (0, 0)) "acme" "s3alias" 0) = false := by
  decide +kernel

end Shunt.Directory
