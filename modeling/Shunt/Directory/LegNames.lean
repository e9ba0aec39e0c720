/-
The search for the id of a new leg: which of its candidates the leg id rule
allows, and for which cluster names it ends.
-/

import Mathlib.Data.List.Perm.Subperm
import Shunt.Directory.RoundTrip

namespace Shunt.Directory

open List

/-- The leg id rule without its length. -/
def LegText (cs : List Char) : Prop :=
  cs.head?.any legHead = true ∧ ∀ c ∈ cs, legChar c = true

variable {legs : StrMap Leg} {cluster : String}

theorem legID_iff (id : String) : legID id ↔ LegText id.toList ∧ id.toList.length ≤ 63 := by
  unfold legID LegText
  cases id.toList with
  | nil => simp
  | cons c =>
    have letter : legHead c → legChar c := fun head => by simp [legChar, head]
    simp only [Bool.and_eq_true, List.all_eq_true, decide_eq_true_eq, head?_cons,
      Option.any_some, forall_mem_cons, length_cons]
    constructor
    · rintro ⟨⟨head, chars⟩, short⟩
      exact ⟨⟨head, letter head, chars⟩, by omega⟩
    · rintro ⟨⟨head, -, chars⟩, short⟩
      exact ⟨⟨head, chars⟩, by omega⟩

theorem legText_append {a b : List Char} (some_ : a ≠ []) :
    LegText (a ++ b) ↔ LegText a ∧ ∀ c ∈ b, legChar c = true := by
  rw [LegText, LegText, head?_append_of_ne_nil a some_, forall_mem_append, and_assoc]

theorem legText_take {cs : List Char} {n m : Nat} (pos : 0 < n)
    (lt : n ≤ m) (text : LegText (cs.take m)) : LegText (cs.take n) := by
  have all : cs.take m = cs.take n ++ (cs.take m).drop n := by
    have kept : (cs.take m).take n = cs.take n := by
      rw [take_take, Nat.min_eq_left lt]
    rw [← kept, take_append_drop]
  rw [all] at text
  refine ((legText_append fun none_ => ?_).mp text).1
  rcases take_eq_nil_iff.mp none_ with zero | empty
  · omega
  subst empty
  have head := text.1
  simp at head

theorem counterText_chars (n : Nat) : ∀ c ∈ counterText n, legChar c = true := by
  have digit : ∀ m, ∀ c ∈ Nat.toDigits 10 m, legChar c := by
    intro m c mem
    have decimal := Nat.isDigit_of_mem_toDigits (by decide) (by decide) mem
    simp only [Char.isDigit, Bool.and_eq_true, decide_eq_true_eq] at decimal
    simp only [legChar, legHead, Bool.or_eq_true, Bool.and_eq_true, decide_eq_true_eq]
    exact .inl (.inl (.inr decimal))
  unfold counterText
  dsimp only
  split
  · exact digit _
  · rw [forall_mem_cons]
    exact ⟨by decide, digit _⟩

theorem counterText_length (n : Nat) : (counterText n).length ≤ 20 := by
  have short : ∀ m < 10 ^ 19, (Nat.toDigits 10 m).length ≤ 19 := fun m small =>
    (Nat.length_toDigits_le_iff (by decide) (by decide)).mpr small
  unfold counterText
  dsimp only
  split
  · have bounded := short (n % 2 ^ 64) (by omega)
    omega
  have bounded := short (2 ^ 64 - n % 2 ^ 64) (by omega)
  rw [length_cons]
  omega

theorem numberedLegID_toList (cluster : String) (n : Nat) : (numberedLegID cluster n).toList =
      cluster.toList.take (62 - (counterText n).length) ++ '-' :: counterText n := by
  have short := counterText_length n
  unfold numberedLegID
  dsimp only
  split
  · rw [String.toList_ofList]
    congr 2
    omega
  rename_i fits
  rw [length_append, length_cons] at fits
  rw [String.toList_ofList, take_of_length_le (by omega)]

/-- A numbered candidate follows the rule when what is kept of the cluster's name does. -/
theorem legID_numbered (n : Nat) : legID (numberedLegID cluster n) ↔
    LegText (cluster.toList.take (62 - (counterText n).length)) := by
  have short := counterText_length n
  rw [legID_iff, numberedLegID_toList]
  have number : ∀ c ∈ '-' :: counterText n, legChar c :=
    forall_mem_cons.mpr ⟨by decide, counterText_chars n⟩
  constructor
  · rintro ⟨text, -⟩
    refine ((legText_append fun none_ => ?_).mp text).1
    rw [none_] at text
    exact absurd text.1 (by simp [legHead])
  intro text
  have some_ : cluster.toList.take (62 - (counterText n).length) ≠ [] := by
    intro none_
    rw [none_] at text
    have head := text.1
    simp at head
  refine ⟨(legText_append some_).mpr ⟨text, number⟩, ?_⟩
  rw [length_append, length_take, length_cons]
  omega

theorem search_endless (rounds : Nat) (candidates : ∀ n, legID (numberedLegID cluster n) = false) :
    ∀ n id, legID id = false → newLegIDWithin legs cluster rounds n id = none := by
  induction rounds with
  | zero => exact fun _ _ _ => rfl
  | succ rounds ih =>
    intro n id illegal
    rw [newLegIDWithin, if_neg fun free => by simp [illegal] at free]
    exact ih _ _ (candidates n)

theorem search_ends {k : Nat} (free : numberedLegID cluster k ∉ legs)
    (legal : legID (numberedLegID cluster k)) (rounds : Nat) : ∀ n id, n ≤ k → k < n + rounds →
      ∃ got, newLegIDWithin legs cluster (rounds + 1) n id = some got := by
  induction rounds with
  | zero => intro n id low high; omega
  | succ rounds ih =>
    intro n id low high
    rw [newLegIDWithin]
    split
    · exact ⟨id, rfl⟩
    rcases Nat.eq_or_lt_of_le low with eq | later
    · subst eq
      exact ⟨_, by rw [newLegIDWithin, if_pos ⟨free, legal⟩]⟩
    · exact ih _ _ later (by omega)

/-- Of more distinct names than there are legs, one is free. -/
theorem exists_free {count : Nat} (few : legs.size < count) (name : Nat → String)
    (uniq : ∀ i < count, ∀ j < count, name i = name j → i = j) : ∃ i < count, name i ∉ legs := by
  by_contra taken
  push Not at taken
  have nodup : ((List.range count).map name).Nodup :=
    List.Nodup.map_on (fun i atI j atJ eq =>
      uniq i (mem_range.mp atI) j (mem_range.mp atJ) eq) nodup_range
  have isIn : (List.range count).map name ⊆ legs.keys := by
    intro id mem
    obtain ⟨i, among, rfl⟩ := List.mem_map.mp mem
    exact Std.ExtTreeMap.mem_keys.mpr (taken i (mem_range.mp among))
  have bound := (nodup.subperm isIn).length_le
  rw [length_map, length_range, Std.ExtTreeMap.length_keys] at bound
  omega

/-- The last counter values: their text takes twenty characters, and they are all different. -/
theorem numbered_late {i : Nat} (lt : i < 2 ^ 62) :
    counterText (2 ^ 63 + i) = '-' :: Nat.toDigits 10 (2 ^ 63 - i) ∧
      (counterText (2 ^ 63 + i)).length = 20 := by
  have word : (2 ^ 63 + i) % 2 ^ 64 = 2 ^ 63 + i := Nat.mod_eq_of_lt (by omega)
  have text : counterText (2 ^ 63 + i) = '-' :: Nat.toDigits 10 (2 ^ 63 - i) := by
    unfold counterText
    dsimp only
    rw [word, if_neg (by omega)]
    congr 2
    omega
  refine ⟨text, Nat.le_antisymm (counterText_length _) ?_⟩
  have long : ¬ (Nat.toDigits 10 (2 ^ 63 - i)).length ≤ 18 := by
    rw [Nat.length_toDigits_le_iff (by decide) (by decide)]
    omega
  rw [text, length_cons]
  omega

/-- The search ends exactly for the cluster names of which what the longest number leaves follows
the leg id rule.  A map in memory has fewer than 2^62 entries. -/
theorem newLegID_found_iff (legs : StrMap Leg) (cluster : String) (held : legs.size < 2 ^ 62) :
    (∃ id, newLegID legs cluster = some id ∧ legID id = true ∧ id ∉ legs) ↔
      legID (String.ofList (cluster.toList.take 42)) = true := by
  have kept : legID (String.ofList (cluster.toList.take 42)) = true ↔
      LegText (cluster.toList.take 42) := by
    rw [legID_iff, String.toList_ofList, length_take]
    exact and_iff_left (by omega)
  rw [kept]
  constructor
  · rintro ⟨id, got, -⟩
    by_contra illegal
    have all : legID cluster = false := by
      rw [← Bool.not_eq_true, legID_iff]
      rintro ⟨text, -⟩
      refine illegal (legText_take (m := cluster.toList.length + 42) (by decide) (by omega) ?_)
      rwa [take_of_length_le (by omega)]
    have numbered : ∀ n, legID (numberedLegID cluster n) = false := by
      intro n
      have short := counterText_length n
      rw [← Bool.not_eq_true, legID_numbered]
      exact fun text => illegal (legText_take (by decide) (by omega) text)
    rw [newLegID, search_endless _ numbered _ _ all] at got
    cases got
  · intro text
    obtain ⟨i, lt, free⟩ := exists_free held (fun i => numberedLegID cluster (2 ^ 63 + i)) (by
      intro i atI j atJ eq
      have texts := congrArg String.toList eq
      rw [numberedLegID_toList, numberedLegID_toList, (numbered_late atI).2, (numbered_late atJ).2,
        (numbered_late atI).1, (numbered_late atJ).1] at texts
      have digits := (List.cons.inj (List.cons.inj (append_cancel_left texts)).2).2
      have numbers := congrArg (fun ds => Nat.ofDigitChars 10 ds 0) digits
      simp only [Nat.ofDigitChars_ten_toDigits] at numbers
      omega)
    have legal : legID (numberedLegID cluster (2 ^ 63 + i)) = true := by
      rw [legID_numbered, (numbered_late lt).2]
      exact text
    obtain ⟨id, got⟩ := search_ends free legal (2 ^ 64) 2 cluster (by omega) (by omega)
    obtain ⟨gone, wellNamed⟩ := newLegIDWithin_ok got
    exact ⟨id, got, wellNamed, gone⟩

def eastLegs : StrMap Leg :=
  ((∅ : StrMap Leg).insert "east" ⟨"east", "a"⟩).insert "east-2" ⟨"east", "b"⟩

theorem third_east_named : ∃ id, newLegID eastLegs "east" = some id ∧ legID id = true ∧
    id ∉ eastLegs :=
  (newLegID_found_iff eastLegs "east" (by decide)).mpr (by decide)

/-- A directory with a cluster whose name is a capital letter. -/
def capitalFile : File :=
  { photosFile with clusters := photosFile.clusters.insert "A" eastStore }

theorem capital_never_named :
    capitalFile.validate = [] ∧ capitalFile.placements["acme/photos"]? = some photos ∧
      "A" ∈ capitalFile.clusters ∧ newLegID photos.legs "A" = none := by
  refine ⟨by decide, by decide, by decide, ?_⟩
  refine search_endless _ (fun n => ?_) _ _ (by decide)
  have short := counterText_length n
  rw [← Bool.not_eq_true, legID_numbered]
  intro text
  have first := legText_take (n := 1) (by decide) (by omega) text
  exact absurd first.1 (by decide)

end Shunt.Directory
