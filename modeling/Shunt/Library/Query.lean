/-
Query strings as bytes: the percent-encoding of a value, the pairs between
ampersands, and a name cut from its value at the first equals sign.  A value
that is encoded reads back as it was, and pairs that are joined are split into
the same pairs.
-/

import Mathlib.Data.List.Infix

namespace Shunt.Library

open List

variable {s : List UInt8} {sep : UInt8}

def cut (sep : UInt8) (s : List UInt8) : List UInt8 × List UInt8 :=
  (s.takeWhile (· ≠ sep), (s.dropWhile (· ≠ sep)).tail)

def unreserved (c : UInt8) : Bool :=
  (65 ≤ c && c ≤ 90) || (97 ≤ c && c ≤ 122) || (48 ≤ c && c ≤ 57) || c == 45 || c == 95 ||
    c == 46 || c == 126

def upperHex (n : UInt8) : UInt8 := if n < 10 then 48 + n else 55 + n

def escapeByte (c : UInt8) : List UInt8 :=
  if unreserved c then [c] else [37, upperHex (c >>> 4), upperHex (c &&& 15)]

def escape (s : List UInt8) : List UInt8 := s.flatMap escapeByte

def hexValue (c : UInt8) : Option UInt8 :=
  if 48 ≤ c ∧ c ≤ 57 then some (c - 48)
  else if 97 ≤ c ∧ c ≤ 102 then some (c - 87)
  else if 65 ≤ c ∧ c ≤ 70 then some (c - 55)
  else none

def hexPair (hi lo : UInt8) : Option UInt8 :=
  match hexValue hi, hexValue lo with
  | some a, some b => some (a * 16 + b)
  | _, _ => none

/-- A query component decoded: a plus is a blank, and a percent sign starts a byte
in two hexadecimal digits. -/
def unescape : List UInt8 → Option (List UInt8)
  | [] => some []
  | c :: rest =>
    if c = 37 then
      match rest with
      | hi :: lo :: later =>
        match hexPair hi lo with
        | none => none
        | some b => (unescape later).map (b :: ·)
      | _ => none
    else (unescape rest).map ((if c = 43 then 32 else c) :: ·)

def queryPair (piece : List UInt8) : Option (List UInt8 × List UInt8) :=
  if 59 ∈ piece then none
  else
    match unescape (cut 61 piece).1, unescape (cut 61 piece).2 with
    | some name, some value => some (name, value)
    | _, _ => none

def queryPieces (q : List UInt8) : List (List UInt8) := (q.splitOn 38).filter (· ≠ [])

def parseQuery (q : List UInt8) : Option (List (List UInt8 × List UInt8)) :=
  (queryPieces q).mapM queryPair

def readQuery (q : List UInt8) : List (List UInt8 × List UInt8) :=
  (queryPieces q).filterMap queryPair

def firstValue (pairs : List (List UInt8 × List UInt8)) (name : List UInt8) : List UInt8 :=
  ((pairs.find? fun pair => decide (pair.1 = name)).map Prod.snd).getD []

theorem forall_byte {P : UInt8 → Prop} (each : ∀ n < 256, P (UInt8.ofNat n)) (c : UInt8) : P c := by
  have read := each c.toNat (UInt8.toNat_lt_size c)
  rwa [UInt8.ofNat_toNat] at read

theorem kept_plain {c : UInt8} (kept : unreserved c) : c ≠ 37 ∧ c ≠ 43 := by
  constructor
  · rintro rfl
    exact absurd kept (by decide)
  · rintro rfl
    exact absurd kept (by decide)

theorem upperHex_digits (c : UInt8) : hexPair (upperHex (c >>> 4)) (upperHex (c &&& 15)) = some c ∧
      unreserved (upperHex (c >>> 4)) ∧ unreserved (upperHex (c &&& 15)) = true :=
  @forall_byte (fun c => hexPair (upperHex (c >>> 4)) (upperHex (c &&& 15)) = some c ∧
    unreserved (upperHex (c >>> 4)) ∧ unreserved (upperHex (c &&& 15)) = true)
    (by decide +kernel) c

theorem hexPair_upperHex (c : UInt8) :
    hexPair (upperHex (c >>> 4)) (upperHex (c &&& 15)) = some c :=
  (upperHex_digits c).1

theorem mem_escaped {b c : UInt8} (mem : b ∈ [37, upperHex (c >>> 4), upperHex (c &&& 15)]) :
    unreserved b ∨ b = 37 := by
  simp only [mem_cons, not_mem_nil, or_false] at mem
  rcases mem with rfl | rfl | rfl
  · exact .inr rfl
  · exact .inl (upperHex_digits c).2.1
  · exact .inl (upperHex_digits c).2.2

theorem mem_escape {b : UInt8} (mem : b ∈ escape s) : unreserved b ∨ b = 37 := by
  obtain ⟨c, _, isIn⟩ := mem_flatMap.mp mem
  unfold escapeByte at isIn
  split at isIn
  · rename_i kept
    exact .inl (mem_singleton.mp isIn ▸ kept)
  · exact mem_escaped isIn

theorem not_mem_escape {b : UInt8} (other : unreserved b = false ∧ b ≠ 37) (s : List UInt8) :
    b ∉ escape s := by
  intro mem
  rcases mem_escape mem with kept | percent
  · simp [other.1] at kept
  · exact other.2 percent

theorem unescape_plain {c : UInt8} (percent : c ≠ 37) (rest : List UInt8) :
    unescape (c :: rest) = (unescape rest).map ((if c = 43 then 32 else c) :: ·) := by
  conv_lhs => unfold unescape
  cases rest with
  | nil => simp [percent]
  | cons hi later =>
    cases later with
    | nil | cons => simp [percent]

theorem unescape_percent (hi lo : UInt8) (rest : List UInt8) : unescape (37 :: hi :: lo :: rest) =
      (hexPair hi lo).bind fun b => (unescape rest).map (b :: ·) := by
  simp only [unescape, if_true]
  cases hexPair hi lo <;> rfl

theorem unescape_escape (s : List UInt8) : unescape (escape s) = some s := by
  induction s with
  | nil => rfl
  | cons c rest ih =>
    rw [escape, flatMap_cons, ← escape, escapeByte]
    by_cases kept : unreserved c
    · obtain ⟨percent, plus⟩ := kept_plain kept
      rw [if_pos kept, singleton_append, unescape_plain percent, ih, if_neg plus]
      rfl
    rw [if_neg kept]
    simp only [cons_append, nil_append, unescape_percent, hexPair_upperHex, ih,
      Option.bind_some, Option.map_some]

theorem ampersand_not_mem_escape (s : List UInt8) : 38 ∉ escape s :=
  not_mem_escape (by decide) s

theorem semicolon_not_mem_escape (s : List UInt8) : 59 ∉ escape s :=
  not_mem_escape (by decide) s

theorem number_not_mem_escape (s : List UInt8) : 35 ∉ escape s :=
  not_mem_escape (by decide) s

theorem cut_joined {prev post : List UInt8} (free : sep ∉ prev) :
    cut sep (prev ++ sep :: post) = (prev, post) := by
  have other : ∀ c ∈ prev, decide (c ≠ sep) := by
    intro c mem
    exact decide_eq_true fun eq => free (eq ▸ mem)
  rw [cut, takeWhile_append_of_pos other, dropWhile_append_of_pos other]
  simp

theorem cut_free (free : sep ∉ s) : cut sep s = (s, []) := by
  induction s with
  | nil => rfl
  | cons c rest ih =>
    rw [mem_cons, not_or] at free
    have tail := ih free.2
    simp only [cut, Prod.mk.injEq] at tail ⊢
    have kept : decide (c ≠ sep) := decide_eq_true (Ne.symm free.1)
    rw [takeWhile_cons, dropWhile_cons]
    simp only [kept, if_true, tail, and_self]

theorem not_mem_cut (sep : UInt8) (s : List UInt8) : sep ∉ (cut sep s).1 := by
  intro mem
  induction s with
  | nil => cases mem
  | cons c rest ih =>
    by_cases eq : c = sep
    · simp [cut, eq] at mem
    have split : (cut sep (c :: rest)).1 = c :: (cut sep rest).1 := by simp [cut, eq]
    rw [split] at mem
    rcases mem_cons.mp mem with here | later
    · exact eq here.symm
    · exact ih later

theorem mem_of_mem_cut {c : UInt8} (mem : c ∈ (cut sep s).1) : c ∈ s :=
  (takeWhile_sublist _).subset mem

theorem cut_cons {c : UInt8} (other : c ≠ sep) (s : List UInt8) :
    (cut sep (c :: s)).1 = c :: (cut sep s).1 := by
  simp [cut, other]

theorem cut_any_left {f : UInt8 → Bool} {prev post : List UInt8} (none : post.any f = false) :
    (cut sep (prev ++ post)).1.any f = (cut sep prev).1.any f := by
  induction prev with
  | nil =>
    rw [nil_append, List.any_eq_false.mpr fun c mem => any_eq_false.mp none c (mem_of_mem_cut mem)]
    rfl
  | cons c rest ih =>
    by_cases here : c = sep
    · simp [cut, here]
    · rw [cons_append, cut_cons here, cut_cons here, any_cons, any_cons, ih]

theorem cut_any_right {f : UInt8 → Bool} {prev post : List UInt8} (free : sep ∉ prev)
    (none : prev.any f = false) : (cut sep (prev ++ post)).1.any f = (cut sep post).1.any f := by
  induction prev with
  | nil => rfl
  | cons c rest ih =>
    rw [mem_cons, not_or] at free
    rw [any_cons, Bool.or_eq_false_iff] at none
    rw [cons_append, cut_cons (Ne.symm free.1), any_cons, none.1, Bool.false_or, ih free.2 none.2]

theorem mem_cut {c : UInt8} (other : c ≠ sep) (mem : c ∈ s) :
    c ∈ (cut sep s).1 ∨ c ∈ (cut sep s).2 := by
  induction s with
  | nil => cases mem
  | cons d rest ih =>
    by_cases here : d = sep
    · exact .inr (by simpa [cut, here, other] using mem)
    rw [cut_cons here, mem_cons]
    have post : (cut sep (d :: rest)).2 = (cut sep rest).2 := by simp [cut, here]
    rw [post]
    rcases mem_cons.mp mem with first | later
    · exact .inl (.inl first)
    · exact (ih later).imp_left .inr

theorem number_mem_unescape {t : List UInt8} (read : unescape s = some t) (mem : 35 ∈ s) :
    35 ∈ t := by
  fun_induction unescape s generalizing t with
  | case1 => cases mem
  | case2 => cases read
  | case3 hi lo later b pair ih =>
    obtain ⟨rest, decoded, rfl⟩ := Option.map_eq_some_iff.mp read
    simp only [mem_cons] at mem ⊢
    -- a number sign is no hexadecimal digit
    rcases mem with percent | rfl | rfl | isIn
    · exact absurd percent (by decide)
    · cases pair
    · unfold hexPair at pair
      split at pair
      · rename_i none
        cases none
      · cases pair
    · exact .inr (ih decoded isIn)
  | case4 => cases read
  | case5 c rest percent ih =>
    obtain ⟨later, decoded, rfl⟩ := Option.map_eq_some_iff.mp read
    rcases mem_cons.mp mem with rfl | isIn
    · exact mem_cons_self
    · exact mem_cons_of_mem _ (ih decoded isIn)

theorem number_mem_queryPair {piece : List UInt8} {p : List UInt8 × List UInt8}
    (read : queryPair piece = some p) (mem : 35 ∈ piece) : 35 ∈ p.1 ∨ 35 ∈ p.2 := by
  have parts : (35 : UInt8) ∈ (cut 61 piece).1 ∨ 35 ∈ (cut 61 piece).2 := mem_cut (by decide) mem
  unfold queryPair at read
  split at read
  · cases read
  split at read
  · rename_i name value
    cases read
    exact parts.imp (number_mem_unescape name) (number_mem_unescape value)
  · cases read

theorem not_mem_of_mem_splitOn {part : List UInt8} (mem : part ∈ s.splitOn sep) : sep ∉ part := by
  induction s generalizing part with
  | nil =>
    simp only [splitOn_nil, mem_singleton] at mem
    simp [mem]
  | cons c rest ih =>
    rw [List.splitOn, splitOnP_cons_eq_if_modifyHead] at mem
    by_cases eq : c = sep
    · rw [if_pos (by simpa using eq)] at mem
      rcases mem_cons.mp mem with first | later
      · simp [first]
      · exact ih later
    rw [if_neg (by simpa using eq)] at mem
    cases parts : rest.splitOnP (· == sep) with
    | nil =>
      rw [parts] at mem
      cases mem
    | cons head tail =>
      have isIn : ∀ x ∈ head :: tail, sep ∉ x := by
        intro x among
        exact ih (by rw [List.splitOn, parts]; exact among)
      rw [parts, modifyHead_cons] at mem
      rcases mem_cons.mp mem with first | later
      · rw [first]
        rintro lt
        rcases mem_cons.mp lt with here | deeper
        · exact eq here.symm
        · exact isIn head mem_cons_self deeper
      · exact isIn part (mem_cons_of_mem _ later)

theorem mem_intercalate {c : UInt8} (other : c ≠ sep) {parts : List (List UInt8)} :
    c ∈ [sep].intercalate parts ↔ ∃ part ∈ parts, c ∈ part := by
  induction parts with
  | nil => simp [intercalate]
  | cons part rest ih =>
    cases rest with
    | nil => simp [intercalate]
    | cons => simpa [intercalate, other] using or_congr_right ih

theorem splitOn_free (free : sep ∉ s) : s.splitOn sep = [s] := by
  have joined : ([sep].intercalate [s]).splitOn sep = [s] :=
    splitOn_intercalate sep (by simpa using free) (by simp)
  simpa using joined

theorem readQuery_single {name : List UInt8} (plain : unescape name = some name)
    (free : 38 ∉ name ∧ 59 ∉ name ∧ 61 ∉ name) (value : List UInt8) :
    readQuery (name ++ 61 :: escape value) = [(name, value)] := by
  have ampersand : 38 ∉ name ++ 61 :: escape value := by
    simp [free.1, ampersand_not_mem_escape]
  have semicolon : 59 ∉ name ++ 61 :: escape value := by
    simp [free.2.1, semicolon_not_mem_escape]
  have there : name ++ 61 :: escape value ≠ [] := by simp
  rw [readQuery, queryPieces, splitOn_free ampersand]
  simp [there, queryPair, semicolon, cut_joined free.2.2, plain, unescape_escape]

end Shunt.Library
