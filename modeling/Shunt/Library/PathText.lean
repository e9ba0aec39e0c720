/-
URL paths as bytes: the decoding of a path, its default encoding, which encodings
are valid, and the text a parsed URL is written with.  A byte that is neither a
percent sign nor a digit of one splits a path's decoding in two.
-/

import Shunt.Library.Query

namespace Shunt.Library

open List Option

/-- A path decoded: a percent sign starts a byte in two hexadecimal digits, and a plus
stands for itself. -/
def pathUnescape : List UInt8 → Option (List UInt8)
  | [] => some []
  | c :: rest =>
    if c = 37 then
      match rest with
      | hi :: lo :: later =>
        match hexPair hi lo with
        | none => none
        | some b => (pathUnescape later).map (b :: ·)
      | _ => none
    else (pathUnescape rest).map (c :: ·)

def pathKept (c : UInt8) : Bool := unreserved c || [36, 38, 43, 44, 47, 58, 59, 61, 64].contains c

def pathEscapeByte (c : UInt8) : List UInt8 :=
  if pathKept c then [c] else [37, upperHex (c >>> 4), upperHex (c &&& 15)]

def pathEscape (s : List UInt8) : List UInt8 := s.flatMap pathEscapeByte

def validEncoded (s : List UInt8) : Bool :=
  s.all fun c => pathKept c || [33, 39, 40, 41, 42, 91, 93, 37].contains c

def escapedPath (sent : List UInt8) : List UInt8 :=
  if validEncoded sent then sent else pathEscape ((pathUnescape sent).getD sent)

/-- A byte that a percent sign cannot reach over. -/
def Plain (c : UInt8) : Prop := c ≠ 37 ∧ hexValue c = none

variable {s d prev post : List UInt8} {c : UInt8}

theorem pathUnescape_other (percent : c ≠ 37) (rest : List UInt8) :
    pathUnescape (c :: rest) = (pathUnescape rest).map (c :: ·) := by
  conv_lhs => unfold pathUnescape
  cases rest with
  | nil => simp [percent]
  | cons hi later =>
    cases later with
    | nil | cons => simp [percent]

theorem pathUnescape_percent (hi lo : UInt8) (rest : List UInt8) :
    pathUnescape (37 :: hi :: lo :: rest) =
      (hexPair hi lo).bind fun b => (pathUnescape rest).map (b :: ·) := by
  simp only [pathUnescape, if_true]
  cases hexPair hi lo <;> rfl

theorem pathUnescape_plain (plain : Plain c) (prev post : List UInt8) :
    pathUnescape (prev ++ c :: post) =
      (pathUnescape prev).bind fun x => (pathUnescape post).map (x ++ c :: ·) := by
  induction prev using pathUnescape.induct with
  | case1 =>
    rw [nil_append, pathUnescape_other plain.1]
    simp [pathUnescape]
  | case2 hi lo later gone =>
    simp [pathUnescape_percent, gone]
  | case3 hi lo later b read ih =>
    simp only [cons_append, pathUnescape_percent, read, bind_some, ih]
    cases pathUnescape later <;> cases pathUnescape post <;> simp
  | case4 rest short =>
    -- what is left of an unfinished percent sign cannot be finished by a plain byte
    have none_before : pathUnescape (37 :: rest) = none := by
      unfold pathUnescape
      simp only [if_true]
    rw [none_before, bind_none]
    match rest, short with
    | [], _ =>
      cases post with
      | nil => rfl
      | cons => simp [pathUnescape_percent, hexPair, plain.2]
    | [hi], _ => simp [pathUnescape_percent, hexPair, plain.2]
    | hi :: lo :: later, short => exact absurd rfl (short hi lo later)
  | case5 b rest other ih =>
    rw [cons_append, pathUnescape_other other, pathUnescape_other other, ih]
    cases pathUnescape rest <;> cases pathUnescape post <;> simp

theorem pathUnescape_append (free : 37 ∉ prev) (post : List UInt8) :
    pathUnescape (prev ++ post) = (pathUnescape post).map (prev ++ ·) := by
  induction prev with
  | nil => simp
  | cons b rest ih =>
    rw [mem_cons, not_or] at free
    rw [cons_append, pathUnescape_other (Ne.symm free.1), ih free.2]
    cases pathUnescape post <;> simp

theorem pathKept_other (kept : pathKept c) : c ≠ 37 := by
  rintro rfl
  exact absurd kept (by decide)

theorem pathEscape_append (prev post : List UInt8) :
    pathEscape (prev ++ post) = pathEscape prev ++ pathEscape post :=
  flatMap_append

theorem pathUnescape_pathEscape (s : List UInt8) : pathUnescape (pathEscape s) = some s := by
  induction s with
  | nil => rfl
  | cons c rest ih =>
    rw [pathEscape, flatMap_cons, ← pathEscape, pathEscapeByte]
    by_cases kept : pathKept c
    · rw [if_pos kept, singleton_append, pathUnescape_other (pathKept_other kept), ih]
      rfl
    rw [if_neg kept]
    simp only [cons_append, nil_append, pathUnescape_percent, hexPair_upperHex, ih,
      bind_some, map_some]

theorem mem_pathEscape {b : UInt8} (other : unreserved b = false ∧ b ≠ 37)
    (mem : b ∈ pathEscape s) : b ∈ s ∧ pathKept b = true := by
  obtain ⟨c, among, isIn⟩ := mem_flatMap.mp mem
  unfold pathEscapeByte at isIn
  split at isIn
  · rename_i kept
    rw [mem_singleton.mp isIn]
    exact ⟨among, kept⟩
  rcases mem_escaped isIn with kept | percent
  · simp [other.1] at kept
  · exact absurd percent other.2

theorem slash_mem_pathEscape (mem : 47 ∈ pathEscape s) : 47 ∈ s :=
  (mem_pathEscape (by decide) mem).1

theorem eq_cut {sep : UInt8} (mem : sep ∈ s) : s = (cut sep s).1 ++ sep :: (cut sep s).2 := by
  induction s with
  | nil => cases mem
  | cons c rest ih =>
    by_cases eq : c = sep
    · simp [cut, eq]
    have later := ih ((mem_cons.mp mem).resolve_left (Ne.symm eq))
    simp only [cut] at later ⊢
    have kept : decide (c ≠ sep) := decide_eq_true eq
    rw [takeWhile_cons, dropWhile_cons]
    simpa only [kept, if_true, cons_append, List.cons.injEq, true_and] using later

theorem cut_pathEscape (s : List UInt8) :
    cut 47 (pathEscape s) = (pathEscape (cut 47 s).1, pathEscape (cut 47 s).2) := by
  by_cases mem : 47 ∈ s
  · have free : 47 ∉ pathEscape (cut 47 s).1 :=
      fun isIn => not_mem_cut 47 s (slash_mem_pathEscape isIn)
    conv_lhs => rw [eq_cut mem, pathEscape_append]
    exact cut_joined free
  · rw [cut_free fun isIn => mem (slash_mem_pathEscape isIn), cut_free mem]
    rfl

theorem pathUnescape_escapedPath (read : pathUnescape s = some d) :
    pathUnescape (escapedPath s) = some d := by
  unfold escapedPath
  split
  · exact read
  · rw [read, getD_some, pathUnescape_pathEscape]

theorem escapedPath_invalid (invalid : validEncoded s = false) (read : pathUnescape s = some d) :
    escapedPath s = pathEscape d := by
  rw [escapedPath, if_neg (by simp [invalid]), read, getD_some]

theorem escapedPath_valid (valid : validEncoded s) : escapedPath s = s := if_pos valid

theorem pathEscape_kept (kept : ∀ c ∈ s, pathKept c) : pathEscape s = s := by
  induction s with
  | nil => rfl
  | cons c rest ih =>
    rw [pathEscape, flatMap_cons, ← pathEscape, ih fun x mem =>
      kept x (mem_cons_of_mem _ mem), pathEscapeByte,
      if_pos (kept c mem_cons_self), singleton_append]

theorem valid_pathEscapeByte (c : UInt8) : validEncoded (pathEscapeByte c) = true :=
  @forall_byte (fun c => validEncoded (pathEscapeByte c) = true) (by decide +kernel) c

theorem validEncoded_escapedPath (s : List UInt8) : validEncoded (escapedPath s) = true := by
  unfold escapedPath
  split
  · assumption
  rw [validEncoded, List.all_eq_true]
  intro c mem
  obtain ⟨b, _, isIn⟩ := mem_flatMap.mp mem
  exact List.all_eq_true.mp (valid_pathEscapeByte b) c isIn

end Shunt.Library
