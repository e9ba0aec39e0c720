/-
What a bucket lists: objects and common prefixes, named in byte order.
-/

import Shunt.Directory.Scopes
import Shunt.Library.Paging

namespace Shunt.Proxy

open Directory List

instance byteLawful : LawfulBEq UInt8 := inferInstance

/-- Bytes by their value: keys are compared byte by byte. -/
instance byteOrder : LinearOrder UInt8 where
  le_refl := UInt8.le_refl
  le_trans := fun _ _ _ => UInt8.le_trans
  le_antisymm := fun _ _ => UInt8.le_antisymm
  le_total := UInt8.le_total
  lt_iff_le_not_ge := by
    intro a b
    rw [UInt8.not_le]
    exact ⟨fun less => ⟨UInt8.le_of_lt less, less⟩, And.right⟩
  toDecidableLE := inferInstance
  toDecidableLT := inferInstance
  toDecidableEq := inferInstance

section

variable {n k a : Key}

theorem prefix_not_lt (starts : n <+: k) : ¬ k < n := by
  obtain ⟨rest, rfl⟩ := starts
  induction n with
  | nil => exact not_lt_nil _
  | cons b n ih =>
    rw [cons_append, cons_lt_cons_iff]
    rintro (less | ⟨-, less⟩)
    · exact lt_irrefl b less
    · exact ih less

theorem prefix_between (starts : n <+: k) (above : ¬ a < n) (below : ¬ k < a) : n <+: a := by
  obtain ⟨rest, rfl⟩ := starts
  induction n generalizing a with
  | nil => exact List.nil_prefix
  | cons b n ih =>
    cases a with
    | nil => exact absurd (nil_lt_cons b n) above
    | cons c =>
      rw [cons_lt_cons_iff, not_or, not_and] at above
      rw [cons_append, cons_lt_cons_iff, not_or, not_and] at below
      have eq : c = b := le_antisymm (not_lt.mp below.1) (not_lt.mp above.1)
      subst eq
      exact List.cons_prefix_cons.mpr ⟨rfl, ih (above.2 rfl) (below.2 rfl)⟩

theorem ne_nil_iff_nil_lt : n ≠ [] ↔ ([] : Key) < n := by
  cases n with
  | nil => simp
  | cons b n => exact ⟨fun _ => nil_lt_cons b n, fun _ => cons_ne_nil b n⟩

end

structure Query where
  pre : Key
  delimiter : Key
  deriving DecidableEq

structure ListItem (O : Type) where
  name : Key
  isPrefix : Bool
  obj : Option O
  deriving DecidableEq

def upTo (delimiter : Key) : Key → Option Key
  | [] => none
  | b :: rest =>
    if hasPrefix (b :: rest) delimiter then some delimiter
    else (upTo delimiter rest).map (b :: ·)

def Query.rolled (q : Query) (key : Key) : Option Key :=
  if q.delimiter = [] then none else upTo q.delimiter (key.drop q.pre.length)

section

variable {O : Type} {q : Query} {key key' part rest : Key} {o u : O}

def Query.entry (q : Query) (key : Key) (o : O) : ListItem O :=
  match q.rolled key with
  | some part => ⟨q.pre ++ part, true, none⟩
  | none => ⟨key, false, some o⟩

theorem upTo_spec {delimiter : Key} (got : upTo delimiter rest = some part) :
    part <+: rest ∧ delimiter.length ≤ part.length := by
  induction rest generalizing part with
  | nil => cases got
  | cons b rest ih =>
    unfold upTo at got
    split at got
    · rename_i here
      cases got
      exact ⟨List.isPrefixOf_iff_prefix.mp here, Nat.le_refl _⟩
    obtain ⟨later, at_, rfl⟩ := Option.map_eq_some_iff.mp got
    obtain ⟨starts, long⟩ := ih at_
    exact ⟨List.cons_prefix_cons.mpr ⟨rfl, starts⟩, Nat.le_succ_of_le long⟩

theorem upTo_append {delimiter : Key} (given : delimiter ≠ []) (more : Key)
    (got : upTo delimiter rest = some part) : upTo delimiter (part ++ more) = some part := by
  induction rest generalizing part with
  | nil => cases got
  | cons b rest ih =>
    unfold upTo at got
    split at got
    · cases got
      cases delimiter with
      | nil => exact absurd rfl given
      | cons c delimiter =>
        rw [cons_append, upTo, if_pos]
        exact List.isPrefixOf_iff_prefix.mpr (List.prefix_append (c :: delimiter) more)
    rename_i away
    obtain ⟨later, at_, rfl⟩ := Option.map_eq_some_iff.mp got
    obtain ⟨starts, long⟩ := upTo_spec at_
    rw [cons_append, upTo, if_neg, ih at_]
    · rfl
    intro here
    have short : delimiter <+: b :: later := by
      refine List.prefix_of_prefix_length_le (List.isPrefixOf_iff_prefix.mp here)
        (List.prefix_append (b :: later) more) ?_
      exact Nat.le_succ_of_le long
    exact away (List.isPrefixOf_iff_prefix.mpr
      (short.trans (List.cons_prefix_cons.mpr ⟨rfl, starts⟩)))

theorem rolled_spec (got : q.rolled key = some part) :
    q.delimiter ≠ [] ∧ upTo q.delimiter (key.drop q.pre.length) = some part := by
  unfold Query.rolled at got
  split at got
  · cases got
  · rename_i given
    exact ⟨given, got⟩

theorem entry_object (plain : (q.entry key o).isPrefix = false) :
    q.entry key o = ⟨key, false, some o⟩ := by
  unfold Query.entry at plain ⊢
  cases got : q.rolled key with
  | some =>
    rw [got] at plain
    cases plain
  | none => rfl

theorem entry_plain (o u : O) : (q.entry key o).isPrefix = (q.entry key u).isPrefix := by
  unfold Query.entry
  cases q.rolled key with
  | none | some => rfl

theorem entry_name (under : q.pre <+: key) : (q.entry key o).name <+: key := by
  unfold Query.entry
  cases got : q.rolled key with
  | none => exact List.prefix_rfl
  | some =>
    obtain ⟨rest, rfl⟩ := under
    have starts := (upTo_spec (rolled_spec got).2).1
    rw [drop_left] at starts
    exact (List.prefix_append_right_inj q.pre).mpr starts

theorem entry_name_ne_nil (named : key ≠ []) : (q.entry key o).name ≠ [] := by
  unfold Query.entry
  cases got : q.rolled key with
  | none => exact named
  | some =>
    obtain ⟨given, at_⟩ := rolled_spec got
    have long := (upTo_spec at_).2
    have pos : 0 < q.delimiter.length := length_pos_iff.mpr given
    intro empty
    have none := (append_eq_nil_iff.mp empty).2
    rw [none, length_nil] at long
    omega

theorem entry_rolled (rolled : (q.entry key o).isPrefix)
    (starts : (q.entry key o).name <+: key') : q.entry key' u = q.entry key o := by
  unfold Query.entry at rolled starts ⊢
  cases got : q.rolled key with
  | none =>
    rw [got] at rolled
    cases rolled
  | some part =>
    rw [got] at starts
    obtain ⟨given, at_⟩ := rolled_spec got
    obtain ⟨more, rfl⟩ := starts
    have again : q.rolled (q.pre ++ part ++ more) = some part := by
      rw [Query.rolled, if_neg given, append_assoc, drop_left]
      exact upTo_append given more at_
    simp only [again]

end

abbrev Bucket (O : Type) := Key → Option O

def Listed {O : Type} (q : Query) (bucket : Bucket O) (x : ListItem O) : Prop :=
  ∃ key o, bucket key = some o ∧ q.pre <+: key ∧ x = q.entry key o

/-- An entry of a listing that starts after a key: named after it, or a common prefix of a
key after it. -/
def EntryAfter {O : Type} (q : Query) (start : Key) (x : ListItem O) : Prop :=
  ∃ key o, q.pre <+: key ∧ x = q.entry key o ∧
    (start < x.name ∨ x.isPrefix = true ∧ start < key)

theorem EntryAfter.resumes {O : Type} {q : Query} {start key : Key} {x : ListItem O} {o : O}
    (shown : EntryAfter q start x) (under : q.pre <+: key)
    (post : x.name < (q.entry key o).name) : start < (q.entry key o).name := by
  obtain ⟨origin, value, lt, eq, later | ⟨rolled, beyond⟩⟩ := shown
  · exact later.trans post
  by_contra prev
  have starts : x.name <+: origin := by
    rw [eq]
    exact entry_name lt
  -- the start, the entry and its key all lie between the common prefix and a key under it
  have startHas : x.name <+: start :=
    prefix_between starts (fun less => prev (less.trans post)) (lt_asymm beyond)
  have entryHas : x.name <+: (q.entry key o).name := prefix_between startHas (lt_asymm post) prev
  have keyHas : x.name <+: key := entryHas.trans (entry_name under)
  rw [eq] at rolled keyHas post
  rw [entry_rolled (u := o) rolled keyHas] at post
  exact lt_irrefl _ post

end Shunt.Proxy
