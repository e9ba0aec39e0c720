/-
One backend's listing read page by page: the stream a merged listing and the listing of a
spread bucket take their entries from.
-/

import Shunt.Library.Json
import Shunt.Proxy.Entries
import Shunt.Proxy.Serve

namespace Shunt.Proxy

open Directory List
open Library

/-- Where a backend's page starts: after a key, from the beginning when it is empty, or
where an earlier page ended. -/
inductive Cursor where
  | after (start : Key)
  | token (t : String)
  deriving DecidableEq

structure ListRequest where
  query : Query
  maxKeys : Nat
  cursor : Cursor

structure BackendPage (O : Type) where
  contents : List (Key × O)
  commonPrefixes : List Key
  isTruncated : Bool
  nextContinuationToken : Option String

inductive Answer (O : Type) where
  | page (p : BackendPage O)
  | noSuchBucket
  | failed (text : String)

abbrev Backend (O : Type) := ListRequest → Answer O

inductive ListError where
  | upstream (text : String)
  | unavailable (cluster : String)
  | noSuchBucket
  | invalidToken
  -- the rounds a stream is read for ran out
  | unfinished
  deriving DecidableEq

section

variable {O : Type}

def BackendPage.items (p : BackendPage O) : List (ListItem O) :=
  let objects : List (ListItem O) :=
    p.contents.map fun e => ⟨decodeListingKey e.1, false, some e.2⟩
  let prefixes : List (ListItem O) :=
    p.commonPrefixes.map fun text => ⟨decodeListingKey text, true, none⟩
  (objects ++ prefixes).mergeSort fun a b => !decide (b.name < a.name)

def BackendPage.next (p : BackendPage O) : String :=
  if p.isTruncated then p.nextContinuationToken.getD "" else ""

structure ListSide (O : Type) where
  used : String := ""
  next : String := ""
  done : Bool := false
  started : Bool := false
  missing : Bool := false
  items : List (ListItem O) := []

def maxListKeys : Nat := 1000

def cursorOf (used : String) (start after : Key) : Cursor :=
  if used ≠ "" then .token used else if after ≠ [] then .after after else .after start

def dropSent (after : Key) (items : List (ListItem O)) : List (ListItem O) :=
  if after = [] then items else items.dropWhile fun x => !decide (after < x.name)

inductive Fetched (O : Type) where
  | read (s : ListSide O)
  | missing (s : ListSide O)
  | failed (text : String)

section

variable (b : Backend O) (q : Query) (pageSize : Nat) (start after : Key)

def fetchListPage (s : ListSide O) : Fetched O :=
  match b ⟨q, pageSize, cursorOf s.used start after⟩ with
  | .failed text => .failed text
  | .noSuchBucket => .missing { s with done := true, missing := true, items := [] }
  | .page p =>
    let items := dropSent after p.items
    .read { s with
      items := items, started := true, next := p.next
      done := s.done || (items.isEmpty && decide (p.next = "")) }

/-- A stream read until it has an entry or is done.  The loop of the source has no bound. -/
def head (own : ListItem O → Bool) (onMissing : ListSide O → Except ListError (ListSide O)) :
    Nat → ListSide O → Except ListError (ListSide O)
  | 0, _ => .error .unfinished
  | rounds + 1, s =>
    if s.items ≠ [] ∨ s.done = true then .ok s
    else if s.started = true ∧ s.next = "" then .ok { s with done := true }
    else
      match fetchListPage b q pageSize start after
          (if s.started then { s with used := s.next } else s) with
      | .failed text => .error (.upstream text)
      | .missing s => onMissing s
      | .read s => head own onMissing rounds { s with items := s.items.filter own }

end

/-- A backend that lists a bucket under a query, or has no such bucket.  Each page, with its texts
decoded as the proxy decodes them, is the first stretch of what is left at its cursor, in order, and
its token resumes after it; what is left after a key is what the bucket shows after it, and perhaps
a common prefix the key itself starts with.  Keys are not empty and are UTF-8. -/
structure Answers (b : Backend O) (q : Query) (bucket : Option (Bucket O)) where
  rest : Cursor → List (ListItem O)
  live : Cursor → Prop
  left : Cursor → Nat
  pages : Nat
  few : ∀ c, left c ≤ pages
  sorted : ∀ c, live c → Ascending ListItem.name (rest c)
  named : ∀ c, live c → ∀ x ∈ rest c, x.name ≠ [] ∧ Utf8 x.name
  starts : ∀ key, live (.after key)
  absent : bucket = none → (∀ r, b r = .noSuchBucket) ∧ ∀ c, rest c = []
  answers : bucket ≠ none → ∀ n c, 1 ≤ n → live c → ∃ p, b ⟨q, n, c⟩ = .page p ∧
    rest c = p.items ++ (if p.next = "" then [] else rest (.token p.next)) ∧
    (p.next ≠ "" → live (.token p.next) ∧ left (.token p.next) < left c)
  shows : ∀ m, bucket = some m → ∀ (key : Key) (x : ListItem O), key < x.name →
    (x ∈ rest (.after key) ↔ Listed q m x)
  rolls : ∀ m, bucket = some m → ∀ (key : Key) (x : ListItem O), x ∈ rest (.after key) →
    ¬ key < x.name → x.isPrefix = true ∧
      ∃ origin o, m origin = some o ∧ q.pre <+: origin ∧ key < origin ∧ x = q.entry origin o

section

variable {b : Backend O} {q : Query} {bucket : Option (Bucket O)} (serves : Answers b q bucket)
  {start after last : Key} {own : ListItem O → Bool} {s : ListSide O} {pageSize : Nat}

theorem Answers.entryAfter {key : Key} {x : ListItem O} (mem : x ∈ serves.rest (.after key)) :
    EntryAfter q key x := by
  cases given : bucket with
  | none =>
    rw [(serves.absent given).2] at mem
    cases mem
  | some m =>
    by_cases later : key < x.name
    · obtain ⟨origin, o, -, under, eq⟩ := (serves.shows m given key x later).mp mem
      exact ⟨origin, o, under, eq, .inl later⟩
    · obtain ⟨rolled, origin, o, -, under, beyond, eq⟩ := serves.rolls m given key x mem later
      exact ⟨origin, o, under, eq, .inr ⟨rolled, beyond⟩⟩

theorem Answers.resumes {y : ListItem O} (shown : EntryAfter q start y) {key : Key}
    (forward : ∀ (origin : Key) (o : O), q.pre <+: origin →
      (y.name < (q.entry origin o).name ↔ key < (q.entry origin o).name)) :
    above ListItem.name y.name (serves.rest (.after start)) =
      above ListItem.name key (serves.rest (.after key)) := by
  by_cases missing : bucket = none
  · rw [(serves.absent missing).2, (serves.absent missing).2]
    rfl
  obtain ⟨m, given⟩ := Option.ne_none_iff_exists'.mp missing
  refine ((serves.sorted _ (serves.starts start)).above _).ext
    ((serves.sorted _ (serves.starts key)).above _) fun x => ?_
  rw [mem_above, mem_above]
  constructor
  · rintro ⟨mem, later⟩
    obtain ⟨origin, o, under, rfl, -⟩ := serves.entryAfter mem
    have beyond := (forward origin o under).mp later
    exact ⟨(serves.shows m given key _ beyond).mpr
      ((serves.shows m given start _ (shown.resumes under later)).mp mem), beyond⟩
  rintro ⟨mem, beyond⟩
  have isIn := (serves.shows m given key x beyond).mp mem
  obtain ⟨origin, o, -, under, rfl⟩ := isIn
  have later := (forward origin o under).mpr beyond
  exact ⟨(serves.shows m given start _ (shown.resumes under later)).mpr
    ((serves.shows m given key _ beyond).mp mem), later⟩

def Answers.kept (own : ListItem O → Bool) (last : Key) (c : Cursor) : List (ListItem O) :=
  above ListItem.name last ((serves.rest c).filter own)

def Answers.pending (own : ListItem O → Bool) (start after : Key) (s : ListSide O) :
    List (ListItem O) :=
  if s.done then []
  else if s.started then if s.next = "" then [] else serves.kept own after (.token s.next)
  else serves.kept own after (cursorOf s.used start after)

structure Answers.At (own : ListItem O → Bool) (start after : Key) (s : ListSide O) (last : Key) :
    Prop where
  remaining : s.items ++ serves.pending own start after s = serves.kept own last (.after start)
  cursor : s.done = false →
    serves.kept own last (cursorOf s.used start after) = serves.kept own last (.after start)
  live : s.done = false → serves.live (cursorOf s.used start after)
  nextLive : s.done = false → s.started = true → s.next ≠ "" → serves.live (.token s.next)
  forward : ¬ last < after
  found : s.missing = true → bucket = none
  spent : s.done = true → s.items = []

def Answers.unread (start after : Key) (s : ListSide O) : Nat :=
  if s.done then 0
  else if s.started then if s.next = "" then 0 else serves.left (.token s.next) + 1
  else serves.left (cursorOf s.used start after) + 1

theorem Answers.unread_le : serves.unread start after s ≤ serves.pages + 1 := by
  unfold Answers.unread
  have tokens := serves.few (.token s.next)
  have first := serves.few (cursorOf s.used start after)
  split
  · omega
  split
  · split
    · omega
    · omega
  · omega

theorem Answers.kept_ascending (own : ListItem O → Bool) (last : Key) {c : Cursor}
    (live : serves.live c) : Ascending ListItem.name (serves.kept own last c) :=
  ((serves.sorted c live).filter own).above last

theorem dropSent_eq {items : List (ListItem O)} (sorted : Ascending ListItem.name items)
    (named : ∀ x ∈ items, x.name ≠ []) :
    dropSent after items = above ListItem.name after items := by
  unfold dropSent
  split
  · rename_i none
    refine (filter_eq_self.mpr fun x mem => ?_).symm
    rw [none]
    simpa using ne_nil_iff_nil_lt.mp (named x mem)
  induction items with
  | nil => rfl
  | cons x items ih =>
    obtain ⟨less, sortedRest⟩ := pairwise_cons.mp sorted
    by_cases sent : after < x.name
    · rw [dropWhile_cons_of_neg (by simp [sent]), above, filter_eq_self.mpr]
      intro y mem
      rcases mem_cons.mp mem with rfl | later
      · simpa using sent
      · simpa using sent.trans (less y later)
    rw [dropWhile_cons_of_pos (by simp [sent]), above, filter_cons_of_neg (by simp [sent])]
    exact ih sortedRest fun y mem => named y (mem_cons_of_mem x mem)

theorem Answers.fetch_read (there : bucket ≠ none) (size : 1 ≤ pageSize) (undone : s.done = false)
    (live : serves.live (cursorOf s.used start after)) :
    ∃ p : BackendPage O, fetchListPage b q pageSize start after s = .read { s with
        items := above ListItem.name after p.items, started := true, next := p.next
        done := (above ListItem.name after p.items).isEmpty && decide (p.next = "") } ∧
      serves.rest (cursorOf s.used start after) =
        p.items ++ (if p.next = "" then [] else serves.rest (.token p.next)) ∧
      (p.next ≠ "" → serves.live (.token p.next) ∧
        serves.left (.token p.next) < serves.left (cursorOf s.used start after)) := by
  obtain ⟨p, told, split, resumes⟩ := serves.answers there pageSize _ size live
  refine ⟨p, ?_, split, resumes⟩
  have all := serves.sorted _ live
  rw [split] at all
  have sorted : Ascending ListItem.name p.items := (pairwise_append.mp all).1
  have named : ∀ x ∈ p.items, x.name ≠ [] := fun x mem =>
    (serves.named _ live x (by rw [split]; exact mem_append_left _ mem)).1
  rw [fetchListPage, told]
  simp only [dropSent_eq sorted named, undone, Bool.false_or]

theorem Answers.above_kept {later : Key} {c : Cursor} (forward : ¬ later < last) :
    above ListItem.name later (serves.kept own last c) = serves.kept own later c :=
  above_above (not_lt.mp forward)

theorem Answers.at_read {c : Cursor} {p : BackendPage O} {items : List _}
    (undone : c = cursorOf s.used start after) (live : serves.live c)
    (here : serves.kept own after c = serves.kept own last (.after start))
    (split : serves.rest c = p.items ++ (if p.next = "" then [] else serves.rest (.token p.next)))
    (resumes : p.next ≠ "" → serves.live (.token p.next)) (forward : ¬ last < after)
    (found : s.missing → bucket = none)
    (read : items = (above ListItem.name after p.items).filter own) :
    serves.At own start after { s with
      items := items, started := true, next := p.next
      done := (above ListItem.name after p.items).isEmpty && decide (p.next = "") } last := by
  have front : items = above ListItem.name after (p.items.filter own) := by
    rw [read, above, above, List.filter_filter, List.filter_filter]
    exact filter_congr fun x _ => Bool.and_comm _ _
  have parts : serves.kept own after c = items ++
      (if p.next = "" then [] else serves.kept own after (.token p.next)) := by
    rw [Answers.kept, split, filter_append, above, filter_append, ← above, ← above, ← front]
    split_ifs
    · rfl
    · rfl
  refine ⟨?_, fun _ => ?_, fun _ => ?_, fun _ _ given => resumes given, forward, found,
    fun ended => ?_⟩
  · rw [← here, parts]
    congr 1
    unfold Answers.pending
    by_cases ended : ((above ListItem.name after p.items).isEmpty && decide (p.next = ""))
    · rw [if_pos ended, if_pos (by simpa using (Bool.and_eq_true_iff.mp ended).2)]
    · rw [if_neg ended, if_pos rfl]
  · change serves.kept own last (cursorOf s.used start after) = _
    rw [← undone, ← serves.above_kept forward, here, serves.above_kept (lt_irrefl last)]
  · change serves.live (cursorOf s.used start after)
    rw [← undone]
    exact live
  change items = []
  rw [read, List.isEmpty_iff.mp (Bool.and_eq_true_iff.mp ended).1]
  rfl

theorem Answers.fetch_at (stands : serves.At own start after s last) (there : bucket ≠ none)
    (size : 1 ≤ pageSize) (undone : s.done = false) (fresh : s.started = false)
    (empty : s.items = []) :
    ∃ s', fetchListPage b q pageSize start after s = .read s' ∧
      serves.At own start after { s' with items := s'.items.filter own } last := by
  obtain ⟨p, read, split, resumes⟩ := serves.fetch_read there size undone (stands.live undone)
  have here := stands.remaining
  rw [empty, nil_append, Answers.pending, undone, fresh] at here
  exact ⟨_, read, serves.at_read rfl (stands.live undone) here split
    (fun given => (resumes given).1) stands.forward stands.found rfl⟩

section

variable {onMissing : ListSide O → Except ListError (ListSide O)}

theorem Answers.head_at {rounds : Nat} (stands : serves.At own start after s last)
    (size : 1 ≤ pageSize) (tolerant : bucket = none → ∀ s, onMissing s = .ok s)
    (enough : serves.unread start after s < rounds) :
    ∃ s', head b q pageSize start after own onMissing rounds s = .ok s' ∧
      serves.At own start after s' last ∧
      (s'.items = [] → s'.done ∧ serves.kept own last (.after start) = []) := by
  induction rounds generalizing s with
  | zero => exact absurd enough (Nat.not_lt_zero _)
  | succ rounds ih =>
    unfold head
    by_cases ready : s.items ≠ [] ∨ s.done
    · rw [if_pos ready]
      refine ⟨s, rfl, stands, fun empty => ?_⟩
      have done : s.done := ready.resolve_left fun given => given empty
      have remaining := stands.remaining
      rw [empty, Answers.pending, if_pos done] at remaining
      exact ⟨done, remaining.symm⟩
    rw [if_neg ready]
    push Not at ready
    obtain ⟨empty, undone⟩ := ready
    have undone : s.done = false := by simpa using undone
    have remaining := stands.remaining
    rw [empty, nil_append, Answers.pending, if_neg (by simp [undone])] at remaining
    by_cases ended : s.started ∧ s.next = ""
    · rw [if_pos ended]
      rw [if_pos ended.1, if_pos ended.2] at remaining
      refine ⟨_, rfl, ⟨?_, nofun, nofun, nofun, stands.forward, stands.found,
        fun _ => empty⟩, fun _ => ⟨rfl, remaining.symm⟩⟩
      simp only [empty, Answers.pending, nil_append, if_true]
      exact remaining
    rw [if_neg ended]
    generalize chosen : (if s.started then { s with used := s.next } else s) = s₁
    -- the page asked for next starts where the stream has nothing more
    have asked : s₁.done = false ∧ serves.live (cursorOf s₁.used start after) ∧
        serves.kept own after (cursorOf s₁.used start after) =
          serves.kept own last (.after start) ∧ s₁.missing = s.missing ∧
        serves.unread start after s = serves.left (cursorOf s₁.used start after) + 1 := by
      by_cases started : s.started
      · have given : s.next ≠ "" := fun none => ended ⟨started, none⟩
        rw [if_pos started] at chosen remaining
        rw [if_neg given] at remaining
        have cursor : cursorOf s₁.used start after = .token s.next := by
          rw [← chosen, cursorOf, if_pos given]
        rw [cursor]
        refine ⟨by rw [← chosen]; exact undone, stands.nextLive undone started given,
          remaining, by rw [← chosen], ?_⟩
        simp [Answers.unread, undone, started, given]
      · rw [if_neg started] at chosen remaining
        rw [← chosen]
        refine ⟨undone, stands.live undone, remaining, rfl, ?_⟩
        simp [Answers.unread, undone, started]
    obtain ⟨undone₁, live, here, sameMissing, unread⟩ := asked
    by_cases missing : bucket = none
    · have told : fetchListPage b q pageSize start after s₁ =
          .missing { s₁ with done := true, missing := true, items := [] } := by
        rw [fetchListPage, (serves.absent missing).1]
      rw [told]
      have none : serves.kept own last (.after start) = [] := by
        rw [Answers.kept, (serves.absent missing).2]
        rfl
      refine ⟨_, tolerant missing _, ⟨?_, nofun, nofun, nofun, stands.forward,
        fun _ => missing, fun _ => rfl⟩, fun _ => ⟨rfl, none⟩⟩
      simp [Answers.pending, none]
    · obtain ⟨p, read, split, resumes⟩ := serves.fetch_read missing size undone₁ live
      rw [read]
      refine ih ?_ ?_
      · exact serves.at_read rfl live here split (fun given => (resumes given).1)
          stands.forward (by rw [sameMissing]; exact stands.found) rfl
      rw [unread] at enough
      simp only [Answers.unread]
      split_ifs with ended exhausted
      · omega
      · omega
      · have less := (resumes exhausted).2
        omega

end

theorem Answers.At.pop (stands : serves.At own start after s last) {x : ListItem O}
    {items : List (ListItem O)} (first : s.items = x :: items) :
    serves.At own start after { s with items := items } x.name := by
  have remaining := stands.remaining
  rw [first, cons_append] at remaining
  have sorted := serves.kept_ascending own last (serves.starts start)
  have mem : x ∈ serves.kept own last (.after start) := by
    rw [← remaining]
    exact mem_cons_self
  have later : last < x.name := (mem_above.mp mem).2
  have forward : ¬ x.name < last := lt_asymm later
  have after_ : serves.kept own x.name (.after start) =
      items ++ serves.pending own start after s := by
    rw [← serves.above_kept forward, ← remaining]
    rw [← remaining] at sorted
    exact sorted.tail_eq
  refine ⟨after_.symm, fun undone => ?_, stands.live, stands.nextLive, ?_,
    stands.found, fun done => ?_⟩
  · change serves.kept own x.name (cursorOf s.used start after) = _
    rw [← serves.above_kept forward, stands.cursor undone, serves.above_kept forward]
  · exact fun less => stands.forward (later.trans less)
  · rw [stands.spent done] at first
    cases first

theorem Answers.At.skip (stands : serves.At own start after s last) {name : Key}
    (later : last < name) (beyond : ∀ x ∈ serves.kept own last (.after start), name < x.name) :
    serves.At own start after s name := by
  have forward : ¬ name < last := lt_asymm later
  have eq : serves.kept own name (.after start) = serves.kept own last (.after start) := by
    rw [← serves.above_kept forward]
    exact filter_eq_self.mpr fun x mem => by simpa using beyond x mem
  refine ⟨stands.remaining.trans eq.symm, fun undone => ?_, stands.live, stands.nextLive, ?_,
    stands.found, stands.spent⟩
  · rw [← serves.above_kept forward, stands.cursor undone, serves.above_kept forward]
  · exact fun less => stands.forward (later.trans less)

end

end

end Shunt.Proxy
