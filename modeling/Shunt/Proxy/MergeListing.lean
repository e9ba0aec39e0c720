/-
The listing of a migrating bucket: a sorted merge of what its two clusters list, the
primary's entry shown for a name on both.
-/

import Shunt.Proxy.ListSide

namespace Shunt.Proxy

open Directory
open List hiding merge mem_merge
open Library

structure MergeToken where
  p : String := ""
  pd : Bool := false
  s : String := ""
  sd : Bool := false
  last : Key := []

def MergeToken.record (t : MergeToken) : List (String × Option Json) :=
  [("p", omitText t.p), ("pd", omitFlag t.pd), ("s", omitText t.s), ("sd", omitFlag t.sd),
    ("last", omitText (textOf t.last))]

def MergeToken.encode (t : MergeToken) : Json := .object (written t.record)

def MergeToken.unmarshal (value : Json) : Except String MergeToken := do
  let fields ← value.fields
  let p ← readField "p" decodeText "" fields
  let pd ← readField "pd" decodeFlag false fields
  let s ← readField "s" decodeText "" fields
  let sd ← readField "sd" decodeFlag false fields
  let last ← readField "last" decodeBytes [] fields
  return { p, pd, s, sd, last }

def decodeMergeToken : Option Json → MergeToken
  | none => {}
  | some value =>
    match MergeToken.unmarshal value with
    | .ok t => t
    | .error _ => {}

theorem decodeMergeToken_encode {t : MergeToken} (utf8 : Utf8 t.last) :
    decodeMergeToken (some t.encode) = t := by
  have uniq : (t.record.map Prod.fst).Nodup := by simp [MergeToken.record]
  have read : MergeToken.unmarshal t.encode = .ok t := by
    simp only [MergeToken.unmarshal, MergeToken.encode, fields_object, ok_bind,
      readField_at 0 uniq rfl, readField_at 1 uniq rfl, readField_at 2 uniq rfl,
      readField_at 3 uniq rfl, readField_at 4 uniq rfl, readValue_omitText,
      readValue_omitFlag, readValue_omitBytes, bytesOf_textOf_iff.mpr utf8]
    rfl
  rw [decodeMergeToken, read]

section

variable {O : Type}

def pageLimit (asked : Nat) : Nat := if asked < maxListKeys then asked else maxListKeys

def mergeTake (ps ss : ListSide O) : Option (ListItem O × ListSide O × ListSide O) :=
  match ps.items, ss.items with
  | [], [] => none
  | x :: xs, [] => some (x, { ps with items := xs }, ss)
  | [], y :: ys => some (y, ps, { ss with items := ys })
  | x :: xs, y :: ys =>
    if x.name < y.name then some (x, { ps with items := xs }, ss)
    else if y.name < x.name then some (y, ps, { ss with items := ys })
    else some (x, { ps with items := xs }, { ss with items := ys })

def mergeEmit (headP headS : ListSide O → Except ListError (ListSide O)) :
    Nat → ListSide O → ListSide O → Except ListError (List (ListItem O) × ListSide O × ListSide O)
  | 0, ps, ss => .ok ([], ps, ss)
  | n + 1, ps, ss => do
      let ps ← headP ps
      let ss ← headS ss
      match mergeTake ps ss with
      | none => return ([], ps, ss)
      | some (x, ps, ss) =>
        let (emitted, ends) ← mergeEmit headP headS n ps ss
        return (x :: emitted, ends)

def lastName (last : Key) (items : List (ListItem O)) : Key :=
  (items.getLast?.map ListItem.name).getD last

/-- A page from two streams: truncated only if one of them really has more. -/
def mergePage (headP headS : ListSide O → Except ListError (ListSide O)) (n : Nat)
    (ps ss : ListSide O) : Except ListError (Page (ListItem O) Json) := do
  let (emitted, ps, ss) ← mergeEmit headP headS n ps ss
  let ps ← headP ps
  let ss ← headS ss
  if ps.missing && ss.missing then .error .noSuchBucket
  else
    let truncated := !ps.items.isEmpty || !ss.items.isEmpty
    .ok {
      items := emitted, truncated
      next :=
        if truncated && !emitted.isEmpty then
          some (MergeToken.encode
            { p := ps.used, pd := ps.done, s := ss.used, sd := ss.done
              last := lastName [] emitted })
        else none }

def mergeListingPage (rounds : Nat) (primary source : Backend O) (q : Query) (start : Key)
    (maxKeys : Nat) (token : Option Json) : Except ListError (Page (ListItem O) Json) :=
  let tok := decodeMergeToken token
  mergePage (head primary q maxListKeys start tok.last (fun _ => true) .ok rounds)
    (head source q maxListKeys start tok.last (fun _ => true) .ok rounds) (pageLimit maxKeys)
    { used := tok.p, done := tok.pd } { used := tok.s, done := tok.sd }

variable {primary source : Backend O} {q : Query} {P S : Option (Bucket O)} {start after last : Key}
  (fromP : Answers primary q P) (fromS : Answers source q S)

def bothAfter (start last : Key) : List (ListItem O) :=
  merge ListItem.name (fromP.kept (fun _ => true) last (.after start))
    (fromS.kept (fun _ => true) last (.after start))

theorem bothAfter_ascending (start last : Key) :
    Ascending ListItem.name (bothAfter fromP fromS start last) :=
  merge_ascending (fromP.kept_ascending _ _ (fromP.starts start))
    (fromS.kept_ascending _ _ (fromS.starts start))

theorem mem_bothAfter {x : ListItem O} : x ∈ bothAfter fromP fromS start last ↔ last < x.name ∧
    (x ∈ fromP.rest (.after start) ∨ x ∈ fromS.rest (.after start) ∧
      ∀ y ∈ fromP.rest (.after start), y.name ≠ x.name) := by
  rw [bothAfter, mem_merge (fromP.kept_ascending _ _ (fromP.starts start))
    (fromS.kept_ascending _ _ (fromS.starts start))]
  simp only [Answers.kept, mem_above, filter_true]
  constructor
  · rintro (⟨here, later⟩ | ⟨⟨there, later⟩, away⟩)
    · exact ⟨later, .inl here⟩
    · refine ⟨later, .inr ⟨there, fun y mem eq => ?_⟩⟩
      exact away y ⟨mem, by rw [eq]; exact later⟩ eq
  rintro ⟨later, here | ⟨there, away⟩⟩
  · exact .inl ⟨here, later⟩
  · exact .inr ⟨⟨there, later⟩, fun y mem => away y mem.1⟩

theorem bothAfter_entry {x : ListItem O} (mem : x ∈ bothAfter fromP fromS start last) :
    EntryAfter q start x ∧ x.name ≠ [] ∧ Utf8 x.name := by
  rcases ((mem_bothAfter fromP fromS).mp mem).2 with here | ⟨there, -⟩
  · exact ⟨fromP.entryAfter here, fromP.named _ (fromP.starts start) x here⟩
  · exact ⟨fromS.entryAfter there, fromS.named _ (fromS.starts start) x there⟩

theorem above_bothAfter {later : Key} (forward : ¬ later < last) :
    above ListItem.name later (bothAfter fromP fromS start last) =
      bothAfter fromP fromS start later := by
  rw [bothAfter, above_merge (fromP.kept_ascending _ _ (fromP.starts start))
    (fromS.kept_ascending _ _ (fromS.starts start)), fromP.above_kept forward,
    fromS.above_kept forward, ← bothAfter]

theorem bothAfter_tail {x : ListItem O} {rest : List (ListItem O)}
    (shape : bothAfter fromP fromS start last = x :: rest) :
    last < x.name ∧ bothAfter fromP fromS start x.name = rest := by
  have mem : x ∈ bothAfter fromP fromS start last := by
    rw [shape]
    exact mem_cons_self
  have later := ((mem_bothAfter fromP fromS).mp mem).1
  have sorted := bothAfter_ascending fromP fromS start last
  rw [shape] at sorted
  exact ⟨later, by rw [← above_bothAfter fromP fromS (lt_asymm later), shape, sorted.tail_eq]⟩

structure BothAt (start after : Key) (ps ss : ListSide O) (last : Key) : Prop where
  primary : fromP.At (fun _ => true) start after ps last
  source : fromS.At (fun _ => true) start after ss last

section

variable {headP headS : ListSide O → Except ListError (ListSide O)}

/-- A head that leaves its stream where it stands, with an entry unless it has none left. -/
def Reads {b : Backend O} {bucket : Option (Bucket O)} (serves : Answers b q bucket)
    (own : ListItem O → Bool) (start after : Key)
    (head : ListSide O → Except ListError (ListSide O)) : Prop :=
  ∀ s last, serves.At own start after s last → ∃ s', head s = .ok s' ∧
    serves.At own start after s' last ∧
    (s'.items = [] → s'.done = true ∧ serves.kept own last (.after start) = [])

variable {ps ss : ListSide O}

theorem mergeTake_spec (stand : BothAt fromP fromS start after ps ss last)
    (restP : ps.items = [] → fromP.kept (fun _ => true) last (.after start) = [])
    (restS : ss.items = [] → fromS.kept (fun _ => true) last (.after start) = []) :
    (mergeTake ps ss = none ∧ bothAfter fromP fromS start last = []) ∨
      ∃ x ps' ss' rest, mergeTake ps ss = some (x, ps', ss') ∧
        bothAfter fromP fromS start last = x :: rest ∧
        BothAt fromP fromS start after ps' ss' x.name := by
  have remainingP := stand.primary.remaining
  have remainingS := stand.source.remaining
  have sortedP := fromP.kept_ascending (fun _ => true) last (fromP.starts start)
  have sortedS := fromS.kept_ascending (fun _ => true) last (fromS.starts start)
  unfold bothAfter
  cases itemsP : ps.items with
  | nil =>
    have noneP := restP itemsP
    rw [noneP, merge_nil_left]
    cases itemsS : ss.items with
    | nil => exact .inl ⟨by simp [mergeTake, itemsP, itemsS], restS itemsS⟩
    | cons y ys =>
      rw [itemsS, cons_append] at remainingS
      rw [← remainingS]
      have later : last < y.name := (mem_above.mp (by
        rw [← Answers.kept, ← remainingS]
        exact mem_cons_self)).2
      refine .inr ⟨y, ps, { ss with items := ys }, _, by simp [mergeTake, itemsP, itemsS], rfl,
        stand.primary.skip fromP later (by simp [noneP]), stand.source.pop fromS itemsS⟩
  | cons x xs =>
    rw [itemsP, cons_append] at remainingP
    rw [← remainingP] at sortedP ⊢
    have laterX : last < x.name := (mem_above.mp (by
      rw [← Answers.kept, ← remainingP]
      exact mem_cons_self)).2
    cases itemsS : ss.items with
    | nil =>
      have noneS := restS itemsS
      rw [noneS, merge_nil_right]
      exact .inr ⟨x, { ps with items := xs }, ss, _, by simp [mergeTake, itemsP, itemsS], rfl,
        stand.primary.pop fromP itemsP, stand.source.skip fromS laterX (by simp [noneS])⟩
    | cons y ys =>
      rw [itemsS, cons_append] at remainingS
      rw [← remainingS] at sortedS ⊢
      have laterY : last < y.name := (mem_above.mp (by
        rw [← Answers.kept, ← remainingS]
        exact mem_cons_self)).2
      by_cases less : x.name < y.name
      · refine .inr ⟨x, { ps with items := xs }, ss, _,
          by simp [mergeTake, itemsP, itemsS, less], by rw [merge, if_pos less],
          stand.primary.pop fromP itemsP, stand.source.skip fromS laterX ?_⟩
        rw [← remainingS]
        exact forall_mem_cons.mpr
          ⟨less, fun z mem => less.trans ((pairwise_cons.mp sortedS).1 z mem)⟩
      by_cases more : y.name < x.name
      · refine .inr ⟨y, ps, { ss with items := ys }, _,
          by simp [mergeTake, itemsP, itemsS, less, more],
          by rw [merge, if_neg less, if_pos more],
          stand.primary.skip fromP laterY ?_, stand.source.pop fromS itemsS⟩
        rw [← remainingP]
        exact forall_mem_cons.mpr
          ⟨more, fun z mem => more.trans ((pairwise_cons.mp sortedP).1 z mem)⟩
      have eq : y.name = x.name := le_antisymm (not_lt.mp less) (not_lt.mp more)
      refine .inr ⟨x, { ps with items := xs }, { ss with items := ys }, _,
        by simp [mergeTake, itemsP, itemsS, less, more],
        by rw [merge, if_neg less, if_neg more],
        stand.primary.pop fromP itemsP, ?_⟩
      rw [← eq]
      exact stand.source.pop fromS itemsS

theorem mergeEmit_spec (readsP : Reads fromP (fun _ => true) start after headP)
    (readsS : Reads fromS (fun _ => true) start after headS) (n : Nat)
    (stand : BothAt fromP fromS start after ps ss last) :
    ∃ ps' ss' last', mergeEmit headP headS n ps ss =
        .ok ((bothAfter fromP fromS start last).take n, ps', ss') ∧
      BothAt fromP fromS start after ps' ss' last' ∧
      bothAfter fromP fromS start last' = (bothAfter fromP fromS start last).drop n ∧
      last' = lastName last ((bothAfter fromP fromS start last).take n) := by
  induction n generalizing ps ss last with
  | zero => exact ⟨ps, ss, last, rfl, stand, rfl, rfl⟩
  | succ n ih =>
    obtain ⟨ps₁, headOfP, atP, restP⟩ := readsP ps last stand.primary
    obtain ⟨ss₁, headOfS, atS, restS⟩ := readsS ss last stand.source
    simp only [mergeEmit, headOfP, headOfS, ok_bind]
    rcases mergeTake_spec fromP fromS ⟨atP, atS⟩ (fun none => (restP none).2)
        (fun none => (restS none).2) with ⟨none, empty⟩ | ⟨x, ps₂, ss₂, rest, some, shape, stand₂⟩
    · rw [none, empty]
      exact ⟨ps₁, ss₁, last, rfl, ⟨atP, atS⟩, by rw [empty]; rfl, rfl⟩
    obtain ⟨-, tail⟩ := bothAfter_tail fromP fromS shape
    obtain ⟨ps', ss', last', emitted, stand', left, ends⟩ := ih stand₂
    rw [tail] at emitted left ends
    rw [some, shape]
    refine ⟨ps', ss', last', ?_, stand', left, ?_⟩
    · simp only [emitted, ok_bind, take_succ_cons]
      rfl
    rw [ends, take_succ_cons, lastName, lastName, getLast?_cons]
    cases (rest.take n).getLast? with
    | none | some => rfl

end

structure Resumes {b : Backend O} {bucket : Option (Bucket O)} (serves : Answers b q bucket)
    (start : Key) (used : String) (done : Bool) (last : Key) : Prop where
  cursor : done = false → serves.live (cursorOf used start last) ∧
    serves.kept (fun _ => true) last (cursorOf used start last) =
      serves.kept (fun _ => true) last (.after start)
  spent : done = true → serves.kept (fun _ => true) last (.after start) = []

section

variable {b : Backend O} {bucket : Option (Bucket O)} {serves : Answers b q bucket}
  {used : String} {done : Bool} {s : ListSide O}

theorem Resumes.stands (resumes : Resumes serves start used done last) :
    serves.At (fun _ => true) start last { used := used, done := done } last := by
  refine ⟨?_, fun undone => (resumes.cursor undone).2, fun undone => (resumes.cursor undone).1,
    nofun, lt_irrefl last, nofun, fun _ => rfl⟩
  cases done with
  | true => exact (resumes.spent rfl).symm
  | false => exact (resumes.cursor rfl).2

theorem Resumes.of_at {y : ListItem O} (shown : EntryAfter q start y) (named : y.name ≠ [])
    (stands : serves.At (fun _ => true) start after s y.name) :
    Resumes serves start s.used s.done y.name := by
  refine ⟨fun undone => ?_, fun ended => ?_⟩
  · by_cases given : s.used ≠ ""
    · have eq : ∀ name, cursorOf s.used start name = .token s.used := fun name => if_pos given
      have live := stands.live undone
      have cursor := stands.cursor undone
      rw [eq] at live cursor ⊢
      exact ⟨live, cursor⟩
    have fresh : cursorOf s.used start y.name = .after y.name := by
      rw [cursorOf, if_neg given, if_pos named]
    rw [fresh]
    refine ⟨serves.starts _, ?_⟩
    simp only [Answers.kept, filter_true]
    exact (serves.resumes shown fun _ _ _ => Iff.rfl).symm
  · have remaining := stands.remaining
    rw [stands.spent ended, Answers.pending, if_pos ended] at remaining
    exact remaining.symm

end

variable {bucket : Option (Bucket O)}

theorem Answers.reads {b : Backend O} (serves : Answers b q bucket)
    {own : ListItem O → Bool} {pageSize rounds : Nat}
    {onMissing : ListSide O → Except ListError (ListSide O)} (size : 1 ≤ pageSize)
    (tolerant : bucket = none → ∀ s, onMissing s = .ok s) (enough : serves.pages + 1 < rounds) :
    Reads serves own start after (head b q pageSize start after own onMissing rounds) :=
  fun _ _ stands => serves.head_at stands size tolerant
    (Nat.lt_of_le_of_lt serves.unread_le enough)

theorem pageLimit_pos {maxKeys : Nat} (pos : 1 ≤ maxKeys) : 0 < pageLimit maxKeys := by
  unfold pageLimit maxListKeys
  split
  · exact pos
  · decide

/-- Both sides of a client's token resume where the client was. -/
def Holds (start : Key) (token : Option Json) : Prop :=
  Resumes fromP start (decodeMergeToken token).p (decodeMergeToken token).pd
      (decodeMergeToken token).last ∧
    Resumes fromS start (decodeMergeToken token).s (decodeMergeToken token).sd
      (decodeMergeToken token).last

theorem holds_first (start : Key) : Holds fromP fromS start none :=
  ⟨⟨fun _ => ⟨fromP.starts start, rfl⟩, nofun⟩, ⟨fun _ => ⟨fromS.starts start, rfl⟩, nofun⟩⟩

theorem more_iff {b : Backend O} {serves : Answers b q bucket}
    {s : ListSide O} (stands : serves.At (fun _ => true) start after s last)
    (rest : s.items = [] → serves.kept (fun _ => true) last (.after start) = []) :
    s.items = [] ↔ serves.kept (fun _ => true) last (.after start) = [] := by
  refine ⟨rest, fun none => ?_⟩
  have remaining := stands.remaining
  rw [none] at remaining
  exact (append_eq_nil_iff.mp remaining).1

theorem mergePage_spec {headP headS : ListSide O → Except ListError (ListSide O)}
    (readsP : Reads fromP (fun _ => true) start after headP)
    (readsS : Reads fromS (fun _ => true) start after headS) (present : P ≠ none ∨ S ≠ none)
    {n : Nat} (pos : 0 < n) {ps ss : ListSide O}
    (stand : BothAt fromP fromS start after ps ss last) :
    ∃ page, mergePage headP headS n ps ss = .ok page ∧
      page.items = (bothAfter fromP fromS start last).take n ∧
      (page.truncated ↔ n < (bothAfter fromP fromS start last).length) ∧
      (n < (bothAfter fromP fromS start last).length →
        ∃ next, page.next = some next ∧ Holds fromP fromS start (some next) ∧
          bothAfter fromP fromS start (decodeMergeToken (some next)).last =
            (bothAfter fromP fromS start last).drop n) := by
  obtain ⟨ps₁, ss₁, end_, emitted, stand₁, left, ends⟩ :=
    mergeEmit_spec fromP fromS readsP readsS n stand
  obtain ⟨ps₂, headOfP, atP, restP⟩ := readsP ps₁ end_ stand₁.primary
  obtain ⟨ss₂, headOfS, atS, restS⟩ := readsS ss₁ end_ stand₁.source
  have got : ¬ (ps₂.missing && ss₂.missing) := by
    rw [Bool.and_eq_true]
    rintro ⟨goneP, goneS⟩
    exact present.elim (fun given => given (atP.found goneP)) fun given => given (atS.found goneS)
  have truncated : (!ps₂.items.isEmpty || !ss₂.items.isEmpty) ↔
      n < (bothAfter fromP fromS start last).length := by
    have none : bothAfter fromP fromS start end_ = [] ↔ ps₂.items = [] ∧ ss₂.items = [] := by
      rw [more_iff atP fun empty => (restP empty).2, more_iff atS fun empty => (restS empty).2,
        bothAfter, merge_eq_nil]
    rw [left, drop_eq_nil_iff] at none
    simp only [Bool.or_eq_true, Bool.not_eq_true', List.isEmpty_eq_false_iff]
    rw [← not_le, none]
    tauto
  simp only [mergePage, emitted, headOfP, headOfS, ok_bind, got]
  refine ⟨_, rfl, rfl, truncated, fun more => ?_⟩
  obtain ⟨y, final⟩ : ∃ y, ((bothAfter fromP fromS start last).take n).getLast? = some y := by
    cases none : ((bothAfter fromP fromS start last).take n).getLast? with
    | some y => exact ⟨y, rfl⟩
    | none =>
      have empty := congrArg List.length (getLast?_eq_none_iff.mp none)
      rw [length_take, length_nil] at empty
      omega
  have named : ∀ other, lastName other ((bothAfter fromP fromS start last).take n) = y.name := by
    intro other
    rw [lastName, final]
    rfl
  have mem : y ∈ bothAfter fromP fromS start last := mem_of_mem_take (mem_of_getLast? final)
  obtain ⟨shown, some_, utf8⟩ := bothAfter_entry fromP fromS mem
  have nonemptyPage : ((bothAfter fromP fromS start last).take n).isEmpty = false := by
    rw [List.isEmpty_eq_false_iff]
    intro none
    rw [none] at final
    cases final
  rw [named] at ends
  subst ends
  rw [if_pos (by rw [truncated.mpr more, nonemptyPage]; rfl), named]
  refine ⟨_, rfl, ?_, ?_⟩
  · rw [Holds, decodeMergeToken_encode utf8]
    exact ⟨.of_at shown some_ atP, .of_at shown some_ atS⟩
  · rw [decodeMergeToken_encode utf8]
    exact left

def ListedIn (q : Query) (bucket : Option (Bucket O)) (x : ListItem O) : Prop :=
  ∃ m, bucket = some m ∧ Listed q m x

theorem Answers.mem_rest {b : Backend O} (serves : Answers b q bucket)
    {x : ListItem O} (later : start < x.name) :
    x ∈ serves.rest (.after start) ↔ ListedIn q bucket x := by
  by_cases missing : bucket = none
  · rw [(serves.absent missing).2]
    simp [ListedIn, missing]
  obtain ⟨m, given⟩ := Option.ne_none_iff_exists'.mp missing
  rw [serves.shows m given start x later]
  constructor
  · exact fun listed => ⟨m, given, listed⟩
  rintro ⟨m', eq, listed⟩
  rw [given] at eq
  cases eq
  exact listed

end

section

variable {O : Type}

def bucketOf (objects : List (Key × O)) : Bucket O := fun key => objects.lookup key

def listWhole (objects : List (Key × O)) : Backend O := fun r =>
  match r.cursor with
  | .after start => .page
      { contents := objects.filter fun e => decide (start < e.1) && hasPrefix e.1 r.query.pre
        commonPrefixes := [], isTruncated := false, nextContinuationToken := none }
  | .token _ => .page
      { contents := [], commonPrefixes := [], isTruncated := false, nextContinuationToken := none }

theorem bucketOf_eq_some {objects : List (Key × O)} (sorted : Ascending Prod.fst objects)
    {key : Key} {o : O} : bucketOf objects key = some o ↔ (key, o) ∈ objects := by
  induction objects with
  | nil => simp [bucketOf]
  | cons e rest ih =>
    obtain ⟨less, sortedRest⟩ := pairwise_cons.mp sorted
    obtain ⟨k, v⟩ := e
    unfold bucketOf at ih ⊢
    rw [lookup_cons, mem_cons]
    by_cases eq : key = k
    · subst eq
      have away : (key, o) ∉ rest := fun mem => lt_irrefl key (less (key, o) mem)
      simp [away, eq_comm]
    · rw [beq_eq_false_iff_ne.mpr eq]
      simp [ih sortedRest, eq]

theorem items_of_ascending {p : BackendPage O} (none : p.commonPrefixes = [])
    (sorted : Ascending Prod.fst p.contents) (read : ∀ e ∈ p.contents, decodeListingKey e.1 = e.1) :
    p.items = p.contents.map fun e => ⟨e.1, false, some e.2⟩ := by
  have verbatim : (p.contents.map fun e => (⟨decodeListingKey e.1, false, some e.2⟩ : ListItem O)) =
      p.contents.map fun e => ⟨e.1, false, some e.2⟩ :=
    map_congr_left fun e mem => by rw [read e mem]
  unfold BackendPage.items
  simp only [none, map_nil, append_nil, verbatim]
  refine mergeSort_of_pairwise (pairwise_map.mpr (sorted.imp fun less => ?_))
  simpa using le_of_lt less

def listWhole_serves {objects : List (Key × O)} (q : Query)
    (sorted : Ascending Prod.fst objects) (named : ∀ e ∈ objects, e.1 ≠ [] ∧ Utf8 e.1)
    (plain : ∀ e ∈ objects, q.pre <+: e.1 → q.rolled e.1 = none)
    (read : ∀ e ∈ objects, decodeListingKey e.1 = e.1) :
    Answers (listWhole objects) q (some (bucketOf objects)) where
  rest c := match c with
    | .after start => (objects.filter fun e => decide (start < e.1) && hasPrefix e.1 q.pre).map
        fun e => ⟨e.1, false, some e.2⟩
    | .token _ => []
  live _ := True
  left _ := 0
  pages := 0
  few _ := Nat.le_refl 0
  sorted c _ := by
    cases c with
    | after => exact pairwise_map.mpr (sorted.filter _)
    | token => exact List.Pairwise.nil
  named c _ x mem := by
    cases c with
    | after =>
      obtain ⟨e, isIn, rfl⟩ := List.mem_map.mp mem
      exact named e (List.mem_filter.mp isIn).1
    | token => cases mem
  starts _ := trivial
  absent no := by cases no
  answers _ n c _ _ := by
    cases c with
    | after =>
      refine ⟨_, rfl, ?_, fun given => absurd rfl given⟩
      rw [items_of_ascending rfl (sorted.filter _) fun e mem => read e (List.mem_filter.mp mem).1]
      exact (append_nil _).symm
    | token t =>
      refine ⟨_, rfl, ?_, fun given => absurd rfl given⟩
      simp [BackendPage.items, BackendPage.next]
  shows m eq key x later := by
    cases eq
    simp only [List.mem_map, List.mem_filter, Bool.and_eq_true, decide_eq_true_eq]
    constructor
    · rintro ⟨e, ⟨isIn, -, under⟩, rfl⟩
      have under := List.isPrefixOf_iff_prefix.mp under
      refine ⟨e.1, e.2, (bucketOf_eq_some sorted).mpr isIn, under, ?_⟩
      simp only [Query.entry, plain e isIn under]
    rintro ⟨origin, o, got, under, rfl⟩
    have isIn := (bucketOf_eq_some sorted).mp got
    simp only [Query.entry, plain _ isIn under] at later ⊢
    exact ⟨(origin, o), ⟨isIn, later, List.isPrefixOf_iff_prefix.mpr under⟩, rfl⟩
  rolls m eq key x mem prev := by
    obtain ⟨e, isIn, rfl⟩ := List.mem_map.mp mem
    have beyond := (List.mem_filter.mp isIn).2
    simp only [Bool.and_eq_true, decide_eq_true_eq] at beyond
    exact absurd beyond.1 prev

end

end Shunt.Proxy
