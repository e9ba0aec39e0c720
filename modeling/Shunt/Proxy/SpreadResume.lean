/-
How the listing of a spread bucket goes on from one page to the next.
-/

import Shunt.Proxy.SpreadStreams

namespace Shunt.Proxy

open Directory List
open Library
open Migrate

variable {O : Type}

section

variable {hash : Key → Hash} {p : Placement} {b : Leg → Backend O} {q : Query}
  {c : Contents O} {post last start : Key} {version : ListVersion} {id : String}
  {rounds pageSize maxKeys : Nat} {available : String → Bool}

theorem decodeSpreadToken_encode {t : SpreadToken} (utf8 : Utf8 t.last) (named : t.last ≠ []) :
    decodeSpreadToken t.encode = .ok t := by
  have uniq : (t.record.map Prod.fst).Nodup := by simp [SpreadToken.record]
  have texts : readValue (decodeList decodeText) [] (omitList Json.text t.done) = .ok t.done := by
    simpa using readValue_omitList (fun s : String => (rfl : decodeText (.text s) = .ok s)) t.done
  have read : SpreadToken.unmarshal t.encode = .ok t := by
    simp only [SpreadToken.unmarshal, SpreadToken.encode, fields_object, ok_bind,
      readField_at 0 uniq rfl, readField_at 1 uniq rfl, readField_at 2 uniq rfl,
      readValue_omitFlag, readValue_omitBytes, bytesOf_textOf_iff.mpr utf8, texts]
    rfl
  rw [decodeSpreadToken, read]
  simp [named]

def resumeAfter (version : ListVersion) (delimiter : Key) (x : ListItem O) : Key :=
  match version with
  | .v1 =>
    if delimiter ≠ [] ∧ delimiter <:+ x.name then x.name ++ afterPrefix else x.name
  | .v2 => if x.isPrefix then x.name ++ afterPrefix else x.name

/-- A page of ListObjects is not cut after an object whose name ends in the delimiter,
unless the entry after it comes after every key under that name. -/
def clearCut (version : ListVersion) (delimiter : Key) (x y : ListItem O) : Prop :=
  version = .v1 → x.isPrefix = false → delimiter ≠ [] → delimiter <:+ x.name →
    x.name ++ afterPrefix < y.name

theorem startOf_next (version : ListVersion) (delimiter start : Key) (done : List String)
    {x : ListItem O} (utf8 : Utf8 x.name) (named : x.name ≠ []) :
    ∃ tok, startOf version delimiter start (some (nextToken version x done)) = .ok tok ∧
      tok.after = resumeAfter version delimiter x ∧ ∀ id ∈ tok.done, id ∈ done := by
  cases version with
  | v1 =>
    refine ⟨_, rfl, ?_, nofun⟩
    by_cases ends : delimiter ≠ [] ∧ delimiter <:+ x.name
    · simp [SpreadToken.after, resumeAfter, ends]
    rw [resumeAfter, if_neg ends]
    have plain : (decide (delimiter ≠ []) && delimiter.isSuffixOf x.name) = false := by
      rw [Bool.eq_false_iff, ne_eq, Bool.and_eq_true, decide_eq_true_eq, List.isSuffixOf_iff_suffix]
      exact ends
    simp only [SpreadToken.after, plain]
    rfl
  | v2 =>
    refine ⟨⟨x.name, x.isPrefix, done⟩, decodeSpreadToken_encode utf8 named, rfl, fun _ => ?_⟩
    exact fun mem => mem

theorem entry_forward {key key' : Key} {o u : O} (under : q.pre <+: key')
    (rolled : (q.entry key o).isPrefix)
    (later : (q.entry key o).name < (q.entry key' u).name) (more : Key) :
    (q.entry key o).name ++ more < (q.entry key' u).name := by
  by_contra prev
  have starts : (q.entry key o).name <+: (q.entry key' u).name :=
    prefix_between (List.prefix_append _ more) (lt_asymm later) prev
  rw [entry_rolled (u := u) rolled (starts.trans (entry_name under))] at later
  exact lt_irrefl _ later

section

variable (serves : LegsAnswer p b q c)

theorem resumeAfter_lt_iff {x y : ListItem O} (isIn : x ∈ legsAfter hash serves last)
    (next : y ∈ legsAfter hash serves last) (later : x.name < y.name) :
    resumeAfter version q.delimiter x < y.name ↔ clearCut version q.delimiter x y := by
  obtain ⟨-, ⟨key, o, -, rfl⟩, -⟩ := legsAfter_entry serves isIn
  obtain ⟨-, ⟨key', u, under, rfl⟩, -⟩ := legsAfter_entry serves next
  have forward : (q.entry key o).isPrefix →
      (q.entry key o).name ++ afterPrefix < (q.entry key' u).name :=
    fun rolled => entry_forward under rolled later afterPrefix
  cases version with
  | v1 =>
    rw [resumeAfter]
    by_cases ends : q.delimiter ≠ [] ∧ q.delimiter <:+ (q.entry key o).name
    · rw [if_pos ends]
      refine ⟨fun beyond _ _ _ _ => beyond, fun clear => ?_⟩
      cases rolled : (q.entry key o).isPrefix with
      | true => exact forward rolled
      | false => exact clear rfl rolled ends.1 ends.2
    · rw [if_neg ends]
      exact ⟨fun _ _ _ given suffix => absurd ⟨given, suffix⟩ ends, fun _ => later⟩
  | v2 =>
    rw [resumeAfter]
    refine ⟨fun _ => nofun, fun _ => ?_⟩
    split
    · rename_i rolled
      exact forward rolled
    · exact later

theorem resumeAfter_not_lt (x : ListItem O) : ¬ resumeAfter version q.delimiter x < x.name := by
  have longer : ¬ x.name ++ afterPrefix < x.name :=
    prefix_not_lt (List.prefix_append x.name afterPrefix)
  unfold resumeAfter
  split
  · split
    · exact longer
    · exact lt_irrefl _
  split
  · exact longer
  · exact lt_irrefl _

theorem kept_fresh (hash : Key → Hash) (read : id ∈ p.listingLegs q.pre) (post : Key) :
    (serves id read).kept (ownItem hash p id) post (.after post) = keptOn hash serves id post := by
  rw [keptOn_read serves read]
  refine ((serves id read).kept_ascending _ _ ((serves id read).starts post)).ext
    ((serves id read).kept_ascending _ _ ((serves id read).starts [])) fun x => ?_
  simp only [Answers.kept, mem_above, List.mem_filter]
  refine and_congr_left fun later => and_congr_left fun _ => ?_
  have named : ([] : Key) < x.name := ne_nil_iff_nil_lt.mp fun empty => not_lt_nil _ (empty ▸ later)
  rw [(serves id read).shows _ rfl post x later, (serves id read).shows _ rfl [] x named]

theorem legAt_first (read : id ∈ p.listingLegs q.pre) {done : Bool}
    (spent : done → keptOn hash serves id post = []) :
    LegAt serves hash post post ⟨id, { done := done }⟩ := by
  have cursor : cursorOf "" [] post = .after post := by
    unfold cursorOf
    split
    · rename_i given
      exact absurd rfl given
    split
    · rfl
    · rename_i empty
      rw [not_not.mp empty]
  have fresh := kept_fresh serves hash read post
  rw [keptOn_read serves read] at fresh spent
  refine ⟨read, ⟨?_, fun _ => ?_, fun _ => ?_, nofun, lt_irrefl _, nofun, fun _ => rfl⟩⟩
  · cases done with
    | true => exact (spent rfl).symm
    | false =>
      change (serves id read).kept _ post (cursorOf "" [] post) = _
      rw [cursor]
      exact fresh
  · change (serves id read).kept _ post (cursorOf "" [] post) = _
    rw [cursor]
    exact fresh
  change (serves id read).live (cursorOf "" [] post)
  rw [cursor]
  exact (serves id read).starts post

theorem firstOfLeg_at (size : 1 ≤ pageSize) (read : id ∈ p.listingLegs q.pre) {done : Bool}
    (spent : done → keptOn hash serves id post = []) :
    ∃ l, firstOfLeg hash p b q [] pageSize post ⟨id, { done := done }⟩ = .ok l ∧ l.id = id ∧
      LegAt serves hash post post l := by
  obtain ⟨_, stands⟩ := legAt_first serves read spent
  cases done with
  | true => exact ⟨_, rfl, rfl, read, stands⟩
  | false =>
    obtain ⟨s, fetched, at_⟩ := (serves id read).fetch_at stands nofun size rfl rfl rfl
    refine ⟨⟨id, { s with items := s.items.filter (ownItem hash p id) }⟩, ?_, rfl, read, at_⟩
    simp only [firstOfLeg, fetched]
    rfl

theorem allOrJoined_ok {α : Type} (items : List α) :
    allOrJoined (items.map Except.ok) = .ok items := by
  have none : (items.map (Except.ok (ε := String))).filterMap failureOf = [] := by
    simp [failureOf]
  have all : (items.map (Except.ok (ε := String))).filterMap Except.toOption = items := by
    rw [filterMap_map]
    exact filterMap_some
  simp only [allOrJoined, none, if_true, all]

theorem firstOfLegs_at (size : 1 ≤ pageSize) {done : List String}
    (spent : ∀ id ∈ done, keptOn hash serves id post = []) :
    ∃ legs, allOrJoined (((p.listingLegs q.pre).map fun id =>
        (⟨id, { done := decide (id ∈ done) }⟩ : SpreadLeg O)).map
          (firstOfLeg hash p b q [] pageSize post)) = .ok legs ∧
      AllAt serves hash post post legs := by
  have each : ∀ ids : List String, (∀ id ∈ ids, id ∈ p.listingLegs q.pre) →
      ∃ legs : List (SpreadLeg O), (ids.map fun id =>
          (⟨id, { done := decide (id ∈ done) }⟩ : SpreadLeg O)).map
            (firstOfLeg hash p b q [] pageSize post) = legs.map Except.ok ∧
        legs.map SpreadLeg.id = ids ∧ ∀ l ∈ legs, LegAt serves hash post post l := by
    intro ids
    induction ids with
    | nil => exact fun _ => ⟨[], rfl, rfl, nofun⟩
    | cons id rest ih =>
      intro listed
      obtain ⟨first, others⟩ := forall_mem_cons.mp listed
      obtain ⟨l, read, eq, at_⟩ := firstOfLeg_at serves size first
        (fun given => spent id (of_decide_eq_true given))
      obtain ⟨legs, readRest, ids, atRest⟩ := ih others
      refine ⟨l :: legs, ?_, by simp [eq, ids], forall_mem_cons.mpr ⟨at_, atRest⟩⟩
      rw [map_cons, map_cons, map_cons, read, readRest]
  obtain ⟨legs, read, ids, at_⟩ := each _ fun _ mem => mem
  exact ⟨legs, by rw [read, allOrJoined_ok], ids, at_⟩

theorem headOfLeg_reads (size : 1 ≤ pageSize)
    (enough : ∀ id read, (serves id read).pages + 1 < rounds) :
    ReadsLegs serves hash post (headOfLeg rounds hash p b q [] pageSize post) := by
  rintro l last ⟨read, stands⟩
  have reads : Reads (serves l.id read) (ownItem hash p l.id) [] post
      (head (b (legIn p.legs l.id)) q pageSize [] post (ownItem hash p l.id)
        (fun _ => .error (.upstream (missingLeg l.id (legIn p.legs l.id)))) rounds) :=
    (serves l.id read).reads size nofun (enough l.id read)
  obtain ⟨s, got, at_, rest⟩ := reads l.side last stands
  refine ⟨{ l with side := s }, ?_, rfl, ⟨read, at_⟩, ?_⟩
  · simp only [headOfLeg, got, ok_bind]
    rfl
  rw [keptOn_read serves read]
  cases items : s.items with
  | nil => rw [(rest items).2]
  | cons =>
    rw [← at_.remaining, items]
    rfl

theorem spreadPageSize_pos (maxKeys live : Nat) : 1 ≤ spreadPageSize maxKeys live := by
  unfold spreadPageSize
  split
  · exact Nat.le_max_right _ _
  · exact Nat.le_max_right _ _

def leftFor (hash : Key → Hash) (version : ListVersion) (request : Option ListToken) :
    List (ListItem O) :=
  match startOf version q.delimiter [] request with
  | .ok tok => legsAfter hash serves tok.after
  | .error _ => []

/-- A request this listing handed out: the legs it passes over have nothing left. -/
def HandedOut (hash : Key → Hash) (version : ListVersion) (request : Option ListToken) : Prop :=
  ∃ tok, startOf version q.delimiter [] request = .ok tok ∧
    ∀ id ∈ tok.done, keptOn hash serves id tok.after = []

theorem handedOut_first (hash : Key → Hash) (version : ListVersion) :
    HandedOut serves hash version none ∧
      leftFor serves hash version none = legsAfter hash serves [] := by
  cases version with
  | v1 | v2 => exact ⟨⟨_, rfl, nofun⟩, rfl⟩

theorem spreadListingPage_spec (version : ListVersion) (maxKeys : Nat)
    (reached : ∀ id ∈ p.listingLegs q.pre, available (legIn p.legs id).cluster)
    (enough : ∀ id read, (serves id read).pages + 1 < rounds) {request : Option ListToken}
    {tok : SpreadToken} (starts : startOf version q.delimiter [] request = .ok tok)
    (spent : ∀ id ∈ tok.done, keptOn hash serves id tok.after = []) :
    ∃ truncated done, spreadListingPage rounds hash p available b q [] maxKeys version request =
        .ok { items := (legsAfter hash serves tok.after).take (pageLimit maxKeys), truncated
              next := if truncated then
                  ((legsAfter hash serves tok.after).take (pageLimit maxKeys)).getLast?.map
                    (nextToken version · done)
                else none } ∧
      (truncated ↔ pageLimit maxKeys < (legsAfter hash serves tok.after).length) ∧
      ∀ id ∈ done, keptOn hash serves id
        (lastName tok.after ((legsAfter hash serves tok.after).take (pageLimit maxKeys))) =
          [] := by
  generalize sized : spreadPageSize (pageLimit maxKeys)
    ((p.listingLegs q.pre).filter fun id => decide (id ∉ tok.done)).length = pageSize
  have size : 1 ≤ pageSize := by
    rw [← sized]
    exact spreadPageSize_pos _ _
  obtain ⟨legs, first, stand⟩ := firstOfLegs_at serves size spent
  obtain ⟨truncated, done, page, cut, ended⟩ :=
    spreadPage_spec (headOfLeg_reads serves size enough) (pageLimit maxKeys) stand
  have every : ((p.listingLegs q.pre).find? fun id => !available (legIn p.legs id).cluster) =
      none := by
    refine find?_eq_none.mpr fun id listed => ?_
    simp [reached id listed]
  refine ⟨truncated, done, ?_, cut, ended⟩
  simp only [spreadListingPage, starts, ok_bind, sized, every, first, page]
  rfl

theorem getLast?_stretch {items : List (ListItem O)} {n : Nat} {x : ListItem O} (pos : 0 < n)
    (last : items[n - 1]? = some x) : (items.take n).getLast? = some x := by
  have isIn := (List.getElem?_eq_some_iff.mp last).1
  have length : (items.take n).length = n := length_take_of_le (by omega)
  rw [getLast?_eq_getElem?, length, getElem?_take_of_lt (by omega), last]

theorem spreadListing_stretches (version : ListVersion) (pos : 1 ≤ maxKeys)
    (reached : ∀ id ∈ p.listingLegs q.pre, available (legIn p.legs id).cluster)
    (enough : ∀ id read, (serves id read).pages + 1 < rounds) :
    Stretches (spreadListingPage rounds hash p available b q [] maxKeys version)
      (HandedOut serves hash version) (leftFor serves hash version) (pageLimit maxKeys)
      (clearCut version q.delimiter) := by
  rintro request ⟨tok, starts, spent⟩
  have left : leftFor serves hash version request = legsAfter hash serves tok.after := by
    rw [leftFor, starts]
  obtain ⟨truncated, done, told, cut, ended⟩ :=
    spreadListingPage_spec serves version maxKeys reached enough starts spent
  rw [left]
  refine ⟨_, told, rfl, cut, fun x y last next => ?_⟩
  have limit := pageLimit_pos pos
  have final := getLast?_stretch limit last
  have more := (List.getElem?_eq_some_iff.mp next).1
  have named : lastName tok.after
      ((legsAfter hash serves tok.after).take (pageLimit maxKeys)) = x.name := by
    rw [lastName, final]
    rfl
  rw [named] at ended
  have isIn : x ∈ legsAfter hash serves tok.after := mem_of_getElem? last
  obtain ⟨beyond, -, given, utf8⟩ := legsAfter_entry serves isIn
  obtain ⟨tok', resumed, post', done'⟩ := startOf_next version q.delimiter [] done utf8 given
  -- what is left after the page's last entry, and after where the next page starts
  have rest : legsAfter hash serves x.name =
      (legsAfter hash serves tok.after).drop (pageLimit maxKeys) := by
    have split := take_append_drop (pageLimit maxKeys) (legsAfter hash serves tok.after)
    obtain ⟨prev, shape⟩ := getLast?_eq_some_iff.mp final
    have sorted := legsAfter_ascending serves hash tok.after
    rw [shape, append_assoc, singleton_append] at split
    rw [← split] at sorted
    have tail := sorted.drop_eq
    rw [split] at tail
    rw [← above_legsAfter serves (lt_asymm beyond), tail]
  have later : leftFor serves hash version (some (nextToken version x done)) =
      above ListItem.name (resumeAfter version q.delimiter x) (legsAfter hash serves x.name) := by
    rw [leftFor, resumed, above_legsAfter serves (resumeAfter_not_lt x), ← post']
  have sorted := legsAfter_ascending serves hash x.name
  obtain ⟨others, shape⟩ : ∃ others, legsAfter hash serves x.name = y :: others := by
    rw [rest]
    refine head?_eq_some_iff.mp ?_
    rw [head?_drop]
    exact next
  refine ⟨nextToken version x done, ?_, ⟨tok', resumed, ?_⟩, ?_, ?_⟩
  · simp only [cut.mpr more, if_true, final, Option.map_some]
  · intro id listed
    rw [post', ← above_keptOn serves (resumeAfter_not_lt x), ended id (done' id listed)]
    rfl
  · rw [later, ← rest]
    exact sorted.above_suffix _
  have mem : y ∈ legsAfter hash serves x.name := by
    rw [shape]
    exact mem_cons_self
  rw [shape] at sorted
  rw [later, ← rest, shape, sorted.above_eq_self]
  exact resumeAfter_lt_iff serves isIn (mem_of_getElem? next) (legsAfter_entry serves mem).1

theorem spreadListing_whole_iff (hash : Key → Hash) (version : ListVersion) (pos : 1 ≤ maxKeys)
    (reached : ∀ id ∈ p.listingLegs q.pre, available (legIn p.legs id).cluster)
    (enough : ∀ id read, (serves id read).pages + 1 < rounds) :
    (∃ pages, Followed (spreadListingPage rounds hash p available b q [] maxKeys version) none
        pages ∧ shown pages = legsAfter hash serves []) ↔
      ClearCuts (clearCut version q.delimiter) (pageLimit maxKeys) (legsAfter hash serves []) := by
  obtain ⟨first, left⟩ := handedOut_first serves hash version
  rw [← left]
  exact (spreadListing_stretches serves version pos reached enough).whole_iff
    (pageLimit_pos pos) first

end

end

end Shunt.Proxy
