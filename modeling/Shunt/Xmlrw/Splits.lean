/-
However a document is cut into calls, the rewriter produces the same bytes, and an editor
that changes nothing leaves the document as it is.
-/

import Shunt.Xmlrw.Writer

namespace Shunt.Xmlrw

open Directory List Option
open Library (bytesOf textOf textOf_bytesOf)

variable {S : Type} {edit : Editor S} {maxText : Nat} {w a b : Writer S}
variable {names : Int → Option Key} {core : Core}

def Writer.held (w : Writer S) : Key := (w.capture.map Capture.buf).getD []

def Writer.total (w : Writer S) : Key := w.out ++ w.held ++ w.seg

theorem total_endWrite (w : Writer S) : (endWrite maxText w).total = w.total := by
  unfold endWrite
  cases held : w.capture with
  | none => simp [Writer.total, Writer.held, held]
  | some =>
    simp only
    split
    · simp [Writer.total, Writer.held, held]
    · simp [Writer.total, Writer.held, held]

theorem seg_endWrite (w : Writer S) : (endWrite maxText w).seg = [] := by
  unfold endWrite
  cases w.capture with
  | none => rfl
  | some =>
    simp only
    split <;> rfl

theorem out_flush (spent : w.seg = []) : (flush w).out = w.total := by
  unfold flush
  cases held : w.capture with
  | none | some => simp [Writer.total, Writer.held, held, spent]

theorem seg_foldl_write (spent : w.seg = []) (calls : List Key) :
    (calls.foldl (write edit maxText) w).seg = [] := by
  induction calls generalizing w with
  | nil => exact spent
  | cons p rest ih => exact ih (seg_endWrite _)

theorem rewrite_eq_total (editor : S) (calls : List Key) : rewrite edit maxText editor calls =
      (calls.foldl (write edit maxText) { editor := editor }).total :=
  out_flush (seg_foldl_write rfl calls)

theorem finish_same (eq : ∀ s f t, (edit s f t).1 = t) (editor : S) (cap : Capture)
    (held : Key) : (finish edit maxText editor cap held).1 = held := by
  unfold finish
  simp only
  split
  · rfl
  · rw [eq, take_append_drop]

theorem total_startTag (w : Writer S) : (startTag w).total = w.total := by
  unfold startTag
  cases held : w.capture with
  | some => simp [Writer.total, Writer.held, held]
  | none =>
    simp only
    split
    · simp [Writer.total, Writer.held, held]
    · simp [Writer.total, Writer.held, held]

theorem total_endTag (eq : ∀ s f t, (edit s f t).1 = t) (w : Writer S) :
    (endTag edit maxText w).total = w.total := by
  unfold endTag
  cases held : w.capture with
  | none => simp [Writer.total, Writer.held, held]
  | some =>
    simp only
    split
    · simp [Writer.total, Writer.held, held, finish_same eq]
    · simp [Writer.total, Writer.held, held]

theorem total_scan (eq : ∀ s f t, (edit s f t).1 = t) (w : Writer S) (c : UInt8) :
    (scan edit maxText w c).total = w.total ++ [c] := by
  unfold scan
  split
  · simp [Writer.total, Writer.held]
  simp only
  cases (w.core.lex.step c).2 with
  | quiet | notXML => simp [Writer.total, Writer.held]
  | opened | markup =>
    cases held : w.capture with
    | none | some => simp [Writer.total, Writer.held, held]
  | startTag =>
    simp only [total_startTag]
    simp [Writer.total, Writer.held]
  | endTag =>
    simp only [total_endTag eq]
    simp [Writer.total, Writer.held]

theorem total_write (eq : ∀ s f t, (edit s f t).1 = t) (w : Writer S) (p : Key) :
    (write edit maxText w p).total = w.total ++ p := by
  rw [write, total_endWrite]
  induction p generalizing w with
  | nil => simp
  | cons c rest ih =>
    rw [foldl_cons, ih, total_scan eq]
    simp

theorem total_writes (eq : ∀ s f t, (edit s f t).1 = t) (w : Writer S) (calls : List Key) :
    (calls.foldl (write edit maxText) w).total = w.total ++ calls.flatten := by
  induction calls generalizing w with
  | nil => simp
  | cons p rest ih =>
    rw [foldl_cons, ih, total_write eq]
    simp

def Mode.inMarkup : Mode → Bool
  | .bang | .comment | .cdata | .decl | .pi => true
  | _ => false

theorem st_nameByte (l : Lex) (c : UInt8) : (l.nameByte c).st = l.st := by
  unfold Lex.nameByte
  split <;> rfl

theorem bangByte_spec (l : Lex) (c : UInt8) (st : l.st = .bang) :
    (l.bangByte c).st = .text ∨ (l.bangByte c).st.inMarkup = true := by
  unfold Lex.bangByte
  simp only
  split_ifs <;> simp [Mode.inMarkup, st]

theorem closing_spec (l : Lex) (mark c : UInt8) (st : l.st.inMarkup) :
    (l.closing mark c).st = .text ∨ (l.closing mark c).st.inMarkup = true := by
  unfold Lex.closing
  split_ifs <;> simp [st]

theorem step_spec (l : Lex) (c : UInt8) :
    match (l.step c).2 with
    | .quiet =>
      (l.st = .text → (l.step c).1.st = .text) ∧
      ((l.step c).1.st = .text → l.st = .text ∨ l.st.inMarkup = true) ∧
      ((l.step c).1.st.inMarkup → l.st.inMarkup = true) ∧
      (l.st ≠ .prolog → (l.step c).1.st ≠ .prolog)
    | .opened => (l.st = .prolog ∨ l.st = .text) ∧ (l.step c).1.st = .lt
    | .markup => l.st = .lt ∧ (l.step c).1.st.inMarkup = true
    | .notXML => l.st = .prolog
    | .startTag => (l.step c).1.st = .text ∧ l.st ≠ .text
    | .endTag => (l.step c).1.st = .text ∧ l.st ≠ .text := by
  unfold Lex.step
  cases st : l.st with
  | prolog | text | startAttrs | startQuote | endRest | decl | pi =>
    simp only; split_ifs <;> simp [st, Mode.inMarkup]
  | lt => simp only; split_ifs <;> simp [st_nameByte, Mode.inMarkup]
  | startName | endName => simp only; split_ifs <;> simp [st, st_nameByte, Mode.inMarkup]
  | bang =>
    rcases bangByte_spec l c st with here | here
    · simp [here, Mode.inMarkup]
    have other : (l.bangByte c).st ≠ .prolog := by
      intro eq
      rw [eq] at here
      cases here
    simp [other, Mode.inMarkup]
  | comment =>
    rcases closing_spec l 45 c (by rw [st]; rfl) with here | here
    · simp [here, Mode.inMarkup]
    have other : (l.closing 45 c).st ≠ .prolog := by
      intro eq
      rw [eq] at here
      cases here
    simp [other, Mode.inMarkup]
  | cdata =>
    rcases closing_spec l 93 c (by rw [st]; rfl) with here | here
    · simp [here, Mode.inMarkup]
    have other : (l.closing 93 c).st ≠ .prolog := by
      intro eq
      rw [eq] at here
      cases here
    simp [other, Mode.inMarkup]

/-- A held element that is forwarded as it came, however it goes on. -/
def Capture.Doomed (maxText : Nat) (cap : Capture) (st : Mode) (total : Nat) : Prop :=
  cap.mixed = true ∨ cap.overLimits maxText st total = true

/-- What holds of a held element: its depth, the marks of markup inside it, the place of its
latest markup, and the rule that it matched. -/
structure HeldWell (w : Writer S) (cap : Capture) : Prop where
  going : w.core.done = false
  begun : w.core.lex.st ≠ .prolog
  deep : 2 ≤ cap.depth ∧ cap.depth ≤ w.core.depth
  nested : w.core.depth ≠ cap.depth → cap.mixed = true
  markup : w.core.lex.st.inMarkup = true → cap.mixed = true
  place : w.core.lex.st ≠ .text → cap.lt ≤ cap.buf.length + w.seg.length
  rule : ∃ t r, w.core.tbl = some t ∧ r ∈ t.rules ∧ (r.path.length : Int) = cap.depth - 1 ∧
    pathAt w.names 2 r.path = true

structure CoreWell (core : Core) : Prop where
  stops : core.stopNext = true → core.done = true
  table : ∀ t, core.tbl = some t → t ∈ tables ∧ core.matched.length = t.rules.length
  pending : ∀ t, core.tbl = some t → t.repeats = false →
    core.pending = (core.matched.count false : Nat)

structure Well (w : Writer S) : Prop where
  core : CoreWell w.core
  held : ∀ cap, w.capture = some cap → HeldWell w cap

theorem once_of_single : ∀ t ∈ tables, t.repeats = false → ∀ r ∈ t.rules, r.once = true := by
  decide

theorem rules_apart : ∀ t ∈ tables, ∀ r ∈ t.rules, ∀ q ∈ t.rules,
    r.path.length = 1 → q.path.length = 2 → r.path.head? ≠ q.path.head? := by
  decide

theorem bytesOf_injective {s t : String} (eq : bytesOf s = bytesOf t) : s = t := by
  rw [← textOf_bytesOf s, eq, textOf_bytesOf]

theorem findRule_some {t : Table} {matched : List Bool} {depth : Int} {i : Nat} {r : Rule}
    (got : findRule t matched names depth = some (i, r)) :
    r ∈ t.rules ∧ t.rules[i]? = some r ∧ (r.path.length : Int) = depth - 1 ∧
      (r.once → matched[i]?.getD false = false) ∧ pathAt names 2 r.path = true := by
  unfold findRule at got
  obtain ⟨⟨q, j⟩, hit, eq⟩ := map_eq_some_iff.mp got
  cases eq
  have test := find?_some hit
  have place := mk_mem_zipIdx_iff_getElem?.mp (mem_of_find?_eq_some hit)
  simp only [Bool.and_eq_true, decide_eq_true_eq, Bool.not_eq_true'] at test
  obtain ⟨⟨length, fresh⟩, path⟩ := test
  refine ⟨mem_of_getElem? place, place, length, fun once => ?_, path⟩
  rwa [once, Bool.true_and] at fresh

theorem hit_well {t : Table} (well : CoreWell core)
    (table : core.tbl = some t) {i : Nat} {r : Rule} (place : t.rules[i]? = some r)
    (fresh : r.once → core.matched[i]?.getD false = false) : CoreWell (core.hit i r) := by
  unfold Core.hit
  split
  case isFalse => exact well
  case isTrue once =>
    have length := (well.table t table).2
    have bound : i < core.matched.length := by
      rw [length]
      exact (List.getElem?_eq_some_iff.mp place).1
    have unmatched : core.matched[i] = false := by
      have read := fresh once
      rwa [getElem?_eq_getElem bound, getD_some] at read
    refine ⟨well.stops, fun t₂ table₂ => ⟨(well.table t₂ table₂).1, ?_⟩, fun t₂ table₂ single => ?_⟩
    · rw [length_set]
      exact (well.table t₂ table₂).2
    have prev := well.pending t₂ table₂ single
    have counted := count_set (a := true) (b := false) (l := core.matched) bound
    have there : 0 < core.matched.count false := count_pos_iff.mpr (unmatched ▸ getElem_mem bound)
    simp only [unmatched, beq_self_eq_true, if_true] at counted
    show core.pending - 1 = _
    rw [prev, counted]
    simp
    omega

theorem pathAt_congr {names₂ : Int → Option Key} {path : List String} {depth : Int}
    (length : (path.length : Int) = depth - 1) (bound : depth ≤ maxDepth)
    (outer : names 2 = names₂ 2) (inner : names depth = names₂ depth) :
    pathAt names 2 path = pathAt names₂ 2 path := by
  unfold maxDepth at bound
  match path, length with
  | [], _ => rfl
  | [x], _ => simp [pathAt, outer]
  | [x, y], length =>
    have three : depth = 3 := by
      simp only [length_cons, length_nil] at length
      omega
    subst three
    simp [pathAt, outer, inner]
  | x :: y :: z :: rest, length =>
    simp only [length_cons] at length
    omega

theorem lookup_congr {core : Core} {names names₂ : Int → Option Key} {depth : Int}
    (outer : names 2 = names₂ 2) : (core.lookup names depth).1 = (core.lookup names₂ depth).1 ∧
      (core.lookup names depth).2 2 = (core.lookup names₂ depth).2 2 := by
  unfold Core.lookup
  cases core.tbl with
  | none => exact ⟨rfl, outer⟩
  | some t =>
    simp only
    have kept (name : Option Key) :
        setName names depth name 2 = setName names₂ depth name 2 := by
      unfold setName
      split
      · rfl
      · exact outer
    split_ifs with shallow long
    · exact ⟨rfl, outer⟩
    · exact ⟨rfl, kept none⟩
    refine ⟨?_, kept _⟩
    rw [not_or] at shallow
    show findRule t core.matched _ depth = findRule t core.matched _ depth
    unfold findRule
    congr 2
    funext ri
    by_cases length : (ri.1.path.length : Int) = depth - 1
    · rw [pathAt_congr length (Int.not_lt.mp shallow.2) (kept _) (by simp [setName])]
    · simp [length]

theorem lookup_some {depth : Int} {i : Nat}
    {r : Rule} (got : (core.lookup names depth).1 = some (i, r)) :
    ∃ t, core.tbl = some t ∧ depth ≠ 1 ∧ depth ≤ maxDepth ∧ core.lex.slash = false ∧
      findRule t core.matched (core.lookup names depth).2 depth = some (i, r) := by
  unfold Core.lookup at got ⊢
  cases table : core.tbl with
  | none =>
    rw [table] at got
    cases got
  | some t =>
    rw [table] at got
    simp only at got ⊢
    split_ifs at got ⊢ with shallow long
    rw [not_or] at shallow
    rw [Bool.or_eq_true, not_or] at long
    exact ⟨t, rfl, shallow.1, Int.not_lt.mp shallow.2, by simpa using long.2, got⟩

theorem lookup_other {depth d : Int}
    (other : d ≠ depth) : (core.lookup names depth).2 d = names d := by
  unfold Core.lookup
  cases core.tbl with
  | none => rfl
  | some =>
    simp only
    split_ifs
    · rfl
    · simp [setName, other]
    · simp [setName, other]

theorem paths_present : ∀ t ∈ tables, ∀ r ∈ t.rules, r.path ≠ [] := by decide

theorem lookup_nested {cap : Capture} (well : Well w) (held : HeldWell w cap)
    (outer : names 2 = w.names 2) (table : core.tbl = w.core.tbl) :
    (core.lookup names (w.core.depth + 1)).1 = none := by
  cases got : (core.lookup names (w.core.depth + 1)).1 with
  | none => rfl
  | some hit =>
    exfalso
    obtain ⟨i, q⟩ := hit
    obtain ⟨t, tbl, _, bound, _, rule⟩ := lookup_some got
    obtain ⟨mem, _, length, _, path⟩ := findRule_some rule
    obtain ⟨t₂, r, tbl₂, member₂, length₂, path₂⟩ := held.rule
    rw [table, tbl₂] at tbl
    cases some.inj tbl
    obtain ⟨deep, isIn⟩ := held.deep
    unfold maxDepth at bound
    have among := (well.core.table _ tbl₂).1
    have single : r.path.length = 1 := by omega
    have double : q.path.length = 2 := by omega
    have names2 : (core.lookup names (w.core.depth + 1)).2 2 = w.names 2 := by
      rw [lookup_other (by omega), outer]
    obtain ⟨x, outerPath⟩ := length_eq_one_iff.mp single
    obtain ⟨y, z, innerPath⟩ := length_eq_two.mp double
    rw [outerPath] at path₂
    rw [innerPath] at path
    simp only [pathAt, Bool.and_eq_true, decide_eq_true_eq] at path path₂
    have eq : x = y := by
      refine bytesOf_injective (some.inj ?_)
      rw [← path₂.1, ← path.1, names2]
    refine rules_apart _ among r member₂ q mem single double ?_
    rw [outerPath, innerPath, eq]
    rfl

theorem enter_well (well : CoreWell core) : CoreWell core.enter :=
  ⟨well.stops, well.table, well.pending⟩

theorem root_well (well : CoreWell core) : CoreWell core.root := by
  unfold Core.root
  split
  · exact ⟨fun _ => rfl, nofun, nofun⟩
  rename_i t got
  refine ⟨well.stops, fun t₂ eq => ?_, fun t₂ eq _ => ?_⟩
  · cases some.inj eq
    exact ⟨mem_of_find?_eq_some got, length_replicate⟩
  · cases some.inj eq
    simp [count_replicate_self]

theorem lex_well (well : CoreWell core) (lex : Lex) : CoreWell { core with lex := lex } :=
  ⟨well.stops, well.table, well.pending⟩

theorem leave_well (well : CoreWell core) (capturing : Bool) : CoreWell (core.leave capturing) := by
  refine ⟨fun stops => ?_, well.table, well.pending⟩
  have done := well.stops stops
  simp [Core.leave, done]

theorem startTag_well (well : Well w) (going : w.core.done = false)
    (text : w.core.lex.st = .text) : Well (startTag w) := by
  unfold startTag
  cases held : w.capture with
  | some cap =>
    have isIn := well.held cap held
    simp only [isNone_some, Bool.false_eq_true, and_false, if_false]
    refine ⟨enter_well well.core, fun cap₂ eq => ?_⟩
    cases some.inj eq
    refine ⟨going, isIn.begun, ?_, fun _ => rfl, fun _ => rfl, isIn.place, isIn.rule⟩
    obtain ⟨deep, below⟩ := isIn.deep
    refine ⟨deep, ?_⟩
    show cap.depth ≤ if w.core.lex.slash then w.core.depth else w.core.depth + 1
    split <;> omega
  | none =>
    simp only [isNone_none, and_true]
    have chosen : CoreWell (if w.core.depth + 1 = 1 then w.core.enter.root else w.core.enter) := by
      split
      · exact root_well (enter_well well.core)
      · exact enter_well well.core
    split
    · exact ⟨chosen, nofun⟩
    rename_i i r names got
    have first : (Core.lookup (if w.core.depth + 1 = 1 then w.core.enter.root
        else w.core.enter) w.names (w.core.depth + 1)).1 = some (i, r) := by rw [got]
    have second : (Core.lookup (if w.core.depth + 1 = 1 then w.core.enter.root
        else w.core.enter) w.names (w.core.depth + 1)).2 = names := by rw [got]
    obtain ⟨t, table, other, _, slash, rule⟩ := lookup_some first
    rw [second] at rule
    rw [if_neg other] at table slash rule chosen ⊢
    obtain ⟨mem, place, length, fresh, path⟩ := findRule_some rule
    refine ⟨hit_well chosen table place fresh, fun cap eq => ?_⟩
    cases some.inj eq
    have there := paths_present t (chosen.table t table).1 r mem
    have pos : 0 < r.path.length := length_pos_iff.mpr there
    have entered : (w.core.enter.hit i r).depth = w.core.depth + 1 := by
      have open_ : w.core.lex.slash = false := slash
      unfold Core.hit
      split <;> simp [Core.enter, open_]
    have kept : (w.core.enter.hit i r).lex = w.core.lex ∧
        (w.core.enter.hit i r).done = w.core.done ∧
        (w.core.enter.hit i r).tbl = w.core.enter.tbl := by
      unfold Core.hit
      split <;> exact ⟨rfl, rfl, rfl⟩
    refine ⟨?_, ?_, ⟨?_, ?_⟩, ?_, ?_, ?_, t, r, ?_, mem, length, path⟩
    · rw [kept.2.1]
      exact going
    · simp [kept.1, text]
    · show 2 ≤ w.core.depth + 1
      omega
    · exact le_of_eq entered.symm
    · exact fun apart => absurd entered apart
    · simp [kept.1, text, Mode.inMarkup]
    · simp [kept.1, text]
    · rw [kept.2.2]
      exact table

theorem endTag_well (well : Well w) (going : w.core.done = false) :
    Well (endTag edit maxText w) := by
  unfold endTag
  cases held : w.capture with
  | none => exact ⟨leave_well well.core false, nofun⟩
  | some cap =>
    have isIn := well.held cap held
    obtain ⟨deep, below⟩ := isIn.deep
    simp only
    split
    · refine ⟨⟨fun stops => ?_, well.core.table, well.core.pending⟩, nofun⟩
      simp only [Core.leave] at stops ⊢
      simp [stops]
    rename_i apart
    refine ⟨leave_well well.core true, fun cap₂ eq => ?_⟩
    cases some.inj eq
    have open_ : ¬w.core.depth - 1 ≤ 0 := by omega
    refine ⟨?_, isIn.begun, ⟨deep, ?_⟩, fun _ => isIn.nested apart, isIn.markup,
      isIn.place, isIn.rule⟩
    · simp [Core.leave, going]
      omega
    · show cap.depth ≤ w.core.depth - 1
      omega

theorem scan_well (well : Well w) (c : UInt8) : Well (scan edit maxText w c) := by
  unfold scan
  by_cases done : w.core.done
  · rw [if_pos done]
    refine ⟨well.core, fun cap held => ?_⟩
    have going := (well.held cap held).going
    rw [done] at going
    cases going
  have going : w.core.done = false := by simpa using done
  rw [if_neg done]
  have spec := step_spec w.core.lex c
  simp only
  cases event : (w.core.lex.step c).2 with
  | quiet =>
    rw [event] at spec
    obtain ⟨stays, back, marked, begun⟩ := spec
    refine ⟨lex_well well.core _, fun cap held => ?_⟩
    have isIn := well.held cap held
    refine ⟨going, begun isIn.begun, isIn.deep, isIn.nested,
      fun now => isIn.markup (marked now), fun now => ?_, isIn.rule⟩
    have prev := isIn.place fun text => now (stays text)
    simp only [length_append, length_singleton]
    omega
  | opened =>
    rw [event] at spec
    refine ⟨lex_well well.core _, fun cap held => ?_⟩
    obtain ⟨cap₀, held₀, rfl⟩ := map_eq_some_iff.mp held
    have isIn := well.held cap₀ held₀
    refine ⟨going, by simp [spec.2], isIn.deep, isIn.nested, fun now => ?_, fun _ => ?_, isIn.rule⟩
    · simp [spec.2, Mode.inMarkup] at now
    · simp only [length_append, length_singleton]
      omega
  | markup =>
    rw [event] at spec
    refine ⟨lex_well well.core _, fun cap held => ?_⟩
    obtain ⟨cap₀, held₀, rfl⟩ := map_eq_some_iff.mp held
    have isIn := well.held cap₀ held₀
    refine ⟨going, fun now => ?_, isIn.deep, fun _ => rfl, fun _ => rfl, fun _ => ?_, isIn.rule⟩
    · have marked := spec.2
      rw [now] at marked
      cases marked
    have prev := isIn.place (by simp [spec.1])
    simp only [length_append, length_singleton]
    omega
  | notXML =>
    rw [event] at spec
    refine ⟨⟨fun _ => rfl, well.core.table, well.core.pending⟩, fun cap held => ?_⟩
    exact absurd spec (well.held cap held).begun
  | startTag | endTag =>
    rw [event] at spec
    first
    | refine startTag_well ⟨lex_well well.core _, fun cap held => ?_⟩ going spec.1
    | refine endTag_well ⟨lex_well well.core _, fun cap held => ?_⟩ going
    have isIn := well.held cap held
    refine ⟨going, by simp [spec.1], isIn.deep, isIn.nested, fun now => ?_, fun now => ?_,
      isIn.rule⟩
    · simp [spec.1, Mode.inMarkup] at now
    · exact absurd spec.1 now

structure Quiet (w : Writer S) : Prop where
  free : w.capture = none
  spent : w.core.done = true ∨ ∃ t, w.core.tbl = some t ∧ t ∈ tables ∧ t.repeats = false ∧
    (∀ i < t.rules.length, w.core.matched[i]? = some true) ∧ 1 ≤ w.core.depth

theorem lookup_spent {core : Core} {t : Table} (table : core.tbl = some t) (among : t ∈ tables)
    (single : t.repeats = false) (matched : ∀ i < t.rules.length, core.matched[i]? = some true)
    (names : Int → Option Key) (depth : Int) : (core.lookup names depth).1 = none := by
  cases got : (core.lookup names depth).1 with
  | none => rfl
  | some hit =>
    exfalso
    obtain ⟨i, r⟩ := hit
    obtain ⟨t₂, table₂, _, _, _, rule⟩ := lookup_some got
    rw [table] at table₂
    cases some.inj table₂
    obtain ⟨mem, place, _, fresh, _⟩ := findRule_some rule
    have bound := (List.getElem?_eq_some_iff.mp place).1
    have once := once_of_single _ among single r mem
    have unmatched := fresh once
    rw [matched i bound] at unmatched
    cases unmatched

theorem scan_quiet (quiet : Quiet w) (c : UInt8) :
    Quiet (scan edit maxText w c) ∧ (scan edit maxText w c).total = w.total ++ [c] := by
  obtain ⟨free, spent⟩ := quiet
  unfold scan
  by_cases done : w.core.done
  · rw [if_pos done]
    exact ⟨⟨free, .inl done⟩, by simp [Writer.total, Writer.held]⟩
  rw [if_neg done]
  obtain ⟨t, table, among, single, matched, deep⟩ := spent.resolve_left done
  simp only
  cases (w.core.lex.step c).2 with
  | quiet =>
    exact ⟨⟨free, .inr ⟨t, table, among, single, matched, deep⟩⟩,
      by simp [Writer.total, Writer.held]⟩
  | opened | markup =>
    exact ⟨⟨by simp [free], .inr ⟨t, table, among, single, matched, deep⟩⟩,
      by simp [Writer.total, Writer.held, free]⟩
  | notXML => exact ⟨⟨free, .inl rfl⟩, by simp [Writer.total, Writer.held]⟩
  | startTag =>
    unfold startTag
    have other : ¬w.core.depth + 1 = 1 := by omega
    simp only [free, isNone_none, and_true, if_neg other]
    split
    · rename_i names got
      refine ⟨⟨rfl, .inr ⟨t, table, among, single, matched, ?_⟩⟩,
        by simp [Writer.total, Writer.held, free]⟩
      have entered : w.core.depth ≤
          (Core.enter { w.core with lex := (w.core.lex.step c).1 }).depth := by
        unfold Core.enter
        simp only
        split <;> omega
      exact le_trans deep entered
    · rename_i i r names got
      have missed : ((Core.enter { w.core with lex := (w.core.lex.step c).1 }).lookup w.names
          (w.core.depth + 1)).1 = none :=
        @lookup_spent (Core.enter { w.core with lex := (w.core.lex.step c).1 }) t table among
          single matched w.names (w.core.depth + 1)
      rw [got] at missed
      cases missed
  | endTag =>
    unfold endTag
    simp only [free]
    refine ⟨⟨rfl, ?_⟩, by simp [Writer.total, Writer.held, free]⟩
    by_cases last : w.core.depth - 1 ≤ 0
    · exact .inl (by simp [Core.leave, last])
    refine .inr ⟨t, table, among, single, matched, ?_⟩
    show 1 ≤ w.core.depth - 1
    omega

theorem endWrite_quiet (quiet : Quiet w) : Quiet (endWrite maxText w) := by
  unfold endWrite
  rw [quiet.free]
  exact ⟨rfl, quiet.spent⟩

/-- The run with the cuts and the run without them agree on everything but the bytes that were
forwarded at the end of a call; inside an element, on the bytes that are held. -/
structure Synced (a b : Writer S) : Prop where
  core : a.core = b.core
  names : a.names 2 = b.names 2
  editor : a.editor = b.editor
  bytes : (a.capture = none ∧ b.capture = none ∧ a.out ++ a.seg = b.out ++ b.seg) ∨
    ∃ cap buf, a.capture = some cap ∧ b.capture = some { cap with buf := buf } ∧ a.out = b.out ∧
      cap.buf ++ a.seg = buf ++ b.seg

/-- The run with the cuts has let an element go that the other will forward as it came. -/
structure Ahead (maxText : Nat) (a b : Writer S) : Prop where
  core : a.core = b.core
  names : a.names 2 = b.names 2
  editor : a.editor = b.editor
  free : a.capture = none
  bytes : ∃ cap, b.capture = some cap ∧ a.out ++ a.seg = b.out ++ cap.buf ++ b.seg ∧
    cap.Doomed maxText b.core.lex.st (cap.buf.length + b.seg.length)

structure Finished (a b : Writer S) : Prop where
  first : Quiet a
  second : Quiet b
  bytes : a.total = b.total

def Together (maxText : Nat) (a b : Writer S) : Prop :=
  Synced a b ∨ Ahead maxText a b ∨ Finished a b

theorem Together.total (together : Together maxText a b) : a.total = b.total := by
  rcases together with synced | ahead | finished
  · rcases synced.bytes with ⟨freeA, freeB, eq⟩ | ⟨cap, buf, heldA, heldB, out, eq⟩
    · simpa [Writer.total, Writer.held, freeA, freeB] using eq
    · simp [Writer.total, Writer.held, heldA, heldB, out, eq]
  · obtain ⟨cap, held, eq, _⟩ := ahead.bytes
    simpa [Writer.total, Writer.held, ahead.free, held] using eq
  · exact finished.bytes

theorem together_endWrite (together : Together maxText a b) :
    Together maxText (endWrite maxText a) b := by
  rcases together with synced | ahead | finished
  · rcases synced.bytes with ⟨freeA, freeB, eq⟩ | ⟨cap, buf, heldA, heldB, out, eq⟩
    · refine .inl ?_
      unfold endWrite
      rw [freeA]
      exact ⟨synced.core, synced.names, synced.editor, .inl ⟨rfl, freeB, by simpa using eq⟩⟩
    have lengths : cap.buf.length + a.seg.length = buf.length + b.seg.length := by
      have counted := congrArg List.length eq
      simpa using counted
    unfold endWrite
    rw [heldA]
    simp only
    split
    · rename_i limits
      refine .inr (.inl ⟨synced.core, synced.names, synced.editor, rfl,
        { cap with buf := buf }, heldB, ?_, .inr ?_⟩)
      · simp [out, eq]
      · rw [← synced.core, ← lengths]
        exact limits
    · refine .inl ⟨synced.core, synced.names, synced.editor, .inr ⟨_, buf, rfl, heldB, out, ?_⟩⟩
      simpa using eq
  · refine .inr (.inl ?_)
    obtain ⟨cap, held, eq, doomed⟩ := ahead.bytes
    unfold endWrite
    rw [ahead.free]
    exact ⟨ahead.core, ahead.names, ahead.editor, rfl, cap, held, by simpa using eq, doomed⟩
  · refine .inr (.inr ⟨endWrite_quiet finished.first, finished.second, ?_⟩)
    rw [total_endWrite, finished.bytes]

theorem scan_synced (synced : Synced a b) (c : UInt8) :
    Synced (scan edit maxText a c) (scan edit maxText b c) := by
  obtain ⟨core, names, editor, bytes⟩ := synced
  unfold scan
  rw [core]
  by_cases done : b.core.done
  · rw [if_pos done, if_pos done]
    refine ⟨rfl, names, editor, ?_⟩
    rcases bytes with ⟨freeA, freeB, eq⟩ | ⟨cap, buf, heldA, heldB, out, eq⟩
    · exact .inl ⟨freeA, freeB, by simp [← append_assoc, eq]⟩
    · exact .inr ⟨cap, buf, heldA, heldB, out, by simp [← append_assoc, eq]⟩
  rw [if_neg done, if_neg done]
  simp only
  cases (b.core.lex.step c).2 with
  | quiet | notXML =>
    refine ⟨rfl, names, editor, ?_⟩
    rcases bytes with ⟨freeA, freeB, eq⟩ | ⟨cap, buf, heldA, heldB, out, eq⟩
    · exact .inl ⟨freeA, freeB, by simp [← append_assoc, eq]⟩
    · exact .inr ⟨cap, buf, heldA, heldB, out, by simp [← append_assoc, eq]⟩
  | opened =>
    refine ⟨rfl, names, editor, ?_⟩
    rcases bytes with ⟨freeA, freeB, eq⟩ | ⟨cap, buf, heldA, heldB, out, eq⟩
    · exact .inl ⟨by simp [freeA], by simp [freeB], by simp [← append_assoc, eq]⟩
    have lengths : cap.buf.length + a.seg.length = buf.length + b.seg.length := by
      have counted := congrArg List.length eq
      simpa using counted
    exact .inr ⟨_, buf, by rw [heldA]; rfl, by rw [heldB]; simp [lengths], out,
      by simp [← append_assoc, eq]⟩
  | markup =>
    refine ⟨rfl, names, editor, ?_⟩
    rcases bytes with ⟨freeA, freeB, eq⟩ | ⟨cap, buf, heldA, heldB, out, eq⟩
    · exact .inl ⟨by simp [freeA], by simp [freeB], by simp [← append_assoc, eq]⟩
    · exact .inr ⟨_, buf, by rw [heldA]; rfl, by rw [heldB]; rfl, out,
        by simp [← append_assoc, eq]⟩
  | startTag =>
    unfold startTag
    rcases bytes with ⟨freeA, freeB, eq⟩ | ⟨cap, buf, heldA, heldB, out, eq⟩
    · simp only [freeA, freeB, isNone_none, and_true]
      have forwarded : a.out ++ (a.seg ++ [c]) = b.out ++ (b.seg ++ [c]) := by
        simp [← append_assoc, eq]
      -- both look the tag up in the same table under the same names
      generalize (if b.core.depth + 1 = 1 then
        (Core.enter { b.core with lex := (b.core.lex.step c).1 }).root
        else Core.enter { b.core with lex := (b.core.lex.step c).1 }) = next
      obtain ⟨rules, opened⟩ := @lookup_congr next a.names b.names (b.core.depth + 1) names
      cases foundA : next.lookup a.names (b.core.depth + 1) with
      | mk ruleA =>
        cases foundB : next.lookup b.names (b.core.depth + 1) with
        | mk =>
          rw [foundA, foundB] at rules opened
          simp only at rules opened
          subst rules
          cases ruleA with
          | none => exact ⟨rfl, opened, editor, .inl ⟨rfl, rfl, forwarded⟩⟩
          | some =>
            exact ⟨rfl, opened, editor, .inr ⟨_, [], rfl, rfl, forwarded, rfl⟩⟩
    · simp only [heldA, heldB, isNone_some, Bool.false_eq_true, and_false, if_false]
      exact ⟨rfl, names, editor, .inr ⟨_, buf, rfl, rfl, out,
        by simp [← append_assoc, eq]⟩⟩
  | endTag =>
    unfold endTag
    rcases bytes with ⟨freeA, freeB, eq⟩ | ⟨cap, buf, heldA, heldB, out, eq⟩
    · simp only [freeA, freeB]
      exact ⟨rfl, names, editor, .inl ⟨rfl, rfl, by simp [← append_assoc, eq]⟩⟩
    have held : cap.buf ++ (a.seg ++ [c]) = buf ++ (b.seg ++ [c]) := by
      simp [← append_assoc, eq]
    have finishes : finish edit maxText a.editor cap (cap.buf ++ (a.seg ++ [c])) =
        finish edit maxText b.editor { cap with buf := buf } (buf ++ (b.seg ++ [c])) := by
      rw [held, editor]
      rfl
    simp only [heldA, heldB]
    split
    · exact ⟨rfl, names, by rw [finishes], .inl ⟨rfl, rfl, by rw [finishes, out]⟩⟩
    · exact ⟨rfl, names, editor, .inr ⟨cap, buf, rfl, rfl, out, held⟩⟩

theorem doomed_quiet {cap : Capture} {l : Lex} {c : UInt8} {total : Nat}
    (event : (l.step c).2 = .quiet) (markup : l.st.inMarkup → cap.mixed)
    (doomed : cap.Doomed maxText l.st total) : cap.Doomed maxText (l.step c).1.st (total + 1) := by
  have spec := step_spec l c
  rw [event] at spec
  obtain ⟨stays, back, _, _⟩ := spec
  rcases doomed with mixed | limits
  · exact .inl mixed
  unfold Capture.overLimits at limits
  by_cases text : l.st = .text
  · rw [if_pos text] at limits
    refine .inr ?_
    rw [Capture.overLimits, if_pos (stays text)]
    have passed := of_decide_eq_true limits
    exact decide_eq_true (by omega)
  rw [if_neg text] at limits
  by_cases now : (l.step c).1.st = .text
  · exact .inl (markup ((back now).resolve_left text))
  refine .inr ?_
  rw [Capture.overLimits, if_neg now]
  simp only [Bool.or_eq_true, decide_eq_true_eq] at limits ⊢
  omega

theorem finish_doomed {cap : Capture} {st : Mode} {held : Key} {c : UInt8} (editor : S)
    (isIn : st ≠ .text) (place : cap.lt ≤ held.length)
    (doomed : cap.Doomed maxText st held.length) :
    finish edit maxText editor cap (held ++ [c]) = (held ++ [c], editor) := by
  unfold finish
  simp only
  rw [if_pos]
  rcases doomed with mixed | limits
  · exact .inl mixed
  rw [Capture.overLimits, if_neg isIn] at limits
  simp only [Bool.or_eq_true, decide_eq_true_eq] at limits
  simp only [length_take, length_drop, length_append, length_singleton]
  omega

theorem exhausted_matched (well : CoreWell core) (exhausted : core.exhausted) :
    ∃ t, core.tbl = some t ∧ t ∈ tables ∧ t.repeats = false ∧
      ∀ i < t.rules.length, core.matched[i]? = some true := by
  unfold Core.exhausted at exhausted
  cases table : core.tbl with
  | none =>
    rw [table] at exhausted
    cases exhausted
  | some t =>
    rw [table] at exhausted
    simp only [Bool.and_eq_true, Bool.not_eq_true', decide_eq_true_eq] at exhausted
    obtain ⟨single, spent⟩ := exhausted
    obtain ⟨among, length⟩ := well.table t table
    refine ⟨t, rfl, among, single, fun i bound => ?_⟩
    have counted := well.pending t table single
    rw [spent] at counted
    have gone : false ∉ core.matched := count_eq_zero.mp (by omega)
    have isIn : i < core.matched.length := by omega
    rw [getElem?_eq_getElem isIn]
    cases here : core.matched[i] with
    | true => rfl
    | false => exact absurd (here ▸ getElem_mem isIn) gone

theorem scan_ahead (well : Well b) (ahead : Ahead maxText a b) (c : UInt8) :
    Together maxText (scan edit maxText a c) (scan edit maxText b c) := by
  obtain ⟨core, names, editor, free, cap, held, eq, doomed⟩ := ahead
  have isIn := well.held cap held
  obtain ⟨deep, below⟩ := isIn.deep
  have going := isIn.going
  have notStopped : b.core.stopNext = false := by
    cases stops : b.core.stopNext with
    | false => rfl
    | true =>
      have done := well.core.stops stops
      rw [going] at done
      cases done
  have grown : a.out ++ (a.seg ++ [c]) = b.out ++ cap.buf ++ (b.seg ++ [c]) := by
    simp only [← append_assoc, eq]
  have longer : cap.buf.length + (b.seg ++ [c]).length = cap.buf.length + b.seg.length + 1 := by
    simp only [length_append, length_singleton]
    omega
  have spec := step_spec b.core.lex c
  unfold scan
  rw [core, going]
  simp only [Bool.false_eq_true, if_false]
  cases event : (b.core.lex.step c).2 with
  | quiet =>
    refine .inr (.inl ⟨rfl, names, editor, free, cap, held, grown, ?_⟩)
    rw [longer]
    exact doomed_quiet event isIn.markup doomed
  | opened =>
    rw [event] at spec
    have text : b.core.lex.st = .text := spec.1.resolve_left isIn.begun
    refine .inr (.inl ⟨rfl, names, editor, by simp [free],
      { cap with lt := cap.buf.length + b.seg.length }, by simp [held], grown, ?_⟩)
    rcases doomed with mixed | limits
    · exact .inl mixed
    rw [Capture.overLimits, if_pos text] at limits
    refine .inr ?_
    rw [Capture.overLimits, if_neg (by simp [spec.2])]
    simp only [Bool.or_eq_true]
    exact .inl limits
  | markup =>
    exact .inr (.inl ⟨rfl, names, editor, by simp [free], { cap with mixed := true },
      by simp [held], grown, .inl rfl⟩)
  | notXML =>
    rw [event] at spec
    exact absurd spec isIn.begun
  | startTag =>
    refine .inr (.inl ?_)
    have other : ¬b.core.depth + 1 = 1 := by omega
    have missed : ((Core.enter { b.core with lex := (b.core.lex.step c).1 }).lookup a.names
        (b.core.depth + 1)).1 = none := lookup_nested well isIn names rfl
    unfold startTag
    simp only [free, held, isNone_none, isNone_some, and_true, if_neg other,
      Bool.false_eq_true, and_false, if_false]
    cases got : (Core.enter { b.core with lex := (b.core.lex.step c).1 }).lookup a.names
        (b.core.depth + 1) with
    | mk rule opened =>
      rw [got] at missed
      simp only at missed
      subst missed
      have outer : opened 2 = b.names 2 := by
        have kept : ((Core.enter { b.core with lex := (b.core.lex.step c).1 }).lookup a.names
            (b.core.depth + 1)).2 2 = a.names 2 := lookup_other (by omega)
        rw [got] at kept
        exact kept.trans names
      exact ⟨rfl, outer, editor, rfl, _, rfl, grown, .inl rfl⟩
  | endTag =>
    rw [event] at spec
    unfold endTag
    simp only [free, held]
    by_cases closes : b.core.depth = cap.depth
    · have all : finish edit maxText b.editor cap (cap.buf ++ (b.seg ++ [c])) =
          (cap.buf ++ (b.seg ++ [c]), b.editor) := by
        rw [← append_assoc]
        refine finish_doomed b.editor spec.2 ?_ ?_
        · rw [length_append]
          exact isIn.place spec.2
        · rw [length_append]
          exact doomed
      simp only [if_pos closes, all]
      have last : ¬b.core.depth - 1 ≤ 0 := by omega
      cases exhausted : Core.exhausted { b.core with lex := (b.core.lex.step c).1 } with
      | false =>
        refine .inl ⟨?_, names, editor, .inl ⟨rfl, rfl, ?_⟩⟩
        · simp [Core.leave, notStopped]
        · simp [grown]
      | true =>
        obtain ⟨t, table, among, single, matched⟩ :=
          exhausted_matched (lex_well well.core _) exhausted
        refine .inr (.inr ⟨⟨rfl, .inr ⟨t, table, among, single, matched, ?_⟩⟩, ⟨rfl, .inl ?_⟩, ?_⟩)
        · show 1 ≤ b.core.depth - 1
          omega
        · simp [Core.leave]
        · simp [Writer.total, Writer.held, grown]
    · simp only [if_neg closes]
      refine .inr (.inl ⟨?_, names, editor, rfl, cap, rfl, grown, .inl (isIn.nested closes)⟩)
      simp [Core.leave, notStopped]

theorem scan_together (well : Well b) (together : Together maxText a b) (c : UInt8) :
    Together maxText (scan edit maxText a c) (scan edit maxText b c) := by
  rcases together with synced | ahead | finished
  · exact .inl (scan_synced synced c)
  · exact scan_ahead well ahead c
  obtain ⟨quietA, totalA⟩ := @scan_quiet _ edit maxText _ finished.first c
  obtain ⟨quietB, totalB⟩ := @scan_quiet _ edit maxText _ finished.second c
  exact .inr (.inr ⟨quietA, quietB, by rw [totalA, totalB, finished.bytes]⟩)

theorem scans_together (well : Well b) (together : Together maxText a b) (p : Key) :
    Well (p.foldl (scan edit maxText) b) ∧
      Together maxText (p.foldl (scan edit maxText) a) (p.foldl (scan edit maxText) b) := by
  induction p generalizing a b with
  | nil => exact ⟨well, together⟩
  | cons c rest ih => exact ih (scan_well well c) (scan_together well together c)

theorem writes_together (well : Well b) (together : Together maxText a b) (calls : List Key) :
    Together maxText (calls.foldl (write edit maxText) a)
      (calls.flatten.foldl (scan edit maxText) b) := by
  induction calls generalizing a b with
  | nil => exact together
  | cons p rest ih =>
    obtain ⟨well₂, together₂⟩ := @scans_together _ edit maxText _ _ well together p
    rw [foldl_cons, flatten_cons, foldl_append]
    exact ih well₂ (together_endWrite together₂)

theorem init_well (editor : S) : Well ({ editor := editor } : Writer S) :=
  ⟨⟨nofun, nofun, nofun⟩, nofun⟩

theorem init_together (editor : S) :
    Together maxText ({ editor := editor } : Writer S) { editor := editor } :=
  .inl ⟨rfl, rfl, rfl, .inl ⟨rfl, rfl, rfl⟩⟩

/-- The bytes produced do not depend on how the document is cut into calls, and are the document
when the editor changes nothing. -/
theorem rewrite_split_independent (edit : Editor S) (maxText : Nat) (editor : S)
    (calls : List Key) :
    rewrite edit maxText editor calls = rewrite edit maxText editor [calls.flatten] ∧
      ((∀ s f t, (edit s f t).1 = t) → rewrite edit maxText editor calls = calls.flatten) := by
  constructor
  · rw [rewrite_eq_total, rewrite_eq_total, foldl_cons, foldl_nil, write, total_endWrite]
    exact (writes_together (init_well editor) (init_together editor) calls).total
  intro eq
  rw [rewrite_eq_total, total_writes eq]
  rfl

/-- A listing cut inside the bucket's name, whose element is held across the cut. -/
theorem cut_name_unchanged : (write (fun (s : Unit) _ t => (t, s)) 64 { editor := () }
        (bytesOf "<ListBucketResult><Name>a")).capture.isSome = true ∧
      rewrite (fun (s : Unit) _ t => (t, s)) 64 ()
          [bytesOf "<ListBucketResult><Name>a", bytesOf "b</Name></ListBucketResult>"] =
        bytesOf "<ListBucketResult><Name>a" ++ bytesOf "b</Name></ListBucketResult>" := by
  refine ⟨by decide +kernel, ?_⟩
  have eq := (rewrite_split_independent (fun (s : Unit) _ t => (t, s)) 64 ()
    [bytesOf "<ListBucketResult><Name>a", bytesOf "b</Name></ListBucketResult>"]).2 fun _ _ _ => rfl
  rw [eq]
  simp

end Shunt.Xmlrw
