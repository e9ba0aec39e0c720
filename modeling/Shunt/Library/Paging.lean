/-
Lists in strictly ascending order of a name, their merge, and listings handed out page
by page, each page with the token that asks for the next one.
-/

import Mathlib.Data.List.Sort

namespace Shunt.Library

open List

section

variable {α κ : Type} [LinearOrder κ]

def Ascending (name : α → κ) (items : List α) : Prop := items.Pairwise fun a b => name a < name b

variable {name : α → κ} {xs ys : List α} {x y : α}

theorem Ascending.filter (p : α → Bool) (sorted : Ascending name xs) :
    Ascending name (xs.filter p) := List.Pairwise.filter p sorted

theorem Ascending.ext (left : Ascending name xs) (right : Ascending name ys)
    (eq : ∀ x, x ∈ xs ↔ x ∈ ys) : xs = ys := by
  have : Std.Antisymm fun a b : α => name a < name b :=
    ⟨fun a b less more => absurd less (lt_asymm more)⟩
  have : Std.Irrefl fun a b : α => name a < name b := ⟨fun a => lt_irrefl (name a)⟩
  exact List.Pairwise.eq_of_mem_iff left right eq

def above (name : α → κ) (last : κ) (items : List α) : List α :=
  items.filter fun x => decide (last < name x)

@[simp] theorem mem_above {last : κ} : x ∈ above name last xs ↔ x ∈ xs ∧ last < name x := by
  simp [above]

theorem Ascending.above (last : κ) (sorted : Ascending name xs) :
    Ascending name (above name last xs) := sorted.filter _

theorem above_above {last later : κ} (forward : last ≤ later) :
    above name later (above name last xs) = above name later xs := by
  rw [above, above, List.filter_filter]
  refine filter_congr fun x _ => ?_
  by_cases beyond : later < name x
  · simp [beyond, lt_of_le_of_lt forward beyond]
  · simp [beyond]

theorem Ascending.tail_eq (sorted : Ascending name (x :: xs)) :
    Library.above name (name x) (x :: xs) = xs := by
  obtain ⟨less, -⟩ := pairwise_cons.mp sorted
  rw [Library.above, filter_cons_of_neg (by simp)]
  exact filter_eq_self.mpr fun y mem => by simpa using less y mem

theorem Ascending.drop_eq {prev post : List α} (sorted : Ascending name (prev ++ x :: post)) :
    Library.above name (name x) (prev ++ x :: post) = post := by
  obtain ⟨-, rest, cross⟩ := pairwise_append.mp sorted
  rw [Library.above, filter_append]
  have none : prev.filter (fun y => decide (name x < name y)) = [] := by
    refine filter_eq_nil_iff.mpr fun y mem => ?_
    simpa using le_of_lt (cross y mem x mem_cons_self)
  rw [none, nil_append]
  exact Ascending.tail_eq rest

theorem Ascending.above_eq_self (sorted : Ascending name (x :: xs)) {last : κ} :
    Library.above name last (x :: xs) = x :: xs ↔ last < name x := by
  constructor
  · intro eq
    have mem : x ∈ Library.above name last (x :: xs) := by
      rw [eq]
      exact mem_cons_self
    exact (mem_above.mp mem).2
  intro beyond
  refine filter_eq_self.mpr fun y mem => ?_
  rcases mem_cons.mp mem with rfl | later
  · simpa using beyond
  · simpa using beyond.trans ((pairwise_cons.mp sorted).1 y later)

theorem Ascending.above_suffix (sorted : Ascending name xs) (last : κ) :
    Library.above name last xs <:+ xs := by
  induction xs with
  | nil => exact suffix_rfl
  | cons x xs ih =>
    by_cases beyond : last < name x
    · exact ⟨[], sorted.above_eq_self.mpr beyond⟩
    · rw [Library.above, filter_cons_of_neg (by simpa using beyond)]
      exact (ih (pairwise_cons.mp sorted).2).trans (suffix_cons x xs)

def merge (name : α → κ) : List α → List α → List α
  | [], ys => ys
  | x :: xs, [] => x :: xs
  | x :: xs, y :: ys =>
    if name x < name y then x :: merge name xs (y :: ys)
    else if name y < name x then y :: merge name (x :: xs) ys
    else x :: merge name xs ys
  termination_by xs ys => xs.length + ys.length

@[simp] theorem merge_nil_left : merge name [] ys = ys := by rw [merge.eq_def]

@[simp] theorem merge_nil_right : merge name xs [] = xs := by
  cases xs with
  | nil | cons => rw [merge.eq_def]

theorem merge_eq_nil : merge name xs ys = [] ↔ xs = [] ∧ ys = [] := by
  cases xs with
  | nil => simp
  | cons =>
    cases ys with
    | nil => simp
    | cons =>
      rw [merge]
      split_ifs <;> simp

theorem head?_merge : (merge name xs ys).head? =
    match xs.head?, ys.head? with
    | none, other => other
    | some x, none => some x
    | some x, some y => if name y < name x then some y else some x := by
  cases xs with
  | nil => simp
  | cons x =>
    cases ys with
    | nil => simp
    | cons y =>
      rw [merge]
      by_cases less : name x < name y
      · simp [less, lt_asymm less]
      by_cases more : name y < name x
      · simp [less, more]
      · simp [less, more]

theorem mem_merge (left : Ascending name xs) (right : Ascending name ys) {z : α} :
    z ∈ merge name xs ys ↔ z ∈ xs ∨ z ∈ ys ∧ ∀ x ∈ xs, name x ≠ name z := by
  induction xs, ys using merge.induct name with
  | case1 | case2 => simp
  | case3 x xs y ys less ih =>
    obtain ⟨lessXs, sortedXs⟩ := pairwise_cons.mp left
    obtain ⟨lessYs, -⟩ := pairwise_cons.mp right
    rw [merge, if_pos less, mem_cons, ih sortedXs right, mem_cons (l := xs), forall_mem_cons]
    have beyond : z ∈ y :: ys → name x ≠ name z := by
      intro isIn
      rcases mem_cons.mp isIn with rfl | later
      · exact ne_of_lt less
      · exact ne_of_lt (less.trans (lessYs z later))
    tauto
  | case4 x xs y ys notLess more ih =>
    obtain ⟨lessXs, -⟩ := pairwise_cons.mp left
    obtain ⟨lessYs, sortedYs⟩ := pairwise_cons.mp right
    rw [merge, if_neg notLess, if_pos more, mem_cons, ih left sortedYs, mem_cons (l := ys)]
    have beyond : z = y → ∀ w ∈ x :: xs, name w ≠ name z := by
      rintro rfl w isIn
      rcases mem_cons.mp isIn with rfl | later
      · exact ne_of_gt more
      · exact ne_of_gt (more.trans (lessXs w later))
    tauto
  | case5 x xs y ys notLess notMore ih =>
    obtain ⟨lessXs, sortedXs⟩ := pairwise_cons.mp left
    obtain ⟨lessYs, sortedYs⟩ := pairwise_cons.mp right
    have eq : name x = name y := le_antisymm (not_lt.mp notMore) (not_lt.mp notLess)
    rw [merge, if_neg notLess, if_neg notMore, mem_cons, ih sortedXs sortedYs,
      mem_cons (l := ys), mem_cons]
    have beyond : z ∈ ys → name x ≠ name z := fun later => by
      rw [eq]
      exact ne_of_lt (lessYs z later)
    simp only [forall_mem_cons]
    constructor
    · rintro (rfl | isIn | ⟨isIn, away⟩)
      · exact .inl (.inl rfl)
      · exact .inl (.inr isIn)
      · exact .inr ⟨.inr isIn, beyond isIn, away⟩
    rintro ((rfl | isIn) | ⟨rfl | isIn, here, away⟩)
    · exact .inl rfl
    · exact .inr (.inl isIn)
    · exact absurd eq here
    · exact .inr (.inr ⟨isIn, away⟩)

theorem merge_ascending (left : Ascending name xs) (right : Ascending name ys) :
    Ascending name (merge name xs ys) := by
  induction xs, ys using merge.induct name with
  | case1 => simpa using right
  | case2 => simpa using left
  | case3 x xs y ys less ih =>
    obtain ⟨lessXs, sortedXs⟩ := pairwise_cons.mp left
    obtain ⟨lessYs, -⟩ := pairwise_cons.mp right
    rw [merge, if_pos less]
    refine pairwise_cons.mpr ⟨fun z isIn => ?_, ih sortedXs right⟩
    rcases (mem_merge sortedXs right).mp isIn with here | ⟨there, -⟩
    · exact lessXs z here
    rcases mem_cons.mp there with rfl | later
    · exact less
    · exact less.trans (lessYs z later)
  | case4 x xs y ys notLess more ih =>
    obtain ⟨lessXs, -⟩ := pairwise_cons.mp left
    obtain ⟨lessYs, sortedYs⟩ := pairwise_cons.mp right
    rw [merge, if_neg notLess, if_pos more]
    refine pairwise_cons.mpr ⟨fun z isIn => ?_, ih left sortedYs⟩
    rcases (mem_merge left sortedYs).mp isIn with here | ⟨there, -⟩
    · rcases mem_cons.mp here with rfl | later
      · exact more
      · exact more.trans (lessXs z later)
    · exact lessYs z there
  | case5 x xs y ys notLess notMore ih =>
    obtain ⟨lessXs, sortedXs⟩ := pairwise_cons.mp left
    obtain ⟨lessYs, sortedYs⟩ := pairwise_cons.mp right
    have eq : name x = name y := le_antisymm (not_lt.mp notMore) (not_lt.mp notLess)
    rw [merge, if_neg notLess, if_neg notMore]
    refine pairwise_cons.mpr ⟨fun z isIn => ?_, ih sortedXs sortedYs⟩
    rcases (mem_merge sortedXs sortedYs).mp isIn with here | ⟨there, -⟩
    · exact lessXs z here
    · rw [eq]
      exact lessYs z there

theorem above_merge (left : Ascending name xs) (right : Ascending name ys) (last : κ) :
    above name last (merge name xs ys) = merge name (above name last xs) (above name last ys) := by
  refine ((merge_ascending left right).above last).ext
    (merge_ascending (left.above last) (right.above last)) fun z => ?_
  rw [mem_above, mem_merge left right, mem_merge (left.above last) (right.above last)]
  simp only [mem_above]
  constructor
  · rintro ⟨here | ⟨there, away⟩, beyond⟩
    · exact .inl ⟨here, beyond⟩
    · exact .inr ⟨⟨there, beyond⟩, fun x isIn => away x isIn.1⟩
  rintro (⟨here, beyond⟩ | ⟨⟨there, beyond⟩, away⟩)
  · exact ⟨.inl here, beyond⟩
  · refine ⟨.inr ⟨there, fun x isIn eq => ?_⟩, beyond⟩
    exact away x ⟨isIn, by rw [eq]; exact beyond⟩ eq

def mergeAll (name : α → κ) (lists : List (List α)) : List α := lists.foldr (merge name) []

variable {lists : List (List α)}

theorem mergeAll_ascending (sorted : ∀ l ∈ lists, Ascending name l) :
    Ascending name (mergeAll name lists) := by
  induction lists with
  | nil => exact List.Pairwise.nil
  | cons l rest ih =>
    obtain ⟨first, others⟩ := forall_mem_cons.mp sorted
    exact merge_ascending first (ih others)

theorem exists_of_mem_mergeAll (sorted : ∀ l ∈ lists, Ascending name l)
    (mem : x ∈ mergeAll name lists) : ∃ l ∈ lists, x ∈ l := by
  induction lists with
  | nil => cases mem
  | cons l rest ih =>
    obtain ⟨first, others⟩ := forall_mem_cons.mp sorted
    rcases (mem_merge first (mergeAll_ascending others)).mp mem with here | ⟨there, -⟩
    · exact ⟨l, mem_cons_self, here⟩
    · obtain ⟨l', isIn, got⟩ := ih others there
      exact ⟨l', mem_cons_of_mem l isIn, got⟩

theorem mergeAll_eq_nil : mergeAll name lists = [] ↔ ∀ l ∈ lists, l = [] := by
  induction lists with
  | nil => simp [mergeAll]
  | cons l rest ih =>
    change merge name l (mergeAll name rest) = [] ↔ _
    rw [merge_eq_nil, ih, forall_mem_cons]

theorem exists_named_mergeAll (sorted : ∀ l ∈ lists, Ascending name l) {l : List α}
    (isIn : l ∈ lists) (mem : x ∈ l) : ∃ y ∈ mergeAll name lists, name y = name x := by
  induction lists with
  | nil => cases isIn
  | cons first rest ih =>
    obtain ⟨sortedFirst, others⟩ := forall_mem_cons.mp sorted
    have split := fun z : α => mem_merge (z := z) sortedFirst (mergeAll_ascending others)
    rcases mem_cons.mp isIn with rfl | later
    · exact ⟨x, (split x).mpr (.inl mem), rfl⟩
    obtain ⟨y, got, named⟩ := ih others later
    by_cases held : ∃ w ∈ first, name w = name y
    · obtain ⟨w, inFirst, eq⟩ := held
      exact ⟨w, (split w).mpr (.inl inFirst), eq.trans named⟩
    · push Not at held
      exact ⟨y, (split y).mpr (.inr ⟨got, held⟩), named⟩

theorem above_mergeAll (sorted : ∀ l ∈ lists, Ascending name l) (last : κ) :
    above name last (mergeAll name lists) = mergeAll name (lists.map (above name last)) := by
  induction lists with
  | nil => rfl
  | cons l rest ih =>
    obtain ⟨first, others⟩ := forall_mem_cons.mp sorted
    change above name last (merge name l (mergeAll name rest)) = merge name _ (mergeAll name _)
    rw [above_merge first (mergeAll_ascending others), ih others]

end

/-- One page of a listing: what it shows, whether there is more, and the token that asks
for it. -/
structure Page (α τ : Type) where
  items : List α
  truncated : Bool
  next : Option τ

section

variable {α τ ε : Type}

/-- The pages a client gets that follows the tokens from a request on until a page is the
last. -/
inductive Followed (answer : Option τ → Except ε (Page α τ)) : Option τ → List (Page α τ) → Prop
    where
  | last {token : Option τ} {page : Page α τ} (told : answer token = .ok page)
      (all : page.truncated = false) : Followed answer token [page]
  | more {token : Option τ} {page : Page α τ} {next : τ} {later : List (Page α τ)}
      (told : answer token = .ok page) (cut : page.truncated = true)
      (handed : page.next = some next) (followed : Followed answer (some next) later) :
      Followed answer token (page :: later)

def shown (pages : List (Page α τ)) : List α := pages.flatMap Page.items

/-- A page that is cut exactly when something of the listing is still to come. -/
def TruncatedWhenMore (pages : List (Page α τ)) : Prop :=
  ∀ prev page post, pages = prev ++ page :: post →
    (page.truncated = true ↔ shown post ≠ [])

theorem followed_whole {answer : Option τ → Except ε (Page α τ)} {holds : Option τ → Prop}
    (left : Option τ → List α) {size : Nat} (pos : 0 < size)
    (step : ∀ token, holds token → ∃ page, answer token = .ok page ∧
      page.items = (left token).take size ∧ (page.truncated ↔ size < (left token).length) ∧
      (size < (left token).length → ∃ next, page.next = some next ∧ holds (some next) ∧
        left (some next) = (left token).drop size)) (token : Option τ) (start : holds token) :
    ∃ pages, Followed answer token pages ∧ shown pages = left token ∧ TruncatedWhenMore pages := by
  induction bound : (left token).length using Nat.strong_induction_on generalizing token with
  | _ length ih =>
    obtain ⟨page, told, items, cut, resume⟩ := step token start
    by_cases more : size < (left token).length
    · obtain ⟨next, handed, holdsNext, leftNext⟩ := resume more
      have shorter : (left (some next)).length < length := by
        rw [leftNext, length_drop]
        omega
      obtain ⟨later, followed, all, truncated⟩ := ih _ shorter (some next) holdsNext rfl
      refine ⟨page :: later, .more told (cut.mpr more) handed followed, ?_, ?_⟩
      · rw [shown, flatMap_cons, ← shown, all, items, leftNext, take_append_drop]
      intro prev other post split
      cases prev with
      | nil =>
        simp only [nil_append, List.cons.injEq] at split
        obtain ⟨rfl, rfl⟩ := split
        rw [all, leftNext, cut]
        simp [more]
      | cons first rest =>
        simp only [cons_append, List.cons.injEq] at split
        exact truncated rest other post split.2
    · have all : page.truncated = false := by
        rw [Bool.eq_false_iff]
        exact fun truncated => more (cut.mp truncated)
      refine ⟨[page], .last told all, ?_, ?_⟩
      · rw [shown, flatMap_singleton, items, take_of_length_le (not_lt.mp more)]
      intro prev other post split
      cases prev with
      | nil =>
        simp only [nil_append, List.cons.injEq] at split
        obtain ⟨rfl, rfl⟩ := split
        simp [all, shown]
      | cons => simp at split

variable {answer : Option τ → Except ε (Page α τ)} {holds : Option τ → Prop}
  {left : Option τ → List α} {size : Nat} {clear : α → α → Prop} {items : List α}

/-- Pages of a size are cut only between items a listing can resume between. -/
def ClearCuts (clear : α → α → Prop) (size : Nat) (items : List α) : Prop :=
  ∀ i x y, items[i]? = some x → items[i + 1]? = some y → size ∣ i + 1 → clear x y

theorem clearCuts_short (short : items.length ≤ size) : ClearCuts clear size items := by
  intro i x y _ next multiple
  have isIn := (List.getElem?_eq_some_iff.mp next).1
  have large := Nat.le_of_dvd (Nat.succ_pos i) multiple
  omega

theorem clearCuts_drop (pos : 0 < size) {x y : α} (last : items[size - 1]? = some x)
    (next : items[size]? = some y) :
    ClearCuts clear size items ↔ clear x y ∧ ClearCuts clear size (items.drop size) := by
  have back : size - 1 + 1 = size := Nat.sub_add_cancel pos
  constructor
  · intro cuts
    refine ⟨cuts (size - 1) x y last (by rw [back]; exact next) ⟨1, by omega⟩, ?_⟩
    intro i u v here there multiple
    rw [getElem?_drop] at here there
    refine cuts (size + i) u v here there ?_
    rw [Nat.add_assoc]
    exact (Nat.dvd_add_right (Nat.dvd_refl size)).mpr multiple
  rintro ⟨first, later⟩ i u v here there multiple
  by_cases at_ : i + 1 = size
  · have eq : i = size - 1 := by omega
    subst eq
    rw [at_, next] at there
    rw [last] at here
    cases here
    cases there
    exact first
  have large := Nat.le_of_dvd (Nat.succ_pos i) multiple
  have split : i = size + (i - size) := by omega
  refine later (i - size) u v ?_ ?_ ?_
  · rw [getElem?_drop, ← split]
    exact here
  · rw [getElem?_drop, ← Nat.add_assoc, ← split]
    exact there
  · rw [split, Nat.add_assoc] at multiple
    exact (Nat.dvd_add_right (Nat.dvd_refl size)).mp multiple

/-- A page that is the next stretch of what is left; the one after it goes on at the cut,
or further on when it is not a clear one. -/
def Stretches (answer : Option τ → Except ε (Page α τ)) (holds : Option τ → Prop)
    (left : Option τ → List α) (size : Nat) (clear : α → α → Prop) : Prop :=
  ∀ token, holds token → ∃ page, answer token = .ok page ∧
    page.items = (left token).take size ∧
    (page.truncated = true ↔ size < (left token).length) ∧
    ∀ x y, (left token)[size - 1]? = some x → (left token)[size]? = some y →
      ∃ next, page.next = some next ∧ holds (some next) ∧
        left (some next) <:+ (left token).drop size ∧
        (left (some next) = (left token).drop size ↔ clear x y)

theorem exists_cut (pos : 0 < size) (more : size < items.length) :
    ∃ x y, items[size - 1]? = some x ∧ items[size]? = some y :=
  ⟨items[size - 1], items[size], getElem?_eq_getElem (by omega),
    getElem?_eq_getElem more⟩

theorem Stretches.sublist (stretches : Stretches answer holds left size clear)
    (pos : 0 < size) {token : Option τ} {pages : List (Page α τ)}
    (followed : Followed answer token pages) (start : holds token) :
    (shown pages).Sublist (left token) := by
  induction followed with
  | last told =>
    obtain ⟨page', told', items, -⟩ := stretches _ start
    rw [told] at told'
    cases told'
    rw [shown, flatMap_singleton, items]
    exact take_sublist _ _
  | more told cut handed followed ih =>
    obtain ⟨page', told', items, truncated, resume⟩ := stretches _ start
    rw [told] at told'
    cases told'
    obtain ⟨x, y, last, next⟩ := exists_cut pos (truncated.mp cut)
    obtain ⟨next', handed', holdsNext, further, -⟩ := resume x y last next
    rw [handed] at handed'
    cases handed'
    rw [shown, flatMap_cons, ← shown, items]
    have later := (ih holdsNext).trans further.sublist
    exact ((List.Sublist.refl _).append later).trans (by rw [take_append_drop])

theorem Stretches.whole_iff (stretches : Stretches answer holds left size clear)
    (pos : 0 < size) {token : Option τ} (start : holds token) :
    (∃ pages, Followed answer token pages ∧ shown pages = left token) ↔
      ClearCuts clear size (left token) := by
  constructor
  · rintro ⟨pages, followed, all⟩
    induction followed with
    | last told all' =>
      obtain ⟨page', told', -, truncated, -⟩ := stretches _ start
      rw [told] at told'
      cases told'
      refine clearCuts_short (not_lt.mp fun more => ?_)
      rw [truncated.mpr more] at all'
      cases all'
    | more told cut handed followed ih =>
      obtain ⟨page', told', items, truncated, resume⟩ := stretches _ start
      rw [told] at told'
      cases told'
      obtain ⟨x, y, last, next⟩ := exists_cut pos (truncated.mp cut)
      obtain ⟨next', handed', holdsNext, further, clearly⟩ := resume x y last next
      rw [handed] at handed'
      cases handed'
      rw [shown, flatMap_cons, ← shown, items] at all
      have rest := append_cancel_left (all.trans (take_append_drop size _).symm)
      -- what is shown later is all of the rest, so nothing was passed over
      have long := (stretches.sublist pos followed holdsNext).length_le
      have eq := further.eq_of_length (le_antisymm further.length_le (by rwa [← rest]))
      rw [clearCuts_drop pos last next, ← eq]
      exact ⟨clearly.mp eq, ih holdsNext (rest.trans eq.symm)⟩
  · intro cuts
    have clearly : ∀ token, holds token ∧ ClearCuts clear size (left token) → ∃ page,
        answer token = .ok page ∧ page.items = (left token).take size ∧
        (page.truncated ↔ size < (left token).length) ∧
        (size < (left token).length → ∃ next, page.next = some next ∧
          (holds (some next) ∧ ClearCuts clear size (left (some next))) ∧
          left (some next) = (left token).drop size) := by
      rintro token ⟨held, cuts⟩
      obtain ⟨page, told, items, truncated, resume⟩ := stretches token held
      refine ⟨page, told, items, truncated, fun more => ?_⟩
      obtain ⟨x, y, last, next⟩ := exists_cut pos more
      obtain ⟨handed, given, holdsNext, -, eq⟩ := resume x y last next
      obtain ⟨first, later⟩ := (clearCuts_drop pos last next).mp cuts
      have rest := eq.mpr first
      exact ⟨handed, given, ⟨holdsNext, by rw [rest]; exact later⟩, rest⟩
    obtain ⟨pages, followed, all, -⟩ := followed_whole left pos clearly token ⟨start, cuts⟩
    exact ⟨pages, followed, all⟩

end

end Shunt.Library
