import CodeHygiene.Measure.Literal
import CodeHygiene.Proofs.Commented
import CodeHygiene.Proofs.Denotation

/-!
String literals that are repeated.

Proved:
(1) The expression for literals stands for a quote, what may stand between quotes, and the same quote again
    (`begins_pattern_iff`); a match that it has goes around the value (`opens_of_mem`).
(2) So the literals of a text are what is read from left to right without overlap (`reads_literals`), and there is one
    such reading (`Reads.unique`).
(3) To count a literal more is to count one more of its value, and the first of each value keeps its place
    (`Counted.count`); so after a text every value has its first place and its exact number (`counted_literals`).
(4) What is reported are the values that are long enough, not blank and too many, in the order in which they first
    stand, so that the lines never decrease (`repeated_literals_are_grouped`).
-/

namespace CodeHygiene.Measure.Literal

open Regex

/-! ## Literals -/

/-- What may stand between two quotes: characters other than the quote, a backslash and a line feed, and backslashes that
each take the next character with them, which is no line feed. -/
inductive Quoted (quote : Char) : List Char → Prop
  | nil : Quoted quote []
  | plain {c : Char} {rest : List Char} : c ≠ quote → c ≠ '\\' → c ≠ '\n' → Quoted quote rest → Quoted quote (c :: rest)
  | escaped {c : Char} {rest : List Char} : c ≠ '\n' → Quoted quote rest → Quoted quote ('\\' :: c :: rest)

/-- A text opens with a literal, its value between two equal quotes, and goes on behind it. -/
def Opens (text value rest : List Char) : Prop :=
  ∃ quote ∈ ['"', '\''], Quoted quote value ∧ text = quote :: (value ++ quote :: rest)

/-- The literals of a text from left to right, each with its offset: where one opens, the reading goes on behind it,
elsewhere behind the next character. -/
inductive Reads : Nat → List Char → List (Nat × List Char) → Prop
  | done {offset : Nat} : Reads offset [] []
  | literal {offset : Nat} {text value rest : List Char} {found : List (Nat × List Char)} :
      Opens text value rest → Reads (offset + value.length + 2) rest found → Reads offset text ((offset, value) :: found)
  | skip {offset : Nat} {c : Char} {text : List Char} {found : List (Nat × List Char)} :
      (∀ value rest, ¬ Opens (c :: text) value rest) → Reads (offset + 1) text found → Reads offset (c :: text) found

/-- A value ends at the first quote that no backslash takes. -/
theorem Quoted.unique {quote : Char} (own : quote ≠ '\\') {value value' rest rest' : List Char} (h : Quoted quote value)
    (h' : Quoted quote value') (same : value ++ quote :: rest = value' ++ quote :: rest') :
    value = value' ∧ rest = rest' := by
  induction h generalizing value' with
  | nil =>
    cases h' with
    | nil => exact ⟨rfl, (List.cons.inj same).2⟩
    | plain ne => exact absurd (List.cons.inj same).1.symm ne
    | escaped => exact absurd (List.cons.inj same).1 own
  | plain ne noEscape _ _ ih =>
    cases h' with
    | nil => exact absurd (List.cons.inj same).1 ne
    | plain _ _ _ others =>
      obtain ⟨rfl, more⟩ := List.cons.inj same
      obtain ⟨rfl, behind⟩ := ih others more
      exact ⟨rfl, behind⟩
    | escaped => exact absurd (List.cons.inj same).1 noEscape
  | escaped _ _ ih =>
    cases h' with
    | nil => exact absurd (List.cons.inj same).1.symm own
    | plain _ noEscape => exact absurd (List.cons.inj same).1.symm noEscape
    | escaped _ others =>
      obtain ⟨rfl, more⟩ := List.cons.inj (List.cons.inj same).2
      obtain ⟨rfl, behind⟩ := ih others more
      exact ⟨rfl, behind⟩

theorem Opens.unique {text value value' rest rest' : List Char} (h : Opens text value rest)
    (h' : Opens text value' rest') : value = value' ∧ rest = rest' := by
  obtain ⟨quote, mem, quoted, rfl⟩ := h
  obtain ⟨quote', -, quoted', same⟩ := h'
  obtain ⟨rfl, same⟩ := List.cons.inj same
  have own : quote ≠ '\\' := by
    rintro rfl
    revert mem
    decide
  exact quoted.unique own quoted' same

/-- There is one reading of a text. -/
theorem Reads.unique {offset : Nat} {text : List Char} {found found' : List (Nat × List Char)} (h : Reads offset text found)
    (h' : Reads offset text found') : found = found' := by
  induction h generalizing found' with
  | done =>
    cases h' with
    | done => rfl
    | literal opens =>
      obtain ⟨_, _, _, no⟩ := opens
      cases no
  | literal opens _ ih =>
    cases h' with
    | done =>
      obtain ⟨_, _, _, no⟩ := opens
      cases no
    | literal opens' more =>
      obtain ⟨rfl, rfl⟩ := opens.unique opens'
      rw [ih more]
    | skip none => exact absurd opens (none _ _)
  | skip none _ ih =>
    cases h' with
    | literal opens => exact absurd opens (none _ _)
    | skip _ more => exact ih more

/-- The literals stand one behind the other. -/
theorem Reads.ordered {offset : Nat} {text : List Char} {found : List (Nat × List Char)} (h : Reads offset text found) :
    (∀ x ∈ found, offset ≤ x.1) ∧ found.Pairwise fun x y => x.1 < y.1 := by
  induction h with
  | done => exact ⟨nofun, .nil⟩
  | literal _ _ ih =>
    obtain ⟨behind, order⟩ := ih
    refine ⟨?_, List.pairwise_cons.mpr ⟨?_, order⟩⟩
    · intro x mem
      rcases List.mem_cons.mp mem with rfl | later
      · exact Nat.le_refl _
      · have := behind x later
        omega
    · intro x later
      have := behind x later
      show _ < x.1
      omega
  | skip _ _ ih =>
    refine ⟨?_, ih.2⟩
    intro x mem
    have := ih.1 x mem
    omega

/-! ## The expression -/

/-- One character between quotes, or a backslash and the character it takes. -/
def item (quote : Char) : Node :=
  .alt (.set { items := [.one quote, .one '\\', .one '\n'], negated := true }) (.seq (.set (.one '\\')) (.set .notLineFeed))

/-- A literal between two quotes, its value as a group. -/
def literalNode (quote : Char) (number : Nat) : Node :=
  .seq (.set (.one quote)) (.seq (.group number (.many (item quote) 0 none false)) (.set (.one quote)))

theorem node_pattern : pattern.node = .alt (literalNode '"' 1) (literalNode '\'' 2) := by decide +kernel

variable {quote : Char}

theorem denotes_one_iff {t : List Char} : Denotes (.set (.one quote)) t ↔ t = [quote] := by
  unfold Denotes
  simp only [CharSet.contains_one, decide_eq_true_eq]
  exact ⟨fun ⟨_, same, eq⟩ => same ▸ eq, fun eq => ⟨quote, rfl, eq⟩⟩

theorem denotes_item_iff {t : List Char} : Denotes (item quote) t ↔
    (∃ c, c ≠ quote ∧ c ≠ '\\' ∧ c ≠ '\n' ∧ t = [c]) ∨ ∃ c, c ≠ '\n' ∧ t = ['\\', c] := by
  have plain : Denotes (.set { items := [.one quote, .one '\\', .one '\n'], negated := true }) t ↔
      ∃ c, c ≠ quote ∧ c ≠ '\\' ∧ c ≠ '\n' ∧ t = [c] := by
    unfold Denotes
    simp [CharSet.contains, CharItem.contains, and_assoc]
  have escaped : Denotes (.seq (.set (.one '\\')) (.set .notLineFeed)) t ↔ ∃ c, c ≠ '\n' ∧ t = ['\\', c] := by
    constructor
    · rintro ⟨u, v, rfl, slash, c, inside, rfl⟩
      rw [denotes_one_iff.mp slash]
      rw [CharSet.contains_notLineFeed] at inside
      exact ⟨c, of_decide_eq_true inside, rfl⟩
    · rintro ⟨c, ne, rfl⟩
      refine ⟨['\\'], [c], rfl, denotes_one_iff.mpr rfl, c, ?_, rfl⟩
      rw [CharSet.contains_notLineFeed]
      exact decide_eq_true ne
  exact or_congr plain escaped

/-- The items between two quotes make up a value. -/
theorem denotes_items_iff {value : List Char} : Denotes (.many (item quote) 0 none false) value ↔ Quoted quote value := by
  constructor
  · rintro ⟨pieces, rfl, -, are⟩
    induction pieces with
    | nil => exact .nil
    | cons u pieces ih =>
      obtain ⟨⟨-, first⟩, others⟩ := List.forall_mem_cons.mp are
      have quoted := ih others
      rcases denotes_item_iff.mp first with ⟨c, ne, noEscape, noFeed, rfl⟩ | ⟨c, noFeed, rfl⟩
      · exact .plain ne noEscape noFeed quoted
      · exact .escaped noFeed quoted
  · intro h
    have pieces : ∃ pieces : List (List Char), value = pieces.flatten ∧ ∀ u ∈ pieces, u ≠ [] ∧ Denotes (item quote) u := by
      induction h with
      | nil => exact ⟨[], rfl, nofun⟩
      | plain ne noEscape noFeed _ ih =>
        obtain ⟨pieces, rfl, are⟩ := ih
        have first : Denotes (item quote) [_] := denotes_item_iff.mpr (.inl ⟨_, ne, noEscape, noFeed, rfl⟩)
        exact ⟨_ :: pieces, rfl, List.forall_mem_cons.mpr ⟨⟨List.cons_ne_nil _ _, first⟩, are⟩⟩
      | escaped noFeed _ ih =>
        obtain ⟨pieces, rfl, are⟩ := ih
        have first : Denotes (item quote) ['\\', _] := denotes_item_iff.mpr (.inr ⟨_, noFeed, rfl⟩)
        exact ⟨_ :: pieces, rfl, List.forall_mem_cons.mpr ⟨⟨List.cons_ne_nil _ _, first⟩, are⟩⟩
    obtain ⟨pieces, eq, are⟩ := pieces
    exact ⟨pieces, eq, ⟨Nat.zero_le _, fun _ no => nomatch no⟩, are⟩

theorem denotes_literalNode_iff {number : Nat} {t : List Char} :
    Denotes (literalNode quote number) t ↔ ∃ value, Quoted quote value ∧ t = quote :: (value ++ [quote]) := by
  constructor
  · rintro ⟨u, v, rfl, opening, value, w, rfl, items, closing⟩
    rw [denotes_one_iff.mp opening, denotes_one_iff.mp closing]
    exact ⟨value, denotes_items_iff.mp items, rfl⟩
  · rintro ⟨value, quoted, rfl⟩
    exact ⟨[quote], value ++ [quote], rfl, denotes_one_iff.mpr rfl, value, [quote], rfl, denotes_items_iff.mpr quoted,
      denotes_one_iff.mpr rfl⟩

/-- The expression matches exactly where a literal opens. -/
theorem begins_pattern_iff {text : List Char} : Begins pattern.node text ↔ ∃ value rest, Opens text value rest := by
  rw [node_pattern]
  constructor
  · rintro ⟨t, rest, rfl, double | single⟩
    · obtain ⟨value, quoted, rfl⟩ := denotes_literalNode_iff.mp double
      exact ⟨value, rest, '"', by decide, quoted, by simp⟩
    · obtain ⟨value, quoted, rfl⟩ := denotes_literalNode_iff.mp single
      exact ⟨value, rest, '\'', by decide, quoted, by simp⟩
  · rintro ⟨value, rest, quote, mem, quoted, rfl⟩
    refine ⟨quote :: (value ++ [quote]), rest, by simp, ?_⟩
    rcases List.mem_pair.mp mem with rfl | rfl
    · exact .inl (denotes_literalNode_iff.mpr ⟨value, quoted, rfl⟩)
    · exact .inr (denotes_literalNode_iff.mpr ⟨value, quoted, rfl⟩)

/-! ## What is matched -/

/-- The value of a match: the group of whichever quote it has. -/
def valueOf (content : List Char) (h : Hit) : List Char :=
  ((h.groupText? content 1).orElse fun _ => h.groupText? content 2).getD []

variable {content : List Char} {p q : Place}

/-- A match of a literal takes its value between the quotes, and groups it. -/
theorem mem_ends_literalNode {number : Nat} (inside : p.In content) (mem : q ∈ ends (literalNode quote number) p) :
    ∃ value, Quoted quote value ∧ p.rest = quote :: (value ++ quote :: q.rest) ∧ q.offset = p.offset + value.length + 2 ∧
      (Hit.mk p.offset q.offset q.groups).groupText? content number = some value := by
  obtain ⟨a, first, mem⟩ := List.mem_flatMap.mp mem
  obtain ⟨b, mid, last⟩ := List.mem_flatMap.mp mem
  obtain ⟨b', items, rfl⟩ := List.mem_map.mp mid
  obtain ⟨u, opening, is⟩ := denotes_of_mem first
  obtain ⟨value, across, quoted⟩ := denotes_of_mem items
  obtain ⟨v, closing, is'⟩ := denotes_of_mem last
  obtain rfl := denotes_one_iff.mp is
  obtain rfl := denotes_one_iff.mp is'
  have kept := lookup_of_mem (n := number) rfl last
  refine ⟨value, denotes_items_iff.mp quoted, ?_, ?_, ?_⟩
  · rw [opening.rest, across.rest]
    exact congrArg (quote :: value ++ ·) closing.rest
  · have := closing.offset
    have := across.offset
    have := opening.offset
    simp only [List.length_singleton] at *
    omega
  · unfold Hit.groupText? Hit.group?
    rw [kept]
    simp [(inside.leads opening).slice across]

/-- A match of the expression goes around the value of a literal that opens there. -/
theorem opens_of_mem (inside : p.In content) (clean : p.groups = []) (mem : q ∈ ends pattern.node p) :
    ∃ value, Opens p.rest value q.rest ∧ q.offset = p.offset + value.length + 2 ∧
      valueOf content ⟨p.offset, q.offset, q.groups⟩ = value := by
  rw [node_pattern] at mem
  unfold valueOf
  rcases List.mem_append.mp mem with double | single
  · obtain ⟨value, quoted, text, offset, group⟩ := mem_ends_literalNode inside double
    exact ⟨value, ⟨'"', by decide, quoted, text⟩, offset, by rw [group]; rfl⟩
  · obtain ⟨value, quoted, text, offset, group⟩ := mem_ends_literalNode inside single
    have other : (Hit.mk p.offset q.offset q.groups).groupText? content 1 = none := by
      unfold Hit.groupText? Hit.group?
      rw [lookup_of_mem (n := 1) rfl single, clean]
      rfl
    exact ⟨value, ⟨'\'', by decide, quoted, text⟩, offset, by rw [other, group]; rfl⟩

theorem not_opens_of_matchAt? (none : matchAt? pattern.node false p = none) (value rest : List Char) :
    ¬ Opens p.rest value rest := by
  have plain : isPlain pattern.node = true := by
    rw [node_pattern]
    rfl
  have noText := (matchAt?_eq_none_iff plain).mp none
  exact fun opens => noText (begins_pattern_iff.mpr ⟨value, rest, opens⟩)

/-- Where nothing is matched, nothing is read. -/
theorem reads_of_firstAt_none (clean : p.groups = []) (none : firstAt pattern.node false p = none) :
    Reads p.offset p.rest [] := by
  generalize eq : p.rest = rest
  induction rest generalizing p with
  | nil => exact .done
  | cons c rest ih =>
    rw [firstAt_cons clean eq, Option.or_eq_none_iff, Option.map_eq_none_iff] at none
    refine .skip ?_ (ih (p := p.past c rest) clean none.2 rfl)
    rw [← eq]
    exact not_opens_of_matchAt? none.1

/-- What is read from the first match on is read from before it on. -/
theorem reads_of_firstAt {h : Hit} {found : List (Nat × List Char)} (clean : p.groups = [])
    (first : firstAt pattern.node false p = some (h, q)) (more : Reads q.offset q.rest found) :
    Reads p.offset p.rest found := by
  generalize eq : p.rest = rest
  induction rest generalizing p with
  | nil =>
    rw [firstAt_nil clean eq] at first
    obtain ⟨_, -, same⟩ := Option.map_eq_some_iff.mp first
    cases same
    exact eq ▸ more
  | cons c rest ih =>
    cases here : matchAt? pattern.node false p with
    | some h' =>
      rw [firstAt_of_match clean here] at first
      cases first
      exact eq ▸ more
    | none =>
      rw [firstAt_cons clean eq, here, Option.map_none, Option.none_or] at first
      refine .skip ?_ (ih (p := p.past c rest) clean first rfl)
      rw [← eq]
      exact not_opens_of_matchAt? here

/-- Each match takes its quotes, so the text that is left bounds the turns. -/
theorem reads_allFrom {steps : Nat} (inside : p.In content) (clean : p.groups = []) (enough : p.rest.length < steps) :
    Reads p.offset p.rest ((allFrom pattern.node steps false p).map fun h => (h.start, valueOf content h)) := by
  induction steps generalizing p with
  | zero => exact absurd enough (Nat.not_lt_zero _)
  | succ steps ih =>
    rw [allFrom, ← firstAt]
    cases first : firstAt pattern.node false p with
    | none => exact reads_of_firstAt_none clean first
    | some hit =>
      obtain ⟨h, q⟩ := hit
      obtain ⟨⟨passed, leads⟩, clean', b, matched⟩ := leads_of_firstAt clean first
      have there : q.In content := inside.leads leads
      obtain ⟨r, mem, rfl⟩ := exists_of_matchAt? matched
      obtain ⟨value, opens, offset, group⟩ := opens_of_mem there clean' mem
      obtain ⟨taken, takes, ahead, kept⟩ := exists_skip mem
      have moved : decide (r.offset = q.offset) = false := decide_eq_false (by omega)
      have behind : (q.skip (r.offset - q.offset)).rest = r.rest := List.append_cancel_left (ahead.rest.symm.trans takes.leads.rest)
      have shorter : (q.skip (r.offset - q.offset)).rest.length < steps := by
        have := takes.leads.offset
        have := congrArg List.length leads.rest
        have := congrArg List.length ahead.rest
        simp only [List.length_append] at *
        omega
      have rest := ih (there.leads ahead) (kept.trans clean') shorter
      have further : q.offset + taken.length = q.offset + value.length + 2 := by have := takes.leads.offset; omega
      rw [behind, ahead.offset, further] at rest
      refine reads_of_firstAt clean first ?_
      rw [List.map_cons, group, moved]
      exact .literal opens rest

/-- The literals of a text are those that are read from its start on. -/
theorem reads_literals (content : List Char) : Reads 0 content (literals content) :=
  reads_allFrom (Place.in_startOf content) rfl (by show content.length < _; omega)

/-! ## Counting -/

/-- The first literal with a value stands at an offset. -/
def IsFirst (found : List (Nat × List Char)) (offset : Nat) (value : List Char) : Prop :=
  found.find? (·.2 == value) = some (offset, value)

/-- How many literals have a value. -/
def occurrences (found : List (Nat × List Char)) (value : List Char) : Nat := found.countP (·.2 == value)

/-- Literals are counted: each value once, at its first place and with its number, in the order of the places. -/
structure Counted (found : List (Nat × List Char)) (seen : List Repeated) : Prop where
  mem_iff : ∀ r, r ∈ seen ↔ IsFirst found r.offset r.literal ∧ r.count = occurrences found r.literal
  order : seen.Pairwise fun r r' => r.offset < r'.offset

section

variable {found : List (Nat × List Char)} {seen : List Repeated} {offset offset' : Nat} {value value' : List Char}

theorem isFirst_append_iff : IsFirst (found ++ [(offset, value)]) offset' value' ↔
    IsFirst found offset' value' ∨ ((∀ x ∈ found, x.2 ≠ value') ∧ value' = value ∧ offset' = offset) := by
  unfold IsFirst
  rw [List.find?_append, Option.or_eq_some_iff, List.find?_eq_none]
  refine or_congr_right (and_congr (by simp) ?_)
  rw [List.find?_singleton]
  by_cases same : value = value'
  · subst same
    simp [eq_comm]
  · simp [same, Ne.symm same]

theorem occurrences_append : occurrences (found ++ [(offset, value)]) value' =
    occurrences found value' + if value' = value then 1 else 0 := by
  unfold occurrences
  rw [List.countP_append, List.countP_singleton]
  by_cases same : value = value'
  · simp [same]
  · simp [same, Ne.symm same]

theorem exists_isFirst_iff : (∃ offset, IsFirst found offset value) ↔ ∃ x ∈ found, x.2 = value := by
  unfold IsFirst
  constructor
  · rintro ⟨offset, first⟩
    exact ⟨_, List.mem_of_find?_eq_some first, rfl⟩
  · rintro ⟨x, mem, same⟩
    have some : (found.find? (·.2 == value)).isSome = true := List.find?_isSome.mpr ⟨x, mem, by simpa using same⟩
    obtain ⟨⟨offset, other⟩, first⟩ := Option.isSome_iff_exists.mp some
    obtain rfl : other = value := by simpa using List.find?_some first
    exact ⟨offset, first⟩

theorem occurrences_eq_zero (none : ∀ x ∈ found, x.2 ≠ value) : occurrences found value = 0 :=
  List.countP_eq_zero.mpr fun x mem => by simpa using none x mem

namespace Counted

theorem nil : Counted [] [] := ⟨fun r => by simp [IsFirst], .nil⟩

/-- The values that were seen are those of the literals. -/
theorem exists_mem_iff (h : Counted found seen) : (∃ r ∈ seen, r.literal = value) ↔ ∃ x ∈ found, x.2 = value := by
  rw [← exists_isFirst_iff]
  constructor
  · rintro ⟨r, mem, rfl⟩
    exact ⟨r.offset, ((h.mem_iff r).mp mem).1⟩
  · rintro ⟨offset, first⟩
    exact ⟨⟨value, offset, occurrences found value⟩, (h.mem_iff _).mpr ⟨first, rfl⟩, rfl⟩

/-- A value that was seen before keeps its place, and its number grows. -/
theorem again (h : Counted found seen) (known : ∃ r ∈ seen, r.literal = value) :
    Counted (found ++ [(offset, value)])
      (seen.map fun r => if r.literal == value then { r with count := r.count + 1 } else r) := by
  obtain ⟨x, before, reads⟩ := h.exists_mem_iff.mp known
  refine ⟨fun r => ?_, ?_⟩
  · rw [List.mem_map, isFirst_append_iff, occurrences_append]
    constructor
    · rintro ⟨s, mem, rfl⟩
      obtain ⟨first, number⟩ := (h.mem_iff s).mp mem
      by_cases same : s.literal = value
      · simp only [same, beq_self_eq_true, if_true]
        rw [same] at first number
        exact ⟨.inl first, by rw [number]⟩
      · simp only [same, beq_eq_false_iff_ne.mpr same, Bool.false_eq_true, if_false]
        exact ⟨.inl first, number⟩
    · rintro ⟨first | ⟨none, same, -⟩, number⟩
      · refine ⟨⟨r.literal, r.offset, occurrences found r.literal⟩, (h.mem_iff _).mpr ⟨first, rfl⟩, ?_⟩
        obtain ⟨literal, place, own⟩ := r
        by_cases same : literal = value
        · simp_all
        · simp_all
      · exact absurd (reads.trans same.symm) (none x before)
  · refine List.pairwise_map.mpr (h.order.imp fun {r r'} less => ?_)
    by_cases one : r.literal = value <;> by_cases other : r'.literal = value <;> simpa [one, other] using less

/-- A value that is new stands behind all that were seen. -/
theorem new (h : Counted found seen) (later : ∀ x ∈ found, x.1 < offset) (unknown : ¬ ∃ r ∈ seen, r.literal = value) :
    Counted (found ++ [(offset, value)]) (seen ++ [⟨value, offset, 1⟩]) := by
  have absent : ∀ x ∈ found, x.2 ≠ value := fun x mem same => unknown (h.exists_mem_iff.mpr ⟨x, mem, same⟩)
  have other {place : Nat} {literal : List Char} (first : IsFirst found place literal) : literal ≠ value := by
    obtain ⟨x, mem, reads⟩ := exists_isFirst_iff.mp ⟨_, first⟩
    exact fun same => absent x mem (reads.trans same)
  refine ⟨fun r => ?_, ?_⟩
  · rw [List.mem_append, List.mem_singleton, h.mem_iff, isFirst_append_iff, occurrences_append]
    constructor
    · rintro (⟨first, number⟩ | rfl)
      · exact ⟨.inl first, by rw [number, if_neg (other first)]; rfl⟩
      · exact ⟨.inr ⟨absent, rfl, rfl⟩, by rw [occurrences_eq_zero absent, if_pos rfl]⟩
    · rintro ⟨first | ⟨-, same, there⟩, number⟩
      · rw [if_neg (other first)] at number
        exact .inl ⟨first, number⟩
      · rw [if_pos same, same, occurrences_eq_zero absent] at number
        obtain ⟨literal, place, own⟩ := r
        simp_all
  · refine List.pairwise_append.mpr ⟨h.order, List.pairwise_singleton _ _, ?_⟩
    intro r mem r' only
    rw [List.mem_singleton.mp only]
    exact later _ (List.mem_of_find?_eq_some ((h.mem_iff r).mp mem).1)

/-- One literal more is counted. -/
theorem count (h : Counted found seen) (later : ∀ x ∈ found, x.1 < offset) :
    Counted (found ++ [(offset, value)]) (Literal.count seen offset value) := by
  unfold Literal.count
  by_cases known : ∃ r ∈ seen, r.literal = value
  · rw [if_pos (by simpa using known)]
    exact h.again known
  · rw [if_neg (by simpa using known)]
    exact h.new later known

/-- Literals one behind the other are counted from the first to the last. -/
theorem foldl {rest : List (Nat × List Char)} (h : Counted found seen)
    (order : (found ++ rest).Pairwise fun x y => x.1 < y.1) :
    Counted (found ++ rest) (rest.foldl (fun seen (offset, s) => Literal.count seen offset s) seen) := by
  induction rest generalizing found seen with
  | nil => simpa using h
  | cons x rest ih =>
    have behind : ∀ y ∈ found, y.1 < x.1 := fun y mem => (List.pairwise_append.mp order).2.2 y mem x List.mem_cons_self
    rw [List.append_cons] at order ⊢
    exact ih (h.count behind) order

end Counted

/-! ## What is left out -/

variable {p : List Char → Bool}

theorem isFirst_filter_iff :
    IsFirst (found.filter fun x => p x.2) offset value ↔ IsFirst found offset value ∧ p value = true := by
  unfold IsFirst
  rw [List.find?_filter]
  cases kept : p value with
  | true =>
    rw [and_iff_left rfl]
    refine Eq.congr_left (List.find?_congr fun x _ => ?_)
    by_cases eq : x.2 = value
    · simp [eq, kept]
    · simp [eq]
  | false =>
    refine iff_of_false ?_ (by simp)
    intro first
    simpa [kept] using List.find?_some first

theorem occurrences_filter (kept : p value = true) :
    occurrences (found.filter fun x => p x.2) value = occurrences found value := by
  unfold occurrences
  rw [List.countP_filter]
  refine List.countP_congr fun x _ => ?_
  by_cases eq : x.2 = value
  · simp [eq, kept]
  · simp [eq]

end

/-- A value is long enough and not blank. -/
def isWorthCounting (minLength : Int) (value : List Char) : Bool := minLength ≤ value.length && !Text.isBlankLine value

theorem isWorthCounting_iff {minLength : Int} {value : List Char} :
    isWorthCounting minLength value = true ↔ minLength ≤ value.length ∧ ∃ c ∈ value, Text.isBlank c = false := by
  unfold isWorthCounting Text.isBlankLine
  simp

theorem counted_literals (content : List Char) (minLength : Int) :
    Counted ((literals content).filter fun x => isWorthCounting minLength x.2) (counted content minLength) := by
  have order := (reads_literals content).ordered.2.filter fun x => isWorthCounting minLength x.2
  exact Counted.nil.foldl order

/-- What is counted of a text are the values that are worth it, each at its first place and with its number. -/
theorem mem_counted_iff {minLength : Int} {r : Repeated} : r ∈ counted content minLength ↔
    IsFirst (literals content) r.offset r.literal ∧ r.count = occurrences (literals content) r.literal ∧
      isWorthCounting minLength r.literal = true := by
  rw [(counted_literals content minLength).mem_iff, isFirst_filter_iff, and_assoc]
  refine and_congr_right fun _ => ?_
  constructor
  · rintro ⟨worth, number⟩
    exact ⟨by rw [number, occurrences_filter worth], worth⟩
  · rintro ⟨number, worth⟩
    exact ⟨worth, by rw [number, occurrences_filter worth]⟩

/-- There is one way to read the literals of a text from left to right, and what is reported is:
- one violation for each value that has at least a number of characters, is not blank, and stands more often than is
  allowed, whatever quotes it is in; with the value, its exact number, and the line of its first place;
- in the order of the first places, so that no value comes twice and the lines never decrease. -/
theorem repeated_literals_are_grouped (content : List Char) (most minLength : Int) :
    ∃ found, Reads 0 content found ∧ (∀ other, Reads 0 content other → other = found) ∧
      ∃ reported : List Repeated,
        (violations content (.whole most) minLength).map (fun v => (v.type, v.details, v.line)) =
          reported.map (fun r => ("duplicate_strings",
            [("literal", Json.str (String.ofList r.literal)), ("occurrences", Json.nat r.count)],
            some (Text.lineAt content r.offset : Int))) ∧
        (∀ r, r ∈ reported ↔ IsFirst found r.offset r.literal ∧ r.count = occurrences found r.literal ∧
          minLength ≤ r.literal.length ∧ (∃ c ∈ r.literal, Text.isBlank c = false) ∧ most < r.count) ∧
        reported.Pairwise fun r r' => r.offset < r'.offset ∧ r.literal ≠ r'.literal ∧
          Text.lineAt content r.offset ≤ Text.lineAt content r'.offset := by
  refine ⟨literals content, reads_literals content, fun other reads => reads.unique (reads_literals content),
    (counted content minLength).filter fun r => (Quantity.whole most).exceededByCount r.count, ?_, ?_, ?_⟩
  · unfold violations
    rw [List.map_map]
    rfl
  · intro r
    rw [List.mem_filter, mem_counted_iff, isWorthCounting_iff]
    unfold Quantity.exceededByCount
    rw [decide_eq_true_eq]
    tauto
  · refine List.Pairwise.imp_of_mem ?_ ((counted_literals content minLength).order.filter _)
    intro r r' mem mem' less
    refine ⟨less, ?_, Text.lineAt_mono (Nat.le_of_lt less) content⟩
    intro same
    have first := (mem_counted_iff.mp (List.mem_filter.mp mem).1).1
    have first' := (mem_counted_iff.mp (List.mem_filter.mp mem').1).1
    rw [← same] at first'
    have one_place := (Prod.mk.inj (Option.some.inj (first.symm.trans first'))).1
    omega

end CodeHygiene.Measure.Literal
