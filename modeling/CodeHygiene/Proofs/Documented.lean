import CodeHygiene.Proofs.Denotation
import CodeHygiene.Proofs.Position
import CodeHygiene.Proofs.Returns
import CodeHygiene.Proofs.Thresholds

/-!
Which text is measured as the documentation of a function, and which block as its body.

A comment is looked for from its start up to an end that has a declaration behind it. An end that has none is passed
over, with whatever stands between it and the next one. The body is looked for behind the declaration, up to a brace.

Proved:
(1) A match in JavaScript or Java is the start of a comment, a text, the end of a comment, blanks and a declaration, and
    no declaration stands right behind an earlier end (`exists_passage`, with the parts as a `Passage`).
(2) So the text is that of one comment exactly where a declaration follows the first end behind the start
    (`Passage.single_iff`, `documentation_reaches_declaration`). Of two comments with no declaration behind the first
    both are counted, and what stands between them (`both_comments_are_counted`).
(3) The block is the next one, with no semicolon before it (`next_block_is_measured`). A function that is declared
    before it is found by a search (`isOwnBlock_iff`), and there is none where no parenthesis opens
    (`isOwnBlock_of_notMem`). Behind a function without braces the block is that of another
    (`block_of_neighbour_is_counted`).
-/

namespace CodeHygiene

namespace Text

/-- A piece is found where it first stands. -/
theorem find?_eq_some_iff {piece text : List Char} (some : piece ≠ []) {n : Nat} :
    find? piece text = Option.some n ↔ piece <+: text.drop n ∧ ∀ i < n, ¬ piece <+: text.drop i := by
  induction text generalizing n with
  | nil => simp [find?, some]
  | cons c text ih =>
    rw [find?]
    by_cases here : piece <+: c :: text
    · rw [if_pos (startsWith_iff.mpr here), Option.some_inj]
      constructor
      · rintro rfl
        exact ⟨here, fun i less => absurd less (Nat.not_lt_zero i)⟩
      · rintro ⟨-, first⟩
        by_contra ne
        exact first 0 (by omega) here
    · rw [if_neg (fun starts => here (startsWith_iff.mp starts)), Option.map_eq_some_iff]
      constructor
      · rintro ⟨m, found, rfl⟩
        obtain ⟨there, first⟩ := ih.mp found
        refine ⟨there, fun i less => ?_⟩
        cases i with
        | zero => exact here
        | succ i => exact first i (Nat.lt_of_succ_lt_succ less)
      · rintro ⟨there, first⟩
        cases n with
        | zero => exact absurd there here
        | succ n => exact ⟨n, ih.mpr ⟨there, fun i less => first (i + 1) (Nat.succ_lt_succ less)⟩, rfl⟩

theorem notMem_take_of_find? {c : Char} {text : List Char} {n : Nat} (found : find? [c] text = some n) : c ∉ text.take n := by
  intro mem
  obtain ⟨i, less, eq⟩ := List.mem_iff_getElem.mp mem
  rw [List.length_take] at less
  refine ((find?_eq_some_iff (List.cons_ne_nil c [])).mp found).2 i (by omega) ⟨text.drop (i + 1), ?_⟩
  rw [List.getElem_take] at eq
  rw [← eq]
  exact (List.drop_eq_getElem_cons _).symm

end Text

namespace Measure.Documentation

open Regex

/-! ## Comments between slashes and stars -/

/-- What a pattern takes for a declaration. -/
def declaration (r : Regex) : Node := ((r.named? "decl").bind fun n => partOf? n r.node).getD .empty

/-- Blanks and a declaration. -/
def behind (declaration : Node) : Node := .seq (.run (.ofClass .blank) 0 none false) (.group 2 declaration)

def anything : CharSet := { items := [.inClass .blank, .notInClass .blank] }

def commentStart : List Char := ['/', '*', '*']

def commentEnd : List Char := ['*', '/']

/-- A comment and the declaration behind it. -/
def commented (declaration : Node) : Node :=
  literal commentStart (.seq (.group 1 (.run anything 0 none true)) (literal commentEnd (behind declaration)))

/-- Whether a pattern is one for comments between slashes and stars. -/
def isSlashed (r : Regex) : Bool :=
  r.node = commented (declaration r) && r.named? "doc" = some 1 && r.named? "decl" = some 2 &&
    isPlain (declaration r) && lacksGroup 1 (declaration r)

theorem isSlashed_javascript : isSlashed javascriptPattern = true := by decide +kernel

theorem isSlashed_java : isSlashed javaPattern = true := by decide +kernel

/-- A comment in a text, and a declaration with only blanks between them. -/
structure Passage (declaration : Node) (content : List Char) where
  before : List Char
  doc : List Char
  gap : List Char
  decl : List Char
  after : List Char
  split : content = before ++ (commentStart ++ (doc ++ (commentEnd ++ (gap ++ (decl ++ after)))))
  blank : ∀ c ∈ gap, Text.isBlank c = true
  declares : Denotes declaration decl

namespace Passage

variable {declaration : Node} {content : List Char} (w : Passage declaration content)

/-- Where the comment has its text. -/
def docStart : Nat := w.before.length + 3

def declStart : Nat := w.docStart + w.doc.length + 2 + w.gap.length

def declStop : Nat := w.declStart + w.decl.length

/-- No declaration follows where an earlier comment ends. -/
def IsNearest : Prop :=
  ∀ u v, w.doc = u ++ (commentEnd ++ v) → ¬ Begins (behind declaration) (v ++ (commentEnd ++ (w.gap ++ (w.decl ++ w.after))))

/-- A match tells its parts by their groups. -/
structure Of (r : Regex) (h : Hit) : Prop where
  doc : groupText? r content h "doc" = some w.doc
  decl : (r.named? "decl").bind h.group? = some ⟨w.declStart, w.declStop⟩
  stop : h.stop = w.declStop
  nearest : w.IsNearest

end Passage

/-- The way of a match: over the start of the comment, its text, its end, blanks, and the declaration. -/
structure Way (declaration : Node) (p q : Place) where
  (inner stop next start : Place)
  (doc gap decl : List Char)
  opens : p.Leads commentStart inner
  within : inner.Leads doc stop
  closes : stop.Leads commentEnd next
  apart : next.Leads gap start
  across : start.Leads decl q
  blank : ∀ c ∈ gap, Text.isBlank c = true
  declares : Denotes declaration decl
  groups_doc : q.groups.lookup 1 = some ⟨inner.offset, stop.offset⟩
  groups_decl : q.groups.lookup 2 = some ⟨start.offset, q.offset⟩
  nearest : ∀ u v, doc = u ++ (commentEnd ++ v) → ¬ Begins (behind declaration) (v ++ stop.rest)

theorem exists_way {declaration : Node} {p q : Place} (plain : isPlain declaration = true)
    (lacks : lacksGroup 1 declaration = true) (found : after (commented declaration) some p = some q) :
    Nonempty (Way declaration p q) := by
  obtain ⟨a, opens, kept, found⟩ := of_after_literal found
  rw [after_seq, after_group] at found
  obtain ⟨doc, b, within, kept₁, found, least⟩ := of_after_lazy found
  obtain ⟨c, closes, kept₂, found⟩ := of_after_literal found
  obtain ⟨d, blanks, declares⟩ := List.mem_flatMap.mp (mem_ends_of_after found)
  obtain ⟨gap, apart, kept₃, run⟩ := mem_ends_run.mp blanks
  obtain ⟨e, inner, rfl⟩ := List.mem_map.mp declares
  obtain ⟨decl, across, is⟩ := denotes_of_mem inner
  have none_before (u v : List Char) (eq : doc = u ++ (commentEnd ++ v)) : ¬ Begins (behind declaration) (v ++ b.rest) := by
    intro begins
    have goes : a.rest = u ++ (commentEnd ++ (v ++ b.rest)) := by
      rw [within.rest, eq, List.append_assoc, List.append_assoc]
    obtain ⟨leads, kept₄⟩ := leads_skip u goes
    have failed := least u _ leads kept₄ (by rw [eq]; simp [commentEnd])
    rw [after_eq_none_iff (by simp [literal, commentEnd, behind, isPlain, plain])] at failed
    have rest : (a.skip u.length).rest = commentEnd ++ (v ++ b.rest) := List.append_cancel_left (leads.rest.symm.trans goes)
    exact failed (rest ▸ begins_literal commentEnd begins)
  exact ⟨{
    inner := a, stop := b, next := c, start := d, doc, gap, decl, opens, within, apart
    closes := ⟨closes.rest, closes.offset, closes.before⟩
    across := ⟨across.rest, across.offset, across.before⟩
    blank := isRun_blanks.mp run
    declares := is
    groups_doc := by
      show ((2, _) :: e.groups).lookup 1 = _
      rw [List.lookup_cons, show ((1 : Nat) == 2) = false from rfl, lookup_of_mem lacks inner, kept₃, kept₂]
      rfl
    groups_decl := rfl
    nearest := none_before }⟩

/-- Every match is a comment and the next declaration that stands right behind the end of one. -/
theorem exists_passage {r : Regex} (slashed : isSlashed r = true) {content : List Char} {h : Hit} (mem : h ∈ r.all content) :
    ∃ w : Passage (declaration r) content, w.Of r h := by
  simp only [isSlashed, Bool.and_eq_true, decide_eq_true_eq] at slashed
  obtain ⟨⟨⟨⟨node, doc_one⟩, decl_two⟩, plain⟩, lacks⟩ := slashed
  have beside : takesBeside ' ' r.node = true := by rw [node]; rfl
  obtain ⟨p, q, inside, -, found, rfl⟩ := after_of_mem_all beside mem
  rw [node] at found
  obtain ⟨way⟩ := exists_way plain lacks found
  let w : Passage (declaration r) content :=
    { before := content.take p.offset
      doc := way.doc
      gap := way.gap
      decl := way.decl
      after := q.rest
      split := by
        rw [← way.across.rest, ← way.apart.rest, ← way.closes.rest, ← way.within.rest, ← way.opens.rest, inside.rest,
          List.take_append_drop]
      blank := way.blank
      declares := way.declares }
  have before : w.before.length = p.offset := List.length_take_of_le inside.le
  have doc_start : w.docStart = way.inner.offset := by rw [way.opens.offset, Passage.docStart, before]; rfl
  have decl_start : w.declStart = way.start.offset := by
    rw [Passage.declStart, doc_start, way.apart.offset, way.closes.offset, way.within.offset]
    rfl
  have decl_stop : w.declStop = q.offset := by rw [Passage.declStop, decl_start, way.across.offset]
  refine ⟨w, ?_, ?_, decl_stop.symm, ?_⟩
  · rw [groupText?, doc_one, Option.bind_some, Hit.groupText?, Hit.group?, way.groups_doc, Option.map_some,
      (inside.leads way.opens).slice way.within]
  · rw [decl_two, Option.bind_some, Hit.group?, way.groups_decl, decl_start, decl_stop]
  · intro u v eq
    have none := way.nearest u v eq
    rwa [way.closes.rest, way.apart.rest, way.across.rest] at none

namespace Passage

variable {declaration : Node} {content : List Char} (w : Passage declaration content)

theorem drop_before : content.drop w.before.length =
    commentStart ++ (w.doc ++ (commentEnd ++ (w.gap ++ (w.decl ++ w.after)))) := by
  rw [congrArg (List.drop _) w.split, List.drop_left]

theorem drop_docStart : content.drop w.docStart = w.doc ++ (commentEnd ++ (w.gap ++ (w.decl ++ w.after))) := by
  rw [docStart, ← List.drop_drop, w.drop_before]
  rfl

theorem begins_behind : Begins (behind declaration) (w.gap ++ (w.decl ++ w.after)) := by
  exact ⟨w.gap ++ w.decl, w.after, (List.append_assoc _ _ _).symm, w.gap, w.decl, rfl, isRun_blanks.mpr w.blank, w.declares⟩

/-- An end that stands before the last one stands in the text of the comment. -/
theorem exists_end_inside {doc rest : List Char} {i : Nat} (less : i < doc.length)
    (starts : commentEnd <+: (doc ++ (commentEnd ++ rest)).drop i) : ∃ v, doc = doc.take i ++ (commentEnd ++ v) := by
  rw [List.drop_append_of_le_length (Nat.le_of_lt less)] at starts
  have whole := (List.take_append_drop i doc).symm
  cases eq : doc.drop i with
  | nil => exact absurd (List.drop_eq_nil_iff.mp eq) (Nat.not_le.mpr less)
  | cons c inner =>
    rw [eq] at starts whole
    obtain ⟨rfl, slash⟩ := List.cons_prefix_cons.mp starts
    cases inner with
    | nil => exact absurd (List.cons_prefix_cons.mp slash).1 (by decide)
    | cons d inner =>
      obtain ⟨rfl, -⟩ := List.cons_prefix_cons.mp slash
      exact ⟨inner, whole⟩

/-- The comment is one comment exactly where a declaration follows the first end behind its start. -/
theorem single_iff (nearest : w.IsNearest) : ¬ commentEnd <:+: w.doc ↔
    ∃ n, Text.find? commentEnd (content.drop w.docStart) = some n ∧
      Begins (behind declaration) (content.drop (w.docStart + n + 2)) := by
  have some : commentEnd ≠ [] := by decide
  have behind_end (n : Nat) : content.drop (w.docStart + n + 2) =
      (w.doc ++ (commentEnd ++ (w.gap ++ (w.decl ++ w.after)))).drop (n + 2) := by
    rw [← w.drop_docStart, List.drop_drop, Nat.add_assoc]
  simp only [behind_end, w.drop_docStart, Text.find?_eq_some_iff some]
  constructor
  · intro single
    refine ⟨w.doc.length, ⟨?_, fun i less starts => ?_⟩, ?_⟩
    · rw [List.drop_left]
      exact List.prefix_append _ _
    · obtain ⟨v, eq⟩ := exists_end_inside less starts
      exact single ⟨w.doc.take i, v, by rw [List.append_assoc, ← eq]⟩
    · rw [← List.drop_drop, List.drop_left]
      exact w.begins_behind
  · rintro ⟨n, ⟨there, first⟩, begins⟩ ⟨u, v, eq⟩
    have le : n ≤ u.length := by
      by_contra later
      refine first u.length (Nat.not_le.mp later) ?_
      rw [← eq, List.append_assoc, List.append_assoc, List.drop_left]
      exact List.prefix_append _ _
    have less : n < w.doc.length := by
      have width := congrArg List.length eq
      rw [List.length_append, List.length_append, show commentEnd.length = 2 from rfl] at width
      omega
    obtain ⟨v, eq⟩ := exists_end_inside less there
    refine nearest _ v eq ?_
    have width : n + 2 = (w.doc.take n ++ commentEnd).length := by
      rw [List.length_append, List.length_take_of_le (Nat.le_of_lt less)]
      rfl
    have cut (rest : List Char) : w.doc ++ rest = w.doc.take n ++ commentEnd ++ (v ++ rest) :=
      (congrArg (· ++ rest) eq).trans (by simp only [List.append_assoc])
    rwa [cut, width, List.drop_left] at begins

end Passage

/-! ## What a violation reports -/

/-- The next block behind an offset, with neither a semicolon nor another block before it. -/
structure NextBlock (content : List Char) (start opening closing : Nat) : Prop where
  le : start ≤ opening
  opens : ∃ rest, content.drop opening = '\x7b' :: rest
  gap : ∀ c ∈ Text.slice content start opening, c ≠ '\x7b' ∧ c ≠ ';'
  closes : closing? content opening = some closing

theorem nextBlock_of_bodyAfter? {content : List Char} {start opening closing : Nat}
    (found : bodyAfter? content start = some (opening, closing)) : NextBlock content start opening closing := by
  obtain ⟨gap, first, found⟩ := Option.bind_eq_some_iff.mp found
  obtain ⟨⟨rest, here⟩, -⟩ := (Text.find?_eq_some_iff (List.cons_ne_nil _ [])).mp first
  split at found
  next => cases found
  next signature =>
    obtain ⟨_, closes, same⟩ := Option.bind_eq_some_iff.mp found
    cases same
    refine ⟨Nat.le_add_right _ _, ⟨rest, by rw [← List.drop_drop]; exact here.symm⟩, ?_, closes⟩
    rw [Text.slice, Nat.add_sub_cancel_left]
    rintro c mem
    refine ⟨?_, ?_⟩
    · rintro rfl
      exact Text.notMem_take_of_find? first mem
    · rintro rfl
      exact signature (List.contains_iff_mem.mpr mem)

namespace Passage

variable {declaration : Node} {content : List Char} (w : Passage declaration content)

/-- A violation tells the line of the declaration, and how many lines the comment and a block have. -/
structure Reports (opening closing : Nat) (v : Violation) : Prop where
  line : v.line = some (Text.lineAt content w.declStart)
  counts : counts? "doc_lines" v =
    some (countDocLines w.doc, Text.countNonBlank (between content opening closing))

end Passage

/-- Whatever is reported is a match, and the next block behind it. -/
theorem exists_reported {l : Language} {r : Regex} (known : pattern? l = some r) (slashed : isSlashed r = true)
    {content : List Char} {least : Int} {limit : Quantity} {found : List Violation}
    (run : violations content least limit l.tag = .ok found) {v : Violation} (mem : v ∈ found) :
    ∃ h ∈ r.all content, ∃ w : Passage (declaration r) content, w.Of r h ∧
      ∃ opening closing, bodyAfter? content h.stop = some (opening, closing) ∧ w.Reports opening closing v := by
  rw [violations, Language.ofTag?_tag] at run
  obtain ⟨chosen, chose, told⟩ := bind_eq_ok_iff.mp run
  cases pure_eq_ok_iff.mp told
  obtain ⟨d, inside, rfl⟩ := List.mem_map.mp mem
  have measured := mem_of_mem_select chose inside
  rw [functions, known] at measured
  obtain ⟨h, hit, measured⟩ := List.mem_filterMap.mp (List.mem_mergeSort.mp measured)
  obtain ⟨w, of⟩ := exists_passage slashed hit
  obtain ⟨⟨opening, closing⟩, body, eq⟩ := Option.bind_eq_some_iff.mp measured
  refine ⟨h, hit, w, of, opening, closing, body, ?_⟩
  cases eq
  refine ⟨by simp [toViolation, of.decl], (gauge.counts_report limit _).trans ?_⟩
  show some (countDocLines ((groupText? r content h "doc").getD []), _) = _
  rw [of.doc]
  rfl

/-! ## One comment -/

/-- A violation counts the text of one comment that stands right before the declaration. -/
def CountsOneComment (r : Regex) (content : List Char) (v : Violation) : Prop :=
  ∃ w : Passage (declaration r) content, (∃ opening closing, w.Reports opening closing v) ∧ ¬ commentEnd <:+: w.doc

/-- The documentation that is counted begins behind the start of a comment and goes up to the next end of one that has a
declaration behind it; it is that one comment exactly where a declaration stands behind its own end. -/
theorem documentation_reaches_declaration (content : List Char) {l : Language} (slashes : l = .javascript ∨ l = .java)
    {least : Int} (pos : 1 ≤ least) (limit : Quantity) :
    ∃ found, violations content least limit l.tag = .ok found ∧ ∀ v ∈ found, ∃ r h, pattern? l = some r ∧ h ∈ r.all content ∧
      ∃ w : Passage (declaration r) content, w.Of r h ∧ (∃ opening closing, w.Reports opening closing v) ∧
        (¬ commentEnd <:+: w.doc ↔ ∃ n, Text.find? commentEnd (content.drop w.docStart) = some n ∧
          Begins (behind (declaration r)) (content.drop (w.docStart + n + 2))) := by
  have run : violations content least limit l.tag = gauge.chosen least limit (functions l content) := by
    rw [violations_eq, inLanguage, Language.ofTag?_tag]
  rw [gauge.chosen_eq pos] at run
  refine ⟨_, run, fun v mem => ?_⟩
  obtain ⟨r, known, slashed⟩ : ∃ r, pattern? l = some r ∧ isSlashed r = true := by
    rcases slashes with rfl | rfl
    · exact ⟨_, rfl, isSlashed_javascript⟩
    · exact ⟨_, rfl, isSlashed_java⟩
  obtain ⟨h, hit, w, of, opening, closing, -, reports⟩ := exists_reported known slashed run mem
  exact ⟨r, h, known, hit, w, of, ⟨opening, closing, reports⟩, w.single_iff of.nearest⟩

/-- A comment on its own, and one before a function. -/
def twoComments : List Char := "/** first\n */\n/** second */\nfunction f() \x7b\n  g()\n\x7d".toList

theorem measured_twoComments : functions .javascript twoComments = [⟨4, "f", 3, 1⟩] ∧
    ((javascriptPattern.all twoComments).all fun h =>
      groupText? javascriptPattern twoComments h "doc" = some " first\n */\n/** second ".toList) = true := by
  decide +kernel

theorem violations_twoComments :
    violations twoComments 1 (.whole 1) "javascript" = .ok [toViolation (.whole 1) ⟨4, "f", 3, 1⟩] := by
  have javascript : Language.ofTag? "javascript" = some .javascript := by decide
  rw [violations_eq, inLanguage, javascript]
  simp only [measured_twoComments.1]
  rfl

/-- Neither comment has the three lines that are counted. -/
theorem countDocLines_twoComments : ((List.range twoComments.length).all fun i =>
    !Text.startsWith commentStart (twoComments.drop i) || (List.range (twoComments.length + 1)).all fun n =>
      Text.holds commentEnd ((twoComments.drop (i + 3)).take n) ||
        countDocLines ((twoComments.drop (i + 3)).take n) ≠ 3) = true := by
  decide +kernel

/-- Both comments are counted, and the code between them. -/
theorem both_comments_are_counted :
    ∃ v, violations twoComments 1 (.whole 1) "javascript" = .ok [v] ∧
      ¬ CountsOneComment javascriptPattern twoComments v := by
  refine ⟨_, violations_twoComments, ?_⟩
  rintro ⟨w, ⟨opening, closing, reports⟩, single⟩
  have three : 3 = countDocLines w.doc :=
    (Prod.mk.inj (Option.some.inj ((gauge.counts_report (.whole 1) ⟨4, "f", 3, 1⟩).symm.trans reports.counts))).1
  have starts : Text.startsWith commentStart (twoComments.drop w.before.length) = true :=
    Text.startsWith_iff.mpr ⟨_, w.drop_before.symm⟩
  have total := congrArg List.length w.split
  simp only [List.length_append, show commentStart.length = 3 from rfl] at total
  have none := List.all_eq_true.mp countDocLines_twoComments w.before.length (List.mem_range.mpr (by omega))
  rw [starts, Bool.not_true, Bool.false_or] at none
  have none := List.all_eq_true.mp none w.doc.length (List.mem_range.mpr (by omega))
  have text : (twoComments.drop (w.before.length + 3)).take w.doc.length = w.doc := by
    rw [show w.before.length + 3 = w.docStart from rfl, w.drop_docStart, List.take_left]
  rw [text, ← three, Bool.or_eq_true] at none
  exact none.elim (fun held => single (Text.holds_iff.mp held)) (by decide)

/-- The text that is counted for the function. -/
theorem documentation_reaches_declaration_twoComments :
    (Language.javascript = .javascript ∨ Language.javascript = .java) ∧ 1 ≤ (1 : Int) ∧
      ∃ found, violations twoComments 1 (.whole 1) "javascript" = .ok found ∧ found.map (·.line) = [some 4] ∧
        ∃ w : Passage (declaration javascriptPattern) twoComments, w.doc = " first\n */\n/** second ".toList := by
  have slashes : Language.javascript = .javascript ∨ Language.javascript = .java := .inl rfl
  have pos : 1 ≤ (1 : Int) := by decide
  refine ⟨slashes, pos, _, violations_twoComments, rfl, ?_⟩
  obtain ⟨found, run, each⟩ := documentation_reaches_declaration twoComments slashes pos (.whole 1)
  cases violations_twoComments.symm.trans run
  obtain ⟨r, h, known, hit, w, of, -⟩ := each _ List.mem_cons_self
  obtain rfl : javascriptPattern = r := Option.some.inj known
  have text := of_decide_eq_true (List.all_eq_true.mp measured_twoComments.2 h hit)
  exact ⟨w, Option.some.inj (of.doc.symm.trans text)⟩

/-! ## The next block -/

/-- A function as it is declared. -/
def functionForms : Regex :=
  .ofSource ("function\\s+\\w+\\s*\\([^)]*\\)" ++
    "|(?:const|let|var)\\s+\\w+\\s*=\\s*\\([^)]*\\)\\s*=>") .plain

theorem functionForms_known : (isPlain functionForms.node && reaches '(' '\x7b' functionForms.node) = true := by decide +kernel

/-- No function is declared between an offset and a brace. -/
def IsOwnBlock (content : List Char) (start opening : Nat) : Prop :=
  ∀ i, start ≤ i → i < opening → ¬ Begins functionForms.node (content.drop i)

/-- A search for declarations tells whether the block is its own. -/
theorem isOwnBlock_iff {content : List Char} {start opening : Nat} (le : start ≤ opening) :
    IsOwnBlock content start opening ↔
      ∀ h, functionForms.search? (content.drop start) = some h → opening - start ≤ h.start := by
  rw [search?_all_iff ((Bool.and_eq_true _ _).mp functionForms_known).1]
  simp only [List.drop_drop]
  constructor
  · intro own i less
    exact own (start + i) (Nat.le_add_right _ _) (by omega)
  · intro none i low high
    have := none (i - start) (by omega)
    rwa [Nat.add_sub_cancel' low] at this

/-- A declaration has its parenthesis before the brace. -/
theorem isOwnBlock_of_notMem {content : List Char} {start opening closing : Nat} (block : NextBlock content start opening closing)
    (none : '(' ∉ Text.slice content start opening) : IsOwnBlock content start opening := by
  intro i low high begins
  obtain ⟨u, v, eq, before⟩ := begins.split ((Bool.and_eq_true _ _).mp functionForms_known).2
  obtain ⟨after, opens⟩ := block.opens
  have here : (u ++ '(' :: v).drop (opening - i) = '\x7b' :: after := by
    rw [← opens, ← eq, List.drop_drop, Nat.add_sub_cancel' (Nat.le_of_lt high)]
  have inside : u.length < opening - i := by
    by_contra short
    rw [List.drop_append_of_le_length (Nat.not_lt.mp short)] at here
    cases left : u.drop (opening - i) with
    | nil => simp [left] at here
    | cons c _ =>
      rw [left] at here
      obtain ⟨rfl, -⟩ := List.cons.inj here
      exact before (List.mem_of_mem_drop (left ▸ List.mem_cons_self))
  refine none (List.mem_iff_getElem?.mpr ⟨i - start + u.length, ?_⟩)
  have there : (content.drop i)[u.length]? = some '(' := by simp [eq]
  rw [List.getElem?_drop] at there
  rw [Text.slice, List.getElem?_take_of_lt (by omega), List.getElem?_drop, ← there]
  congr 1
  omega

/-- The block that is measured is the next one behind the declaration, with no semicolon before it. It is that of the
declared function as long as no other is declared in between, which a search tells, and which holds where there is no
parenthesis. -/
theorem next_block_is_measured {content : List Char} {least : Int} {limit : Quantity} {found : List Violation}
    (run : violations content least limit "javascript" = .ok found) {v : Violation} (mem : v ∈ found) :
    ∃ h ∈ javascriptPattern.all content, ∃ w : Passage (declaration javascriptPattern) content, w.Of javascriptPattern h ∧
      ∃ opening closing, NextBlock content w.declStop opening closing ∧ w.Reports opening closing v ∧
        (IsOwnBlock content w.declStop opening ↔
          ∀ h, functionForms.search? (content.drop w.declStop) = some h → opening - w.declStop ≤ h.start) ∧
        ('(' ∉ Text.slice content w.declStop opening → IsOwnBlock content w.declStop opening) := by
  obtain ⟨h, hit, w, of, opening, closing, body, reports⟩ :=
    exists_reported (l := .javascript) (r := javascriptPattern) rfl isSlashed_javascript run mem
  rw [of.stop] at body
  have block := nextBlock_of_bodyAfter? body
  exact ⟨h, hit, w, of, opening, closing, block, reports, isOwnBlock_iff block.le, isOwnBlock_of_notMem block⟩

/-- A violation counts a block with no declaration of a function before it. -/
def CountsOwnBlock (r : Regex) (content : List Char) (v : Violation) : Prop :=
  ∃ h ∈ r.all content, ∃ w : Passage (declaration r) content, w.Of r h ∧ ∃ opening closing,
    NextBlock content w.declStop opening closing ∧ w.Reports opening closing v ∧ IsOwnBlock content w.declStop opening

/-- A function without braces, and another. -/
def neighbour : List Char :=
  "/** a\n * b */\nconst f = (x) => x\nfunction g() \x7b\n  h()\n\x7d\n".toList

theorem measured_neighbour : functions .javascript neighbour = [⟨3, "f", 2, 1⟩] ∧
    ((javascriptPattern.all neighbour).all fun h => h.stop = 30) = true := by
  decide +kernel

theorem violations_neighbour :
    violations neighbour 1 (.whole 1) "javascript" = .ok [toViolation (.whole 1) ⟨3, "f", 2, 1⟩] := by
  have javascript : Language.ofTag? "javascript" = some .javascript := by decide
  rw [violations_eq, inLanguage, javascript]
  simp only [measured_neighbour.1]
  rfl

theorem search_neighbour : functionForms.search? (neighbour.drop 30) = some ⟨3, 15, []⟩ := by decide +kernel

/-- The block of the other function is counted. -/
theorem block_of_neighbour_is_counted :
    ∃ v, violations neighbour 1 (.whole 1) "javascript" = .ok [v] ∧ ¬ CountsOwnBlock javascriptPattern neighbour v := by
  refine ⟨_, violations_neighbour, ?_⟩
  rintro ⟨h, hit, w, of, opening, closing, block, -, own⟩
  have stop : w.declStop = 30 := of.stop.symm.trans (of_decide_eq_true (List.all_eq_true.mp measured_neighbour.2 h hit))
  rw [isOwnBlock_iff block.le, stop] at own
  have le : opening - 30 ≤ 3 := own _ search_neighbour
  have none : ∀ i ≤ 33, (neighbour.drop i).head? ≠ some '\x7b' := by decide +kernel
  obtain ⟨rest, opens⟩ := block.opens
  exact none opening (by omega) (by rw [opens]; rfl)

/-- The function without braces is reported. -/
theorem next_block_is_measured_neighbour :
    ∃ found v, violations neighbour 1 (.whole 1) "javascript" = .ok found ∧ v ∈ found ∧ v.line = some 3 ∧
      ∃ w : Passage (declaration javascriptPattern) neighbour, ∃ opening closing,
        NextBlock neighbour w.declStop opening closing ∧ w.Reports opening closing v := by
  have mem : toViolation (.whole 1) ⟨3, "f", 2, 1⟩ ∈ [toViolation (.whole 1) ⟨3, "f", 2, 1⟩] := List.mem_cons_self
  obtain ⟨h, hit, w, of, opening, closing, block, reports, -⟩ := next_block_is_measured violations_neighbour mem
  exact ⟨_, _, violations_neighbour, mem, rfl, w, opening, closing, block, reports⟩

end Measure.Documentation

end CodeHygiene
