import CodeHygiene.Proofs.Docstrings

/-!
A line of comment between two lines of a text.

The bodies that two measures read are indented, and neither counts the lines of comment in them. But a line ends a body by
its indentation before it is looked at as a comment, and where a docstring is looked for only the line below the declaration
counts.

Proved:
(1) A line of comment declares nothing (`Documentation.declared?_of_hash`).
(2) What a body keeps of its lines is kept of one after the other (`Stub.indentedBody_append`), and so are the two counts of
    a function (`Documentation.docstring_append`, `Documentation.countCode_append`).
(3) A line of comment makes no difference to a stub where it is indented deeper than the declaration, or nothing of the body
    is left below it (`Stub.returned?_insert_iff`), and none to the counts of a function if it also stands below the
    docstring (`Documentation.counted?_insert_iff`).
(4) So what is reported of a text stays the same, by numbers one higher below the comment, exactly where this is so of
    every function above (`comment_is_passed_over`). A comment to the left ends the body
    (`comment_to_the_left_ends_body`).
-/

namespace CodeHygiene

namespace Measure

open Documentation (declared? tripleQuotes)

variable {comment : Line} {front after : List Line} {indent : Nat} {quote : List Char}

/-- The first character of the line that is not blank is a hash. -/
def IsHash (line : Line) : Prop := (Text.trimLeft line).head? = some '#'

instance (line : Line) : Decidable (IsHash line) := inferInstanceAs (Decidable (_ = _))

theorem IsHash.head?_trim (hash : IsHash comment) : (Text.trim comment).head? = some '#' := (Text.head?_trim comment).trans hash

theorem IsHash.trim_ne_nil (hash : IsHash comment) : Text.trim comment ≠ [] := by
  intro empty
  have first := hash.head?_trim
  rw [empty] at first
  cases first

theorem IsHash.isBlankLine (hash : IsHash comment) : Text.isBlankLine comment = false :=
  Text.isBlankLine_of_trim hash.trim_ne_nil

/-- No docstring opens on a line of comment. -/
theorem IsHash.find?_tripleQuotes (hash : IsHash comment) :
    tripleQuotes.find? (fun q => Text.startsWith q (Text.trim comment)) = none := by
  have heads : ∀ q ∈ tripleQuotes, q.head? ≠ some '#' ∧ q ≠ [] := by decide
  refine List.find?_eq_none.mpr fun q among opens => ?_
  obtain ⟨other, some⟩ := heads q among
  obtain ⟨behind, eq⟩ := Text.startsWith_iff.mp opens
  have first := hash.head?_trim
  rw [← eq, List.head?_append_of_ne_nil _ some] at first
  exact other first

namespace Documentation

theorem defPattern_reaches : Regex.reaches 'd' '#' defPattern.node = true := by decide +kernel

/-- A line of comment declares nothing: no hash stands before the keyword of a declaration. -/
theorem declared?_of_hash (hash : IsHash comment) : declared? comment = none := by
  cases found : defPattern.atStart? comment with
  | none => simp [declared?, found]
  | some h =>
    obtain ⟨u, v, keyword, clean⟩ := (Regex.begins_of_atStart? found).split defPattern_reaches
    obtain ⟨rest, eq⟩ := Text.exists_of_head?_trimLeft hash
    have blank : 'd' ∈ comment.takeWhile Text.isBlank := by
      rcases List.append_eq_append_iff.mp (eq.symm.trans keyword) with ⟨gap, behind, same⟩ | ⟨gap, before, same⟩
      · cases gap with
        | nil => cases same
        | cons x gap =>
          obtain ⟨rfl, -⟩ := List.cons.inj same
          exact absurd (behind ▸ List.mem_append_right _ List.mem_cons_self) clean
      · cases gap with
        | nil => cases same
        | cons x gap =>
          obtain ⟨rfl, -⟩ := List.cons.inj same
          exact before ▸ List.mem_append_right _ List.mem_cons_self
    exact absurd (List.mem_takeWhile_imp blank) (by decide)

/-! ## The counts of a function -/

/-- The quote of the docstring that the lines below a declaration begin with, where it goes on below them. -/
def openQuote? : List Line → Option (List Char)
  | [] => none
  | opening :: rest => (tripleQuotes.find? fun q => Text.startsWith q (Text.trim opening)).filter fun quote =>
      !closesAtOnce quote opening && !rest.any (Text.holds quote)

theorem mem_tripleQuotes_of_openQuote? (opened : openQuote? front = some quote) : quote ∈ tripleQuotes := by
  cases front with
  | nil => cases opened
  | cons opening rest => exact List.mem_of_find?_eq_some (Option.filter_eq_some_iff.mp opened).1

theorem docstringRest_append (quote : List Char) (front after : List Line) : docstringRest quote (front ++ after) =
    if front.any (Text.holds quote) then ((docstringRest quote front).1, (docstringRest quote front).2 ++ after)
    else ((docstringRest quote front).1 + (docstringRest quote after).1, (docstringRest quote after).2) := by
  induction front with
  | nil => simp [docstringRest]
  | cons line front ih =>
    rw [List.cons_append, docstringRest, docstringRest, ih, List.any_cons]
    cases Text.holds quote line with
    | true => rfl
    | false =>
      rw [Bool.false_or]
      cases front.any (Text.holds quote)
      · simp [Nat.add_assoc]
      · rfl

/-- A docstring that is closed does not reach further. -/
theorem docstring_append (some : front ≠ []) (closed : openQuote? front = none) :
    docstring (front ++ after) = ((docstring front).1, (docstring front).2 ++ after) := by
  obtain ⟨opening, rest, rfl⟩ := List.exists_cons_of_ne_nil some
  rw [openQuote?] at closed
  cases opens : tripleQuotes.find? fun q => Text.startsWith q (Text.trim opening) with
  | none => rw [List.cons_append, docstring_of_none opens, docstring_of_none opens, List.cons_append]
  | some quote =>
    rw [List.cons_append, docstring_of_some opens, docstring_of_some opens]
    cases atOnce : closesAtOnce quote opening with
    | true => rfl
    | false =>
      have again : rest.any (Text.holds quote) = true := by simpa [opens, atOnce] using closed
      rw [docstringRest_append, again]
      rfl

/-- One that is open takes in a line of comment without its quote. -/
theorem docstring_append_of_openQuote? (opened : openQuote? front = some quote) (hash : IsHash comment)
    (clean : Text.holds quote comment = false) (after : List Line) :
    (docstring (front ++ comment :: after)).1 = (docstring (front ++ after)).1 + 1 ∧ (docstring (front ++ after)).1 ≠ 0 := by
  cases front with
  | nil => cases opened
  | cons opening rest =>
    obtain ⟨opens, goesOn⟩ := Option.filter_eq_some_iff.mp opened
    simp only [Bool.and_eq_true, Bool.not_eq_true'] at goesOn
    rw [List.cons_append, List.cons_append, docstring_of_some opens, docstring_of_some opens, goesOn.1, docstringRest_append,
      docstringRest_append, goesOn.2, docstringRest, clean, hash.isBlankLine]
    simp only [Bool.false_eq_true, if_false]
    omega

theorem countCode_append (indent : Nat) (front after : List Line) : countCode indent (front ++ after) =
    countCode indent front + if front.all (isInside indent) then countCode indent after else 0 := by
  rw [countCode, countCode, countCode]
  induction front with
  | nil => simp
  | cons line front ih =>
    rw [List.cons_append, List.takeWhile_cons, List.takeWhile_cons, List.all_cons]
    cases isInside indent line with
    | true => simp only [if_true, List.countP_cons, ih, Bool.true_and, Nat.add_right_comm]
    | false => simp

theorem countCode_hash (indent : Nat) (hash : IsHash comment) (after : List Line) :
    countCode indent (comment :: after) = if indent < Text.indentation comment then countCode indent after else 0 := by
  rw [countCode, countCode, List.takeWhile_cons, isInside, hash.isBlankLine, Bool.false_or]
  by_cases deeper : indent < Text.indentation comment
  · simp [deeper, hash.head?_trim]
  · simp [deeper]

/-- The comment stands below the docstring of a function, and does not end its code: it is deeper, or no code is left. -/
def KeepsCounts (indent : Nat) (front : List Line) (comment : Line) (after : List Line) : Prop :=
  (front = [] → (docstring after).1 = 0) ∧ openQuote? front = none ∧
    ((docstring front).1 = 0 ∨ ¬ (docstring front).2.all (isInside indent) = true ∨ indent < Text.indentation comment ∨
      countCode indent after = 0)

theorem counted?_insert_iff (indent : Nat) (hash : IsHash comment)
    (leaves : ∀ quote, openQuote? front = some quote → Text.holds quote comment = false) :
    counted? indent (front ++ comment :: after) = counted? indent (front ++ after) ↔ KeepsCounts indent front comment after := by
  rw [counted?, counted?, KeepsCounts]
  by_cases empty : front = []
  · subst empty
    have none : docstring [] = (0, []) := rfl
    rw [List.nil_append, List.nil_append, docstring_of_none hash.find?_tripleQuotes]
    by_cases silent : (docstring after).1 = 0 <;> simp [silent, none, openQuote?]
  · cases opened : openQuote? front with
    | some quote =>
      obtain ⟨more, some⟩ := docstring_append_of_openQuote? opened hash (leaves quote opened) after
      simp [more, some]
    | none =>
      rw [docstring_append empty opened, docstring_append empty opened, countCode_append, countCode_append,
        countCode_hash indent hash]
      by_cases none : (docstring front).1 = 0
      · simp [none, empty]
      · cases (docstring front).2.all (isInside indent)
        · simp [empty]
        · by_cases deeper : indent < Text.indentation comment <;> simp [none, empty, deeper]

end Documentation

/-! ## The body of a stub -/

namespace Stub

/-- What a line does to a body that is read, when it does not end it: which docstring is open below it, and what is kept of
it. -/
def read (indent : Nat) (quote : Option (List Char)) (raw : Line) : Option (Option (List Char) × Option Line) :=
  let line := Text.trim raw
  if line.isEmpty then some (quote, none)
  else match quote with
    | some q => some (if Text.holds q line then none else some q, none)
    | none =>
      if Text.indentation raw ≤ indent then none
      else if line.head? = some '#' then some (none, none)
      else match tripleQuotes.find? fun q => Text.startsWith q line with
        | some q => some (if Text.holds q (line.drop q.length) then none else some q, none)
        | none => some (none, some line)

theorem indentedBody_cons (indent : Nat) (quote : Option (List Char)) (raw : Line) (rest : List Line) :
    indentedBody indent quote (raw :: rest) =
      (read indent quote raw).elim [] fun next => next.2.toList ++ indentedBody indent next.1 rest := by
  rw [indentedBody.eq_def, read.eq_def]
  simp only
  cases (Text.trim raw).isEmpty with
  | true => rfl
  | false =>
    cases quote with
    | some q => rfl
    | none =>
      by_cases left : Text.indentation raw ≤ indent
      · simp [left]
      · by_cases hash : (Text.trim raw).head? = some '#'
        · simp [left, hash]
        · simp only [left, hash, if_false, Bool.false_eq_true]
          cases tripleQuotes.find? fun q => Text.startsWith q (Text.trim raw) <;> rfl

/-- Which docstring is open below the lines of a body, where they do not end it. -/
def standing (indent : Nat) : Option (List Char) → List Line → Option (Option (List Char))
  | quote, [] => some quote
  | quote, raw :: rest => (read indent quote raw).bind fun next => standing indent next.1 rest

/-- Lines are read after those before them, with the docstring that these leave open. -/
theorem indentedBody_append (indent : Nat) (quote : Option (List Char)) (front after : List Line) :
    indentedBody indent quote (front ++ after) =
      indentedBody indent quote front ++ (standing indent quote front).elim [] (indentedBody indent · after) := by
  induction front generalizing quote with
  | nil => rfl
  | cons raw rest ih =>
    rw [List.cons_append, indentedBody_cons, indentedBody_cons, standing]
    cases read indent quote raw with
    | none => rfl
    | some next => simp [ih]

/-- What a line opens is a docstring. -/
theorem mem_tripleQuotes_of_read {start : Option (List Char)} {raw : Line} {kept : Option Line}
    (reads : read indent start raw = some (some quote, kept)) : start = some quote ∨ quote ∈ tripleQuotes := by
  rw [read.eq_def] at reads
  simp only at reads
  split at reads
  next =>
    cases reads
    exact .inl rfl
  next =>
    cases start with
    | some q =>
      obtain ⟨same, -⟩ := Prod.mk.inj (Option.some.inj reads)
      split at same <;> cases same
      exact .inl rfl
    | none =>
      simp only at reads
      split at reads
      next => cases reads
      split at reads
      next => cases reads
      cases opens : tripleQuotes.find? fun q => Text.startsWith q (Text.trim raw) with
      | none => simp [opens] at reads
      | some q =>
        rw [opens] at reads
        obtain ⟨same, -⟩ := Prod.mk.inj (Option.some.inj reads)
        split at same <;> cases same
        exact .inr (List.mem_of_find?_eq_some opens)

theorem mem_tripleQuotes_of_standing {lines : List Line} {start : Option (List Char)}
    (stands : standing indent start lines = some (some quote)) (among : ∀ q, start = some q → q ∈ tripleQuotes) :
    quote ∈ tripleQuotes := by
  induction lines generalizing start with
  | nil => exact among quote (Option.some.inj stands)
  | cons raw rest ih =>
    obtain ⟨⟨next, kept⟩, reads, stands⟩ := Option.bind_eq_some_iff.mp stands
    refine ih stands fun q eq => ?_
    subst eq
    exact (mem_tripleQuotes_of_read reads).elim (among q) id

/-- A line of comment is passed over, or ends the body. -/
theorem indentedBody_hash (indent : Nat) (hash : IsHash comment) (after : List Line) :
    indentedBody indent none (comment :: after) =
      if indent < Text.indentation comment then indentedBody indent none after else [] := by
  have some : (Text.trim comment).isEmpty = false := by simpa using hash.trim_ne_nil
  rw [indentedBody_cons, read, some, hash.head?_trim]
  by_cases deeper : indent < Text.indentation comment
  · simp [deeper, Nat.not_le.mpr deeper]
  · simp [deeper, Nat.not_lt.mp deeper]

/-- In a docstring that it does not close it is passed over. -/
theorem indentedBody_hash_quoted (indent : Nat) (hash : IsHash comment) (clean : Text.holds quote comment = false)
    (after : List Line) : indentedBody indent (some quote) (comment :: after) = indentedBody indent (some quote) after := by
  have some : (Text.trim comment).isEmpty = false := by simpa using hash.trim_ne_nil
  have inner : Text.holds quote (Text.trim comment) = false := by
    by_contra holds
    have held := (Text.holds_iff.mp (Bool.not_eq_false _ ▸ holds)).trans (Text.trim_infix comment)
    rw [Text.holds_iff.mpr held] at clean
    cases clean
  rw [indentedBody_cons, read, some, inner]
  rfl

/-- More lines make a difference unless there are none, or the body is a placeholder neither way. -/
theorem placeholder?_append_iff (body more : List Line) : placeholder? body = placeholder? (body ++ more) ↔
    more = [] ∨ placeholder? body = none ∧ placeholder? (body ++ more) = none := by
  rcases more with _ | ⟨line, more⟩
  · simp
  · rcases body with _ | ⟨first, _ | ⟨second, body⟩⟩ <;> simp [placeholder?, eq_comm]

/-- The comment does not end the body: it stands below its end or in a docstring, or is deeper, or nothing of the body is
left; or the function is a stub neither way. -/
def KeepsPlaceholder (indent : Nat) (front : List Line) (comment : Line) (after : List Line) : Prop :=
  standing indent none front ≠ some none ∨ indent < Text.indentation comment ∨ indentedBody indent none after = [] ∨
    placeholder? (indentedBody indent none front) = none ∧ placeholder? (indentedBody indent none (front ++ after)) = none

theorem returned?_insert_iff (indent : Nat) (hash : IsHash comment)
    (leaves : ∀ quote, standing indent none front = some (some quote) → Text.holds quote comment = false) :
    returned? indent (front ++ comment :: after) = returned? indent (front ++ after) ↔
      KeepsPlaceholder indent front comment after := by
  rw [returned?, returned?, KeepsPlaceholder, indentedBody_append, indentedBody_append indent none front after]
  cases stands : standing indent none front with
  | none => simp
  | some state =>
    cases state with
    | some quote => simp [indentedBody_hash_quoted indent hash (leaves quote stands)]
    | none =>
      simp only [Option.elim_some, indentedBody_hash indent hash]
      by_cases deeper : indent < Text.indentation comment
      · simp [deeper]
      · simp [deeper, placeholder?_append_iff]

end Stub

/-! ## Functions above a line -/

/-- A function that is declared among the lines. -/
structure DeclaredIn (lines : List Line) where
  above : List Line
  line : Line
  front : List Line
  indent : Nat
  name : String
  split : lines = above ++ line :: front
  declares : declared? line = some (indent, name)

/-- A line below the function holds the quote of no docstring that is open there. -/
structure DeclaredIn.LeavesQuotes {before : List Line} (f : DeclaredIn before) (comment : Line) : Prop where
  documentation : ∀ quote, Documentation.openQuote? f.front = some quote → Text.holds quote comment = false
  stub : ∀ quote, Stub.standing f.indent none f.front = some (some quote) → Text.holds quote comment = false

/-- The comment makes no difference to what is told of a text, by its lines, exactly where it makes none to what is measured
of any function above it. -/
theorem told_insert_iff {α β : Type} {measure? : Nat → List Line → Option α} {before : List Line} (hash : IsHash comment)
    {g : Nat × String × α → β} (injective : Function.Injective g) {move : β → β}
    (moves : ∀ e, move (g e) = g (shiftFrom (before.length + 1) e)) :
    (numbered (told measure?) 1 (before ++ comment :: after)).map g =
        ((numbered (told measure?) 1 (before ++ after)).map g).map move ↔
      ∀ f : DeclaredIn before, measure? f.indent (f.front ++ comment :: after) = measure? f.indent (f.front ++ after) := by
  have silent : told measure? comment after = none := by
    rw [told, Documentation.declared?_of_hash hash]
    rfl
  have moved : ((numbered (told measure?) 1 (before ++ after)).map g).map move =
      ((numbered (told measure?) 1 (before ++ after)).map (shiftFrom (before.length + 1))).map g := by
    rw [List.map_map, List.map_map]
    exact List.map_congr_left fun e _ => moves e
  have each (f : DeclaredIn before) : told measure? f.line (f.front ++ comment :: after) = told measure? f.line (f.front ++ after) ↔
      measure? f.indent (f.front ++ comment :: after) = measure? f.indent (f.front ++ after) := by
    rw [told, told, f.declares, Option.bind_some, Option.bind_some]
    exact (Option.map_injective (Prod.mk_right_injective f.name)).eq_iff
  rw [moved, (List.map_injective_iff.mpr injective).eq_iff, numbered_insert_iff 1 before after silent]
  constructor
  · exact fun same f => (each f).mp (same f.above f.line f.front f.split)
  · intro same above line front split
    cases declares : declared? line with
    | none =>
      rw [told, told, declares]
      rfl
    | some function => exact (each ⟨above, line, front, function.1, function.2, split, declares⟩).mpr (same _)

/-- A comment without a triple quote closes no docstring. -/
theorem DeclaredIn.leavesQuotes_of_clean {before : List Line} (clean : ∀ quote ∈ tripleQuotes, Text.holds quote comment = false)
    (f : DeclaredIn before) : f.LeavesQuotes comment where
  documentation quote opened := clean quote (Documentation.mem_tripleQuotes_of_openQuote? opened)
  stub quote stands := clean quote (Stub.mem_tripleQuotes_of_standing stands nofun)

end Measure

/-- What is reported below a line is reported one line further down. -/
def Violation.movedBelow (k : Nat) (v : Violation) : Violation :=
  { v with line := v.line.map fun n => if Int.ofNat k < n then n + 1 else n }

theorem Int.ofNat_movedBelow (k n : Nat) :
    Int.ofNat (if k < n then n + 1 else n) = if Int.ofNat k < Int.ofNat n then Int.ofNat n + 1 else Int.ofNat n := by
  by_cases lower : k < n <;> simp [lower]

namespace Measure

open Documentation (declared?)

variable {comment : Line} {before after : List Line} {content content' : List Char}

namespace Documentation

/-- A function that is declared below a line is declared one line further down. -/
def Documented.movedBelow (k : Nat) (d : Documented) : Documented := { d with line := if k < d.line then d.line + 1 else d.line }

theorem toViolation_movedBelow (limit : Quantity) (k : Nat) (d : Documented) :
    toViolation limit (d.movedBelow k) = (toViolation limit d).movedBelow k :=
  congrArg (fun n => { toViolation limit d with line := some n }) (Int.ofNat_movedBelow k d.line)

theorem functions_insert_iff (lines : Text.lines content = before ++ after)
    (lines' : Text.lines content' = before ++ comment :: after) (hash : IsHash comment)
    (leaves : ∀ f : DeclaredIn before, f.LeavesQuotes comment) :
    functions .python content' = (functions .python content).map (Documented.movedBelow before.length) ↔
      ∀ f : DeclaredIn before, KeepsCounts f.indent f.front comment after := by
  rw [functions_eq_of_lines lines, functions_eq_of_lines lines',
    told_insert_iff hash Documented.ofTold_injective fun e => rfl]
  exact forall_congr' fun f => counted?_insert_iff f.indent hash (leaves f).documentation

/-- Functions that are the same up to their lines are reported alike. -/
theorem violations_movedBelow {k : Nat}
    (same : functions .python content' = (functions .python content).map (Documented.movedBelow k)) (least : Int) (limit : Quantity) :
    violations content' least limit "python" = (violations content least limit "python").map (List.map (Violation.movedBelow k)) := by
  have python : Language.ofTag? "python" = some .python := by decide
  have counts (d : Documented) : (d.movedBelow k).docLines = d.docLines ∧ (d.movedBelow k).codeLines = d.codeLines := ⟨rfl, rfl⟩
  rw [violations, violations, python]
  simp only [same, select_map Documented.docLines Documented.codeLines counts]
  cases select Documented.docLines Documented.codeLines least limit (functions .python content) with
  | error fault => rfl
  | ok chosen =>
    refine congrArg Except.ok ?_
    show (chosen.map (Documented.movedBelow k)).map (toViolation limit) = (chosen.map (toViolation limit)).map (Violation.movedBelow k)
    rw [List.map_map, List.map_map]
    exact List.map_congr_left fun d _ => toViolation_movedBelow limit k d

end Documentation

namespace Stub

theorem report_injective : Function.Injective report := by
  rintro ⟨n, name, returned, only⟩ ⟨n', name', returned', only'⟩ same
  simp [report] at same
  obtain ⟨value, ⟨rfl, rfl⟩, rfl⟩ := same
  obtain rfl : only = only' := by simpa using value
  rfl

theorem report_shiftFrom (k : Nat) (e : Nat × String × String × String) : report (shiftFrom (k + 1) e) = (report e).movedBelow k :=
  congrArg (fun n => { report e with line := some n }) (Int.ofNat_movedBelow k e.1)

theorem unmarked_violations (lines : Text.lines content = before) :
    (violations content "python").map unmarked = (numbered (told returned?) 1 before).map report := by
  have python : Language.ofTag? "python" = some .python := by decide
  rw [← indentedStubs_eq, ← lines, violations, python]
  exact List.map_map

theorem violations_insert_iff (lines : Text.lines content = before ++ after)
    (lines' : Text.lines content' = before ++ comment :: after) (hash : IsHash comment)
    (leaves : ∀ f : DeclaredIn before, f.LeavesQuotes comment) :
    (violations content' "python").map unmarked =
        ((violations content "python").map unmarked).map (Violation.movedBelow before.length) ↔
      ∀ f : DeclaredIn before, KeepsPlaceholder f.indent f.front comment after := by
  rw [unmarked_violations lines, unmarked_violations lines',
    told_insert_iff hash report_injective fun e => (report_shiftFrom before.length e).symm]
  exact forall_congr' fun f => returned?_insert_iff f.indent hash (leaves f).stub

end Stub

/-! ## Reports -/

/-- A line of comment is put between two lines of a text, and closes no docstring. Then, apart from whether work is left, the
same stubs with the same values are reported, by lines one higher below the comment, exactly where the comment ends no body
of a function above it or it makes no difference to the stub that it does. The same functions are found with the same
counts exactly where, for each function above it, it also stands below the docstring and ends no code. Then the same
are reported under any thresholds. -/
theorem comment_is_passed_over (lines : Text.lines content = before ++ after)
    (lines' : Text.lines content' = before ++ comment :: after) (hash : IsHash comment)
    (leaves : ∀ f : DeclaredIn before, f.LeavesQuotes comment) :
    ((Stub.violations content' "python").map Stub.unmarked =
        ((Stub.violations content "python").map Stub.unmarked).map (Violation.movedBelow before.length) ↔
      ∀ f : DeclaredIn before, Stub.KeepsPlaceholder f.indent f.front comment after) ∧
    (Documentation.functions .python content' =
        (Documentation.functions .python content).map (Documentation.Documented.movedBelow before.length) ↔
      ∀ f : DeclaredIn before, Documentation.KeepsCounts f.indent f.front comment after) ∧
    ((∀ f : DeclaredIn before, Documentation.KeepsCounts f.indent f.front comment after) → ∀ least limit,
      Documentation.violations content' least limit "python" =
        (Documentation.violations content least limit "python").map (List.map (Violation.movedBelow before.length))) := by
  have functions := Documentation.functions_insert_iff lines lines' hash leaves
  refine ⟨Stub.violations_insert_iff lines lines' hash leaves, functions, fun keeps least limit => ?_⟩
  exact Documentation.violations_movedBelow (functions.mpr keeps) least limit

/-- A function with a docstring, and its first line of code. -/
def upToPass : List Line := ["def f():".toList, "  '''d'''".toList, "  pass".toList]

/-- It has another line of code. -/
def documentedPass : List Char := "def f():\n  '''d'''\n  pass\n  x".toList

/-- The function is the only one above its last line. -/
theorem front_of_documentedPass (f : DeclaredIn upToPass) :
    f.indent = 0 ∧ f.front = ["  '''d'''".toList, "  pass".toList] := by
  have first : declared? "def f():".toList = some (0, "f") := by decide +kernel
  have second : declared? "  '''d'''".toList = none := by decide +kernel
  have third : declared? "  pass".toList = none := by decide +kernel
  obtain ⟨above, line, front, indent, name, split, declares⟩ := f
  rcases above with _ | ⟨_, _ | ⟨_, _ | ⟨_, above⟩⟩⟩
  · cases split
    cases first.symm.trans declares
    exact ⟨rfl, rfl⟩
  · cases split
    cases second.symm.trans declares
  · cases split
    cases third.symm.trans declares
  · simp [upToPass] at split

theorem functions_documentedPass : Documentation.functions .python documentedPass = [⟨1, "f", 1, 2⟩] := by decide +kernel

/-- A deeper comment makes no difference. -/
theorem comment_is_passed_over_deeper :
    Text.lines documentedPass = upToPass ++ ["  x".toList] ∧
      IsHash "    # c".toList ∧
      Documentation.functions .python "def f():\n  '''d'''\n  pass\n    # c\n  x".toList = [⟨1, "f", 1, 2⟩] := by
  have lines : Text.lines documentedPass = upToPass ++ ["  x".toList] := by decide
  have lines' : Text.lines "def f():\n  '''d'''\n  pass\n    # c\n  x".toList = upToPass ++ "    # c".toList :: ["  x".toList] := by decide
  have hash : IsHash "    # c".toList := by decide
  have leaves (f : DeclaredIn upToPass) : f.LeavesQuotes "    # c".toList := DeclaredIn.leavesQuotes_of_clean (by decide) f
  have keeps (f : DeclaredIn upToPass) : Documentation.KeepsCounts f.indent f.front "    # c".toList ["  x".toList] := by
    obtain ⟨indent, front⟩ := front_of_documentedPass f
    rw [indent, front]
    exact ⟨nofun, by decide, .inr (.inr (.inl (by decide)))⟩
  refine ⟨lines, hash, ?_⟩
  rw [(comment_is_passed_over lines lines' hash leaves).2.1.mpr keeps, functions_documentedPass]
  decide

/-- One to the left ends the body: the function is reported as a stub that it is not without the comment, and has a line of
code less. No docstring is open where the comment stands. -/
theorem comment_to_the_left_ends_body :
    Text.lines documentedPass = upToPass ++ ["  x".toList] ∧
      Text.lines "def f():\n  '''d'''\n  pass\n# c\n  x".toList =
        upToPass ++ "# c".toList :: ["  x".toList] ∧
      IsHash "# c".toList ∧
      (∀ f : DeclaredIn upToPass, Documentation.openQuote? f.front = none ∧ Stub.standing f.indent none f.front = some none) ∧
      (Stub.violations documentedPass "python").map Stub.unmarked = [] ∧
      (Stub.violations "def f():\n  '''d'''\n  pass\n# c\n  x".toList "python").map Stub.unmarked =
        [Stub.report (1, "f", "pass", "pass")] ∧
      Documentation.functions .python documentedPass = [⟨1, "f", 1, 2⟩] ∧
      Documentation.functions .python "def f():\n  '''d'''\n  pass\n# c\n  x".toList = [⟨1, "f", 1, 1⟩] := by
  refine ⟨by decide, by decide, by decide, fun f => ?_, ?_, ?_, functions_documentedPass, by decide +kernel⟩
  · obtain ⟨indent, front⟩ := front_of_documentedPass f
    rw [indent, front]
    exact ⟨by decide, by decide⟩
  · rw [Stub.unmarked_violations rfl, List.map_eq_nil_iff]
    decide +kernel
  · have told : numbered (told Stub.returned?) 1 (Text.lines "def f():\n  '''d'''\n  pass\n# c\n  x".toList) =
        [(1, "f", "pass", "pass")] := by decide +kernel
    rw [Stub.unmarked_violations rfl, told]
    rfl

end Measure

end CodeHygiene
