import CodeHygiene.Proofs.LineEndings
import CodeHygiene.Proofs.Position
import CodeHygiene.Proofs.Runs

/-!
What the rule on blank lines reports.

A match takes three lines of spaces and tabs, each with the line feed that ends it, and the next one is looked for behind
it. So a run of such lines is cut into threes from its first line on, and what is left at its end is passed over.

Proved:
(1) A search that stands at the start of a line finds a match at the first of three such lines, and otherwise passes over
    the line (`matchAt?_isSome_iff`, `firstAt_of_line`); so the matches from there on are where the marks of the lines
    are cut into threes (`places_allFrom`).
(2) Marks cut into threes are the maximal runs, each cut from its first line on (`threes_eq`).
(3) With a table of distinct names, the findings of a rule for every language are what it finds with its pattern, whatever
    the other rules find (`filter_analysis`).
(4) So the rule reports each maximal run once for every three lines of it, in order (`blank_runs_are_reported`).
-/

namespace CodeHygiene

/-! ## Lines of spaces and tabs -/

namespace Text

/-- Nothing but spaces and tabs. -/
def isBare (line : List Char) : Bool := line.all fun c => c = ' ' || c = '\t'

/-- Which of the lines that end in a line feed hold nothing but spaces and tabs. -/
def bareMarks (text : List Char) : List Bool := (lines text).dropLast.map isBare

theorem isBare_iff {line : List Char} : isBare line = true ↔ ∀ c ∈ line, c = ' ' ∨ c = '\t' := by simp [isBare]

theorem not_mem_of_bare {line : List Char} (bare : ∀ c ∈ line, c = ' ' ∨ c = '\t') : '\n' ∉ line := by
  intro feed
  rcases bare '\n' feed with no | no <;> exact absurd no (by decide)

theorem bareMarks_of_clean {line : List Char} (clean : '\n' ∉ line) : bareMarks line = [] := by
  rw [bareMarks, lines_of_clean clean]
  rfl

theorem bareMarks_line {line : List Char} (clean : '\n' ∉ line) (rest : List Char) :
    bareMarks (line ++ '\n' :: rest) = isBare line :: bareMarks rest := by
  rw [bareMarks, lines_line clean, List.dropLast_cons_of_ne_nil (lines_ne_nil rest)]
  rfl

/-- A text is its last line, or a line and what stands behind its line feed. -/
theorem exists_line (text : List Char) :
    '\n' ∉ text ∨ ∃ line rest, text = line ++ '\n' :: rest ∧ '\n' ∉ line := by
  induction text with
  | nil => exact .inl List.not_mem_nil
  | cons c text ih =>
    by_cases feed : c = '\n'
    · exact .inr ⟨[], text, by rw [feed]; rfl, List.not_mem_nil⟩
    · rcases ih with clean | ⟨line, rest, rfl, clean⟩
      · exact .inl (by simp [Ne.symm feed, clean])
      · exact .inr ⟨c :: line, rest, rfl, by simp [Ne.symm feed, clean]⟩

/-- Three bare lines are the first marks of a text exactly when it begins with them. -/
theorem bareMarks_eq_threes_iff {text : List Char} {marks : List Bool} :
    bareMarks text = true :: true :: true :: marks ↔
      ∃ a b c rest, text = a ++ '\n' :: (b ++ '\n' :: (c ++ '\n' :: rest)) ∧
        (∀ line ∈ [a, b, c], ∀ x ∈ line, x = ' ' ∨ x = '\t') ∧ bareMarks rest = marks := by
  have first {text : List Char} {marks : List Bool} (eq : bareMarks text = true :: marks) :
      ∃ line rest, text = line ++ '\n' :: rest ∧ (∀ x ∈ line, x = ' ' ∨ x = '\t') ∧ bareMarks rest = marks := by
    rcases exists_line text with clean | ⟨line, rest, rfl, clean⟩
    · rw [bareMarks_of_clean clean] at eq
      cases eq
    · rw [bareMarks_line clean] at eq
      obtain ⟨bare, same⟩ := List.cons.inj eq
      exact ⟨line, rest, rfl, isBare_iff.mp bare, same⟩
  constructor
  · intro eq
    obtain ⟨a, rest, rfl, bare, eq⟩ := first eq
    obtain ⟨b, rest, rfl, bare', eq⟩ := first eq
    obtain ⟨c, rest, rfl, bare'', eq⟩ := first eq
    exact ⟨a, b, c, rest, rfl, by simpa using ⟨bare, bare', bare''⟩, eq⟩
  · rintro ⟨a, b, c, rest, rfl, bare, rfl⟩
    have marked {line : List Char} (mem : line ∈ [a, b, c]) (rest : List Char) :
        bareMarks (line ++ '\n' :: rest) = true :: bareMarks rest := by
      rw [bareMarks_line (not_mem_of_bare (bare line mem)), isBare_iff.mpr (bare line mem)]
    rw [marked (by simp), marked (by simp), marked (by simp)]

theorem trim_of_bare {line : List Char} (bare : isBare line = true) : trim line = [] := by
  refine trim_of_blank (List.all_eq_true.mpr fun c mem => ?_)
  rcases isBare_iff.mp bare c mem with rfl | rfl <;> decide

end Text

/-! ## Marks cut into threes -/

namespace Scan

/-- The numbers of the lines where three marked lines begin, from the line `number` on; the next three are looked for
behind them. -/
def threes (number : Nat) : List Bool → List Nat
  | true :: true :: true :: rest => number :: threes (number + 3) rest
  | _ :: rest => threes (number + 1) rest
  | [] => []

/-- The first line of every three in a run. -/
def Run.threes (run : Run) : List Nat := (List.range (run.count / 3)).map (run.first + 3 * ·)

theorem threes_skip {number : Nat} {mark : Bool} {marks : List Bool}
    (other : ∀ rest, mark :: marks ≠ true :: true :: true :: rest) :
    threes number (mark :: marks) = threes (number + 1) marks := by
  rw [threes]
  rintro rest rfl rfl
  exact other rest rfl

/-- Three lines more at the start of a run. -/
theorem Run.threes_cons (first count : Nat) : Run.threes ⟨first, count + 3⟩ = first :: Run.threes ⟨first + 3, count⟩ := by
  have more : (count + 3) / 3 = count / 3 + 1 := Nat.add_div_right count (by decide)
  have shift (i : Nat) : first + 3 * (i + 1) = first + 3 + 3 * i := by omega
  simp only [Run.threes, more, List.range_succ_eq_map, List.map_cons, List.map_map, Function.comp_def, Nat.succ_eq_add_one,
    shift, Nat.mul_zero, Nat.add_zero]

theorem Run.threes_of_lt {run : Run} (short : run.count < 3) : run.threes = [] := by
  rw [Run.threes, Nat.div_eq_of_lt short]
  rfl

theorem flatMap_runBefore_of_lt {number count : Nat} (few : count < 3) :
    (runBefore number count).flatMap Run.threes = [] := by
  rw [runBefore]
  split
  next => rfl
  next => rw [List.flatMap_cons, Run.threes_of_lt few]; rfl

theorem flatMap_runBefore_add_three {number count : Nat} (fewer : count + 3 ≤ number) :
    (runBefore number (count + 3)).flatMap Run.threes =
      (number - count - 3) :: (runBefore number count).flatMap Run.threes := by
  have first : number - (count + 3) = number - count - 3 := by omega
  have second : number - count - 3 + 3 = number - count := by omega
  rw [runBefore, if_neg (by omega), List.flatMap_cons, List.flatMap_nil, List.append_nil, Run.threes_cons, first, second]
  rw [runBefore]
  split
  next zero => rw [Run.threes_of_lt (show count < 3 by omega)]; rfl
  next => rw [List.flatMap_cons, List.flatMap_nil, List.append_nil]

/-- Of three marked lines that stand right before a line, the first is told at once. -/
theorem flatMap_runsFrom_add_three {number count : Nat} (fewer : count + 3 ≤ number) (marks : List Bool) :
    (runsFrom number (count + 3) marks).flatMap Run.threes =
      (number - count - 3) :: (runsFrom number count marks).flatMap Run.threes := by
  -- the run that is open is closed by the same mark, with three lines more or without them
  induction marks generalizing number count with
  | nil => exact flatMap_runBefore_add_three fewer
  | cons mark marks ih =>
    cases mark with
    | true =>
      have same : number + 1 - (count + 1) - 3 = number - count - 3 := by omega
      have next : (runsFrom (number + 1) (count + 1 + 3) marks).flatMap Run.threes =
          (number + 1 - (count + 1) - 3) :: (runsFrom (number + 1) (count + 1) marks).flatMap Run.threes := ih (by omega)
      rwa [same] at next
    | false =>
      simp only [runsFrom, List.flatMap_append, flatMap_runBefore_add_three fewer, List.cons_append]

/-- One marked line or two are too few. -/
theorem flatMap_runsFrom_skip {number : Nat} {mark : Bool} {marks : List Bool}
    (other : ∀ rest, mark :: marks ≠ true :: true :: true :: rest) :
    (runsFrom number 0 (mark :: marks)).flatMap Run.threes = (runsFrom (number + 1) 0 marks).flatMap Run.threes := by
  rcases mark with - | -
  · rfl
  · rcases marks with - | ⟨- | -, - | ⟨- | -, rest⟩⟩
    case true.cons.true.cons.true => exact absurd rfl (other rest)
    all_goals simp only [runsFrom, List.flatMap_append, flatMap_runBefore_of_lt, Nat.reduceAdd, Nat.reduceLT, List.nil_append]

/-- Marks cut into threes are the maximal runs, each cut from its first line on. -/
theorem threes_eq (number : Nat) (marks : List Bool) :
    threes number marks = (runsFrom number 0 marks).flatMap Run.threes := by
  induction number, marks using threes.induct with
  | case1 number rest ih =>
    have told : (runsFrom (number + 3) (0 + 3) rest).flatMap Run.threes =
        (number + 3 - 0 - 3) :: (runsFrom (number + 3) 0 rest).flatMap Run.threes :=
      flatMap_runsFrom_add_three (by omega) rest
    rw [threes, ih]
    exact told.symm
  | case2 number mark rest other ih =>
    have apart (more : List Bool) (same : mark :: rest = true :: true :: true :: more) : False :=
      other more (List.cons.inj same).1 (List.cons.inj same).2
    rw [threes_skip apart, flatMap_runsFrom_skip apart, ih]
  | case3 number => rfl

theorem le_of_mem_threes {run : Run} {n : Nat} (mem : n ∈ run.threes) : run.first ≤ n ∧ n + 2 < run.first + run.count := by
  obtain ⟨i, inside, rfl⟩ := List.mem_map.mp mem
  have lt := List.mem_range.mp inside
  omega

theorem pairwise_threes (run : Run) : run.threes.Pairwise (· < ·) := by
  rw [Run.threes, List.pairwise_map]
  exact List.pairwise_lt_range.imp fun lt => by omega

end Scan

/-! ## Matches -/

namespace Text

/-- Behind the last line feed before an offset stands nothing. -/
theorem columnAt_of_lineStart {text : List Char} {offset : Nat}
    (starts : ((text.take offset).getLast?).all (· = '\n') = true) : columnAt text offset = 1 := by
  rw [columnAt]
  rcases List.eq_nil_or_concat (text.take offset) with empty | ⟨before, c, eq⟩
  · rw [empty]
    rfl
  · rw [eq] at starts ⊢
    obtain rfl : c = '\n' := by simpa using starts
    simp

end Text

namespace Regex

variable {content : List Char} {p q : Place}

/-- The line goes up with every line feed that is passed. -/
theorem lineAt_leads {passed : List Char} (inside : p.In content) (leads : p.Leads passed q) :
    Text.lineAt content q.offset = Text.lineAt content p.offset + passed.count '\n' := by
  have split : content.take q.offset = content.take p.offset ++ passed := by
    rw [leads.offset, List.take_add, ← inside.rest, leads.rest, List.take_left]
  rw [Text.lineAt, Text.lineAt, split, List.count_append]
  omega

/-- A place at the start of a line. -/
structure AtLine (content : List Char) (p : Place) : Prop where
  inside : p.In content
  clean : p.groups = []
  starts : Anchor.lineStart.holds p = true

theorem atLine_startOf (content : List Char) : AtLine content (startOf content) := ⟨Place.in_startOf content, rfl, rfl⟩

theorem AtLine.columnAt_eq (stands : AtLine content p) : Text.columnAt content p.offset = 1 := by
  refine Text.columnAt_of_lineStart ?_
  rw [← stands.inside.before]
  exact stands.starts

/-- Behind a line feed stands the start of a line. -/
theorem AtLine.behind {passed : List Char} (stands : AtLine content p) (leads : p.Leads (passed ++ ['\n']) q)
    (clean : q.groups = []) : AtLine content q where
  inside := stands.inside.leads leads
  clean := clean
  starts := by
    rw [Anchor.holds, leads.before, List.getLast?_concat]
    rfl

end Regex

namespace Catalog

open Regex (Node Place Hit ends firstAt allFrom matchAt?)

variable {r : Regex} {content : List Char} {p q : Place} {nonEmpty : Bool}

theorem takesBeside_multipleBlankLines (own : multipleBlankLines.pattern? = some r) :
    Regex.takesBeside 'a' r.node = true := by
  have node := pattern?_multipleBlankLines
  rw [own, Option.map_some, Option.some_inj] at node
  rw [node]
  decide

/-- There is a match at the first of three lines of spaces and tabs, from the start of the line on, and nowhere else. -/
theorem matchAt?_isSome_iff (own : multipleBlankLines.pattern? = some r) :
    (matchAt? r.node nonEmpty p).isSome = true ↔
      Regex.Anchor.lineStart.holds p = true ∧ ∃ marks, Text.bareMarks p.rest = true :: true :: true :: marks := by
  rw [Regex.matchAt?_eq (.inr ⟨'a', takesBeside_multipleBlankLines own⟩), Option.isSome_map, Regex.after,
    ends_multipleBlankLines own, List.findSome?_isSome_iff]
  constructor
  · rintro ⟨q, mem, -⟩
    obtain ⟨starts, a, b, c, eq, blank⟩ := Regex.exists_lines_of_mem_ends mem
    exact ⟨starts, _, Text.bareMarks_eq_threes_iff.mpr ⟨a, b, c, q.rest, eq, blank, rfl⟩⟩
  · rintro ⟨starts, marks, eq⟩
    obtain ⟨a, b, c, rest, eq, blank, -⟩ := Text.bareMarks_eq_threes_iff.mp eq
    obtain ⟨q, mem, -⟩ := Regex.exists_mem_ends_threeBlankLines starts eq blank
    exact ⟨q, mem, rfl⟩

theorem matchAt?_eq_none_of_inside (own : multipleBlankLines.pattern? = some r) {c : Char} (ne : c ≠ '\n')
    (rest : List Char) : matchAt? r.node nonEmpty (p.past c rest) = none := by
  rw [← Option.not_isSome_iff_eq_none, matchAt?_isSome_iff own]
  rintro ⟨starts, -⟩
  exact ne (of_decide_eq_true starts)

theorem matchAt?_eq_none_of_clean (own : multipleBlankLines.pattern? = some r) (clean : '\n' ∉ p.rest) :
    matchAt? r.node nonEmpty p = none := by
  rw [← Option.not_isSome_iff_eq_none, matchAt?_isSome_iff own, Text.bareMarks_of_clean clean]
  rintro ⟨-, marks, eq⟩
  cases eq

/-! ## Searches -/

/-- A search that finds nothing where it stands goes on at the start of the next line. -/
theorem firstAt_of_line (own : multipleBlankLines.pattern? = some r) (clean : p.groups = [])
    (silent : matchAt? r.node nonEmpty p = none) {line rest : List Char} (eq : p.rest = line ++ '\n' :: rest)
    (inside : '\n' ∉ line) :
    ∃ q, p.Leads (line ++ ['\n']) q ∧ q.groups = [] ∧ firstAt r.node nonEmpty p = firstAt r.node false q := by
  induction line generalizing p nonEmpty with
  | nil =>
    refine ⟨p.past '\n' rest, .past eq, clean, ?_⟩
    rw [Regex.firstAt_cons clean eq, silent, Option.map_none, Option.none_or]
  | cons c line ih =>
    obtain ⟨ne, others⟩ : '\n' ≠ c ∧ '\n' ∉ line := by simpa using inside
    -- inside a line no match starts, whatever follows
    have still : matchAt? r.node false (p.past c (line ++ '\n' :: rest)) = none :=
      matchAt?_eq_none_of_inside own (Ne.symm ne) _
    obtain ⟨q, leads, kept, same⟩ := ih (p := p.past c (line ++ '\n' :: rest)) clean still rfl others
    have whole : p.Leads ([c] ++ (line ++ ['\n'])) q := Place.Leads.trans (.past eq) leads
    refine ⟨q, whole, kept, ?_⟩
    rw [Regex.firstAt_cons clean eq, silent, Option.map_none, Option.none_or]
    exact same

/-- On the last line nothing is found. -/
theorem firstAt_eq_none (own : multipleBlankLines.pattern? = some r) (clean : p.groups = []) (last : '\n' ∉ p.rest) :
    firstAt r.node nonEmpty p = none := by
  have silent : matchAt? r.node nonEmpty p = none := matchAt?_eq_none_of_clean own last
  generalize eq : p.rest = rest at last
  induction rest generalizing p nonEmpty with
  | nil => rw [Regex.firstAt_nil clean eq, silent, Option.map_none]
  | cons c rest ih =>
    obtain ⟨ne, others⟩ : '\n' ≠ c ∧ '\n' ∉ rest := by simpa using last
    rw [Regex.firstAt_cons clean eq, silent, Option.map_none, Option.none_or]
    exact ih (p := p.past c rest) clean (matchAt?_eq_none_of_inside own (Ne.symm ne) _) rfl others

theorem allFrom_succ (steps : Nat) (node : Node) (nonEmpty : Bool) (p : Place) :
    allFrom node (steps + 1) nonEmpty p = match firstAt node nonEmpty p with
      | none => []
      | some (h, q) => h :: allFrom node steps (h.stop = h.start) (q.skip (h.stop - h.start)) := rfl

/-- The line and the column of a match. -/
def placeOf (content : List Char) (h : Hit) : Nat × Nat := (Text.lineAt content h.start, Text.columnAt content h.start)

/-- A match takes three bare lines, up to the line feed that ends the third. -/
theorem exists_taken (own : multipleBlankLines.pattern? = some r) {h : Hit} (matched : matchAt? r.node nonEmpty p = some h) :
    ∃ taken rest, p.rest = taken ++ '\n' :: rest ∧ taken.count '\n' = 2 ∧
      Text.bareMarks p.rest = true :: true :: true :: Text.bareMarks rest ∧
      h.start = p.offset ∧ h.stop = p.offset + (taken.length + 1) := by
  obtain ⟨e, mem, rfl⟩ := Regex.exists_of_matchAt? matched
  rw [ends_multipleBlankLines own] at mem
  obtain ⟨-, a, b, c, eq, blank⟩ := Regex.exists_lines_of_mem_ends mem
  obtain ⟨passed, takes⟩ := Regex.exists_taken mem
  have cut : p.rest = (a ++ '\n' :: (b ++ '\n' :: c)) ++ '\n' :: e.rest := by rw [eq]; simp
  -- the same rest stands behind what is passed and behind the three lines
  have width : passed.length = (a ++ '\n' :: (b ++ '\n' :: c)).length + 1 := by
    have total := congrArg List.length (takes.leads.rest.symm.trans cut)
    rw [List.length_append, List.length_append, List.length_cons] at total
    omega
  have none {line : List Char} (mem : line ∈ [a, b, c]) : line.count '\n' = 0 :=
    List.count_eq_zero.mpr (Text.not_mem_of_bare (blank line mem))
  refine ⟨a ++ '\n' :: (b ++ '\n' :: c), e.rest, cut, ?_, Text.bareMarks_eq_threes_iff.mpr ⟨a, b, c, e.rest, eq, blank, rfl⟩,
    rfl, ?_⟩
  · simp [List.count_append, none]
  · rw [← width]
    exact takes.leads.offset

/-- Behind a match the search goes on at the start of a line. -/
theorem allFrom_of_match (own : multipleBlankLines.pattern? = some r) (stands : Regex.AtLine content p) {h : Hit}
    (matched : matchAt? r.node nonEmpty p = some h) (steps : Nat) :
    placeOf content h = (Text.lineAt content p.offset, 1) ∧ ∃ q b, Regex.AtLine content q ∧ q.rest.length < p.rest.length ∧
      Text.lineAt content q.offset = Text.lineAt content p.offset + 3 ∧
      Text.bareMarks p.rest = true :: true :: true :: Text.bareMarks q.rest ∧
      allFrom r.node (steps + 1) nonEmpty p = h :: allFrom r.node steps b q := by
  obtain ⟨taken, rest, eq, feeds, marks, start, stop⟩ := exists_taken own matched
  have cut : p.rest = (taken ++ ['\n']) ++ rest := by rw [eq, List.append_assoc]; rfl
  have width : h.stop - h.start = (taken ++ ['\n']).length := by
    rw [start, stop, List.length_append, List.length_singleton]
    omega
  obtain ⟨ahead, kept⟩ := Regex.leads_skip _ cut
  have behind : (p.skip (taken ++ ['\n']).length).rest = rest := List.append_cancel_left (ahead.rest.symm.trans cut)
  refine ⟨by rw [placeOf, start, stands.columnAt_eq], _, decide (h.stop = h.start), stands.behind ahead (kept.trans stands.clean),
    ?_, ?_, ?_, ?_⟩
  · rw [behind, eq, List.length_append, List.length_cons]
    omega
  · rw [Regex.lineAt_leads stands.inside ahead, List.count_append, feeds]
    rfl
  · rw [behind]
    exact marks
  · rw [allFrom_succ, Regex.firstAt_of_match stands.clean matched, ← width]

/-- Without a match it goes on at the start of the next line. -/
theorem allFrom_of_line (own : multipleBlankLines.pattern? = some r) (stands : Regex.AtLine content p)
    (silent : matchAt? r.node nonEmpty p = none) {line rest : List Char} (eq : p.rest = line ++ '\n' :: rest)
    (inside : '\n' ∉ line) (steps : Nat) :
    ∃ q, Regex.AtLine content q ∧ q.rest = rest ∧ Text.lineAt content q.offset = Text.lineAt content p.offset + 1 ∧
      allFrom r.node (steps + 1) nonEmpty p = allFrom r.node (steps + 1) false q := by
  obtain ⟨q, leads, kept, same⟩ := firstAt_of_line own stands.clean silent eq inside
  refine ⟨q, stands.behind leads kept, ?_, ?_, ?_⟩
  · have twice := leads.rest.symm.trans eq
    simpa using twice
  · rw [Regex.lineAt_leads stands.inside leads, List.count_append, List.count_eq_zero.mpr inside]
    rfl
  · rw [allFrom_succ, allFrom_succ, same]

/-- From the start of a line on, the matches are where the marks of the lines are cut into threes. -/
theorem places_allFrom (own : multipleBlankLines.pattern? = some r) {steps : Nat} (stands : Regex.AtLine content p)
    (enough : p.rest.length < steps) : (allFrom r.node steps nonEmpty p).map (placeOf content) =
      (Scan.threes (Text.lineAt content p.offset) (Text.bareMarks p.rest)).map (·, 1) := by
  obtain ⟨steps, rfl⟩ : ∃ n, steps = n + 1 := ⟨steps - 1, by omega⟩
  -- what is left of the text gets shorter with every line that is passed and with every match
  induction left : p.rest.length using Nat.strong_induction_on generalizing p nonEmpty steps with
  | _ _ ih =>
    subst left
    rcases Text.exists_line p.rest with last | ⟨line, rest, eq, inside⟩
    · rw [allFrom_succ, firstAt_eq_none own stands.clean last, Text.bareMarks_of_clean last]
      rfl
    cases matched : matchAt? r.node nonEmpty p with
    | some h =>
      obtain ⟨place, q, b, stands', shorter, number, marks, all⟩ := allFrom_of_match own stands matched steps
      obtain ⟨steps, rfl⟩ : ∃ n, steps = n + 1 := ⟨steps - 1, by omega⟩
      rw [all, List.map_cons, place, marks, Scan.threes, List.map_cons, ← number,
        ih _ shorter stands' steps (by omega) rfl]
    | none =>
      obtain ⟨q, stands', rfl, number, all⟩ := allFrom_of_line own stands matched eq inside steps
      have shorter : q.rest.length < p.rest.length := by
        rw [eq, List.length_append, List.length_cons]
        omega
      have other (marks : List Bool) : Text.isBare line :: Text.bareMarks q.rest ≠ true :: true :: true :: marks := by
        intro first
        have some : (matchAt? r.node nonEmpty p).isSome = true :=
          (matchAt?_isSome_iff own).mpr ⟨stands.starts, marks, by rw [eq, Text.bareMarks_line inside, first]⟩
        rw [matched] at some
        cases some
      rw [all, ih _ shorter stands' steps (by omega) rfl, eq, Text.bareMarks_line inside, Scan.threes_skip other, number]

/-- The matches in a text. -/
theorem places_all (own : multipleBlankLines.pattern? = some r) (content : List Char) :
    (r.all content).map (placeOf content) = (Scan.threes 1 (Text.bareMarks content)).map (·, 1) :=
  places_allFrom own (Regex.atLine_startOf content) (by show content.length < _; omega)

end Catalog

/-! ## Findings -/

namespace Text

/-- The line of a mark that is set. -/
theorem exists_bare_of_isMarked {content : List Char} {n : Nat} (marked : Scan.IsMarked (bareMarks content) n) :
    ∃ line, (lines content)[n - 1]? = some line ∧ isBare line = true := by
  obtain ⟨-, eq⟩ := marked
  rw [bareMarks, List.getElem?_map, Option.map_eq_some_iff] at eq
  obtain ⟨line, there, bare⟩ := eq
  rw [List.getElem?_dropLast, Option.ite_none_right_eq_some] at there
  exact ⟨line, there.2, bare⟩

end Text

namespace Scan

/-- The runs of bare lines that end in a line feed. -/
def bareRuns (content : List Char) : List Run := runsFrom 1 0 (Text.bareMarks content)

theorem mem_bareRuns_iff {content : List Char} {run : Run} :
    run ∈ bareRuns content ↔ run.IsMaximal (Text.bareMarks content) := by
  rw [bareRuns, mem_runsFrom_iff (.start _), and_iff_left (Nat.le_add_left 1 _)]

theorem pairwise_bareRuns (content : List Char) :
    (bareRuns content).Pairwise fun run other => run.first + run.count < other.first :=
  pairwise_runsFrom 1 0 (Nat.zero_le 1) _

/-- Nothing is quoted from the lines of a run. -/
theorem quoted_of_mem_threes (path : String) {content : List Char} {run : Run} (among : run ∈ bareRuns content) {n : Nat}
    (mem : n ∈ run.threes) : quoted ((({ path, content } : Source).line? n).getD []) = "" := by
  have inside := le_of_mem_threes mem
  have marked := (mem_bareRuns_iff.mp among).marked n inside.1 (by rw [Run.last]; omega)
  obtain ⟨line, there, bare⟩ := Text.exists_bare_of_isMarked marked
  have known : ({ path, content } : Source).line? n = some (Text.dropReturns line) := by
    show ((Text.lines content).map Text.dropReturns)[n - 1]? = _
    rw [List.getElem?_map, there, Option.map_some]
  rw [known, Option.getD_some, quoted_dropReturns, Text.trim_of_bare bare]
  rfl

/-- What a rule finds that looks at whole texts with the pattern for blank lines: a finding at the first line of every
three in a run. -/
theorem ofContent_eq {rule : Rule} {r : Regex} (own : Catalog.multipleBlankLines.pattern? = some r) (path : String)
    (content : List Char) : ofContent rule r { path, content } =
      (bareRuns content).flatMap fun run => run.threes.map fun n => findingAt rule { path, content } n 1 "" := by
  have each (h : Regex.Hit) : contentFinding rule { path, content } h =
      findingAt rule { path, content } (Catalog.placeOf content h).1 (Catalog.placeOf content h).2
        (quoted ((({ path, content } : Source).line? (Catalog.placeOf content h).1).getD [])) := rfl
  have found : ofContent rule r { path, content } = ((r.all content).map (Catalog.placeOf content)).map fun place =>
      findingAt rule { path, content } place.1 place.2 (quoted ((({ path, content } : Source).line? place.1).getD [])) := by
    rw [List.map_map]
    exact List.map_congr_left fun h _ => each h
  rw [found, Catalog.places_all own, threes_eq, List.map_map, List.map_flatMap]
  refine List.flatMap_congr fun run among => List.map_congr_left fun n mem => ?_
  rw [← quoted_of_mem_threes path among mem]
  rfl

/-- The first lines of all threes come in order. -/
theorem pairwise_threes_bareRuns (content : List Char) : ((bareRuns content).flatMap Run.threes).Pairwise (· < ·) := by
  rw [List.pairwise_flatMap]
  refine ⟨fun run _ => pairwise_threes run, (pairwise_bareRuns content).imp fun apart n mem m mem' => ?_⟩
  have before := le_of_mem_threes mem
  have behind := le_of_mem_threes mem'
  omega

end Scan

namespace Engine

variable {registry : Registry} {s : Settings} {e : Engine} {rules : List Rule}

/-- A table of rules with distinct names that holds the rule on blank lines, with any globs of files that it leaves out,
and an engine that was asked anything before. Where the rule may report and does not leave out the path, what is found of
it in a text follows from the maximal runs of lines of spaces and tabs, each with the line feed that ends it: from the
first line of a run on, a finding for every three lines, in the first of them and its first column, run after run. With
the built-in table there is an answer for every text. -/
theorem blank_runs_are_reported (made : Registry.ofRules rules = .ok registry) {globs : List String}
    (listed : { Catalog.multipleBlankLines with excludes := globs } ∈ rules) (left : Left registry s e)
    (active : s.selects Catalog.multipleBlankLines = true) {path : String} (kept : Exclusion.excludes path globs = false)
    (content : List Char) (language : Option String) :
    ∃ runs : List Scan.Run, (∀ run, run ∈ runs ↔ run.IsMaximal (Text.bareMarks content)) ∧
      (runs.Pairwise fun run other => run.first + run.count < other.first) ∧
      (rules = Catalog.rules → ∃ found e', e.analyze content path language = .ok (found, e')) ∧
      ∀ found e', e.analyze content path language = .ok (found, e') →
        (found.filter fun f => f.rule = "multiple_blank_lines") =
            (runs.flatMap fun run => (List.range (run.count / 3)).map fun i =>
              { file := path, line := run.first + 3 * i, column := 1, rule := "multiple_blank_lines", severity := .low,
                certainty := .high, excerpt := "", remediation := .replace,
                description := "More than 2 consecutive blank lines" }) ∧
          ((found.filter fun f => f.rule = "multiple_blank_lines").map (·.line)).Pairwise (· < ·) := by
  obtain ⟨r, own⟩ : ∃ r, Catalog.multipleBlankLines.pattern? = some r := ⟨_, rfl⟩
  refine ⟨Scan.bareRuns content, fun run => Scan.mem_bareRuns_iff, Scan.pairwise_bareRuns content, ?_, ?_⟩
  · rintro rfl
    obtain ⟨-, rfl⟩ := Registry.ofRules_eq_ok_iff.mp made
    obtain ⟨found, analyzed⟩ := analysis_builtIn_isOk s content path language
    exact ⟨found, (left.kept.analyze_eq_ok_iff content path language found).mpr analyzed⟩
  · intro found e' analyzed
    have judged := (left.kept.analyze_eq_ok_iff content path language found).mp ⟨e', analyzed⟩
    have reported : (found.filter fun f => f.rule = "multiple_blank_lines") =
        (Scan.bareRuns content).flatMap fun run => run.threes.map fun n =>
          Scan.findingAt Catalog.multipleBlankLines { path, content } n 1 "" :=
      (filter_analysis made listed rfl own active kept judged).trans (Scan.ofContent_eq own path content)
    have lines : ((found.filter fun f => f.rule = "multiple_blank_lines").map (·.line)) =
        ((Scan.bareRuns content).flatMap Scan.Run.threes).map Int.ofNat := by
      rw [reported, List.map_flatMap, List.map_flatMap]
      simp only [List.map_map]
      rfl
    constructor
    · rw [reported]
      simp only [Scan.Run.threes, List.map_map]
      rfl
    · rw [lines, List.pairwise_map]
      exact (Scan.pairwise_threes_bareRuns content).imp Int.ofNat_lt.mpr

/-- Four blank lines, a line of text, seven blank lines with a space and a tab among them, one with a return, and three
blank lines of which the last has no line feed. -/
def gappy : List Char := "\n\n\n\nx\n\n \n\t\n\n\n \n\n\r\n\n\n".toList

theorem blank_runs_are_reported_gappy :
    ∃ found e', (start (.indexed [Catalog.multipleBlankLines]) {}).analyze gappy "a.py" none = .ok (found, e') ∧
      found.map (·.line) = [1, 6, 9] ∧
      ∃ runs : List Scan.Run, (∀ run, run ∈ runs ↔ run.IsMaximal (Text.bareMarks gappy)) ∧
        (found.filter fun f => f.rule = "multiple_blank_lines") =
          runs.flatMap fun run => (List.range (run.count / 3)).map fun i =>
            { file := "a.py", line := run.first + 3 * i, column := 1, rule := "multiple_blank_lines", severity := .low,
              certainty := .high, excerpt := "", remediation := .replace,
              description := "More than 2 consecutive blank lines" } := by
  have ran : (((start (.indexed [Catalog.multipleBlankLines]) {}).analyze gappy "a.py" none).toOption.map fun out =>
      out.1.map (·.line)) = some [1, 6, 9] := by decide +kernel
  have made : Registry.ofRules [Catalog.multipleBlankLines] = .ok (.indexed [Catalog.multipleBlankLines]) :=
    Registry.ofRules_eq_ok_iff.mpr ⟨by decide, rfl⟩
  have listed : { Catalog.multipleBlankLines with excludes := [] } ∈ [Catalog.multipleBlankLines] := List.mem_singleton.mpr rfl
  have kept : Exclusion.excludes "a.py" [] = false := rfl
  obtain ⟨runs, maximal, -, -, reported⟩ := blank_runs_are_reported (s := {}) made listed .start rfl kept gappy none
  cases analyzed : (start (.indexed [Catalog.multipleBlankLines]) {}).analyze gappy "a.py" none with
  | error fault => rw [analyzed] at ran; cases ran
  | ok out =>
    rw [analyzed] at ran
    exact ⟨out.1, out.2, rfl, Option.some.inj ran, runs, maximal, (reported out.1 out.2 analyzed).1⟩

end Engine

end CodeHygiene
