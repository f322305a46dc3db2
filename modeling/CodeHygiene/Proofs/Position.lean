import CodeHygiene.Proofs.Lines
import CodeHygiene.Proofs.Matching
import CodeHygiene.Proofs.Runs
import CodeHygiene.Proofs.Severity

/-!
Every finding stands at a place of its text.

Lines are numbered in five ways: line by line, by the runs they form, by the line feeds before a match, by
those before a declaration or a brace, and along the lines of an indented language. All number the lines of
one text.

Proved:
(1) A match starts in the text, at its end at the latest (`start_le_of_mem_all`).
(2) What a rule finds with a pattern stands where the pattern matches: in the whole text
    (`pointsInto_of_mem_ofContent`), on a line (`pointsInto_of_mem_ofLines`), or on each line of a run
    (`pointsInto_of_mem_ofRuns`).
(3) What an analyzer sees stands in a line of the text (`lineOf_of_mem_violationsIn`).
(4) A rule that looks line by line finds one thing in a line, and its lines go up (`pairwise_ofLines`).
(5) So every finding of an analysis points into the text, with the first hundred characters of its line, or
    the lines of a run where its rule asks for runs (`findings_point_into_text`).
A least number of lines below zero asks for runs too (`runs_below_zero`).
-/

namespace CodeHygiene

/-! ## Matches -/

namespace Regex

/-- A match starts in the text, at its end at the latest. -/
theorem start_le_of_mem_all {r : Regex} {text : List Char} {h : Hit} (mem : h ∈ r.all text) : h.start ≤ text.length := by
  obtain ⟨p, q, inside, -, -, rfl⟩ := matches_of_mem_all mem
  exact inside.le

end Regex

/-! ## Places of findings -/

namespace Rule

/-- Whether a rule looks at runs of lines. -/
def asksForRuns (rule : Rule) : Bool := rule.pattern?.isSome && rule.scope = .line && rule.consecutive.getD 0 ≠ 0

/-- Whether a rule looks at one line after the other. -/
def looksLineByLine (rule : Rule) : Bool := rule.pattern?.isSome && rule.scope = .line && rule.consecutive.getD 0 = 0

/-- What a rule matches its pattern against around a line, and the offset where it begins: the whole text,
or the line without the carriage returns that end it. -/
def viewOf (rule : Rule) (content : List Char) (number : Nat) : Nat × List Char :=
  match rule.scope with
  | .content => (0, content)
  | .line => (Text.lineStart content number, Text.dropReturns ((Text.lines content)[number - 1]?.getD []))

/-- A match of the rule's pattern starts at an offset of the text, which is on a line, and stands there. -/
def MatchesAt (rule : Rule) (content : List Char) (number offset : Nat) : Prop :=
  ∃ r h, rule.pattern? = some r ∧ h ∈ r.all (rule.viewOf content number).2 ∧
    (rule.viewOf content number).1 + h.start = offset ∧
    h.text (rule.viewOf content number).2 <+: content.drop offset

/-- What is matched against stands in the text where it begins. -/
theorem viewOf_prefix (rule : Rule) {content line : List Char} {number : Nat} (pos : 1 ≤ number)
    (there : (Text.lines content)[number - 1]? = some line) :
    (rule.viewOf content number).2 <+: content.drop (rule.viewOf content number).1 := by
  rw [viewOf]
  cases rule.scope with
  | content => exact List.prefix_refl content
  | line =>
    have begins := Text.drop_lineStart there
    rw [Nat.sub_add_cancel pos] at begins
    rw [there]
    exact (Text.dropReturns_prefix line).trans begins

theorem matchesAt_of_hit {rule : Rule} {r : Regex} (own : rule.pattern? = some r) {content line : List Char}
    {number : Nat} (pos : 1 ≤ number) (there : (Text.lines content)[number - 1]? = some line) {h : Regex.Hit}
    (hit : h ∈ r.all (rule.viewOf content number).2) :
    rule.MatchesAt content number ((rule.viewOf content number).1 + h.start) := by
  refine ⟨r, h, own, hit, rfl, ?_⟩
  obtain ⟨behind, eq⟩ := rule.viewOf_prefix pos there
  have within : h.start ≤ (rule.viewOf content number).2.length := Regex.start_le_of_mem_all hit
  rw [← List.drop_drop, ← eq, List.drop_append_of_le_length within]
  exact (List.take_prefix _ _).trans (List.prefix_append _ behind)

end Rule

namespace Finding

/-- A finding of a rule at a line and a column, which is zero where there is none. -/
structure StandsAt (f : Finding) (rule : Rule) (content : List Char) (number column : Nat) (line : List Char) : Prop where
  line_eq : f.line = number
  column_eq : f.column = column
  number_pos : 1 ≤ number
  number_le : number ≤ content.count '\n' + 1
  there : (Text.lines content)[number - 1]? = some line
  column_le : column ≤ line.length + 1
  matches_at : column ≠ 0 → rule.MatchesAt content number (Text.lineStart content number + column - 1)
  quotes : rule.asksForRuns = false → f.excerpt = String.ofList ((Text.trim line).take 100)
  run : rule.asksForRuns = true → column = 0 ∧ ∃ last, number ≤ last ∧ last ≤ (Text.lines content).length ∧
    f.excerpt = "Lines " ++ Decimal.natText number ++ "-" ++ Decimal.natText last ∧
    ∀ n, number ≤ n → n ≤ last → ∃ r other, rule.pattern? = some r ∧ (Text.lines content)[n - 1]? = some other ∧
      r.occursIn (Text.dropReturns other) = true

/-- A finding of a rule stands somewhere in a text. -/
def PointsInto (f : Finding) (rule : Rule) (content : List Char) : Prop :=
  ∃ number column line, f.StandsAt rule content number column line

end Finding

namespace Scan

variable {rule : Rule} {r : Regex} {path : String} {content : List Char} {f : Finding}

theorem line?_ofContent (path : String) {n : Nat} {line : Line} (there : (Text.lines content)[n]? = some line) :
    ({ path, content } : Source).line? (n + 1) = some (Text.dropReturns line) := by
  rw [Source.line?, Nat.add_sub_cancel, List.getElem?_map, there]
  rfl

theorem quoted_dropReturns (line : Line) : quoted (Text.dropReturns line) = String.ofList ((Text.trim line).take 100) := by
  rw [quoted, Text.excerpt, Text.trim_dropReturns]
  rfl

theorem exists_line_of_le {number : Nat} (pos : 1 ≤ number) (le : number ≤ (Text.lines content).length) :
    ∃ line, (Text.lines content)[number - 1]? = some line :=
  ⟨_, List.getElem?_eq_getElem (by omega)⟩

/-! ## The whole text -/

theorem pointsInto_of_mem_ofContent (own : rule.pattern? = some r) (scope : rule.scope = .content)
    (mem : f ∈ ofContent rule r { path, content }) : f.PointsInto rule content := by
  obtain ⟨h, hit, rfl⟩ := List.mem_map.mp mem
  obtain ⟨line, there, within, back⟩ := Text.lineStart_add_columnAt (Regex.start_le_of_mem_all hit)
  have pos := Text.lineAt_pos content h.start
  have le := Text.lineAt_le content h.start
  have number : Text.lineAt content h.start - 1 + 1 = Text.lineAt content h.start := Nat.sub_add_cancel pos
  have without : rule.asksForRuns = false := by simp [Rule.asksForRuns, scope]
  refine ⟨Text.lineAt content h.start, Text.columnAt content h.start, line, ?_⟩
  refine ⟨rfl, rfl, pos, ?_, there, within, fun _ => ?_, fun _ => ?_, fun runs => ?_⟩
  · rwa [Text.length_lines] at le
  · have view : rule.viewOf content (Text.lineAt content h.start) = (0, content) := by rw [Rule.viewOf, scope]
    have standing := Rule.matchesAt_of_hit own pos there (h := h) (by rw [view]; exact hit)
    rw [back, Nat.add_sub_cancel]
    rwa [view, Nat.zero_add] at standing
  · have own := line?_ofContent path there
    rw [number] at own
    show quoted _ = _
    rw [own]
    exact quoted_dropReturns line
  · rw [without] at runs
    cases runs

/-! ## Each line -/

theorem exists_of_mem_ofLines (mem : f ∈ ofLines rule r { path, content }) :
    ∃ n line h, (Text.lines content)[n]? = some line ∧ h ∈ r.all (Text.dropReturns line) ∧
      f = findingAt rule { path, content } (n + 1) (h.start + 1) (quoted (Text.dropReturns line)) := by
  obtain ⟨⟨line', number⟩, numbered, hit⟩ := List.mem_filterMap.mp mem
  obtain ⟨h, first, rfl⟩ := Option.map_eq_some_iff.mp hit
  obtain ⟨n, lt, eq⟩ := List.mem_iff_getElem.mp numbered
  rw [List.getElem_zipIdx, Prod.mk.injEq] at eq
  obtain ⟨line_eq, rfl⟩ := eq
  rw [List.getElem_map] at line_eq
  subst line_eq
  have inside : n < (Text.lines content).length := by simpa using lt
  refine ⟨n, (Text.lines content)[n], h, List.getElem?_eq_getElem inside, List.mem_of_find?_eq_some first, ?_⟩
  rw [Nat.add_comm]

theorem pointsInto_of_mem_ofLines (own : rule.pattern? = some r) (scope : rule.scope = .line)
    (single : rule.consecutive.getD 0 = 0) (mem : f ∈ ofLines rule r { path, content }) : f.PointsInto rule content := by
  obtain ⟨n, line, h, there, hit, rfl⟩ := exists_of_mem_ofLines mem
  obtain ⟨lt, -⟩ := List.getElem?_eq_some_iff.mp there
  have within := Regex.start_le_of_mem_all hit
  have shorter := Text.length_dropReturns_le line
  have without : rule.asksForRuns = false := by simp [Rule.asksForRuns, single]
  refine ⟨n + 1, h.start + 1, line, ?_⟩
  refine ⟨rfl, rfl, Nat.le_add_left 1 n, ?_, there, by omega, fun _ => ?_, fun _ => ?_, fun runs => ?_⟩
  · rwa [Text.length_lines] at lt
  · have view : rule.viewOf content (n + 1) = (Text.lineStart content (n + 1), Text.dropReturns line) := by
      rw [Rule.viewOf, scope, Nat.add_sub_cancel, there]
      rfl
    have standing := Rule.matchesAt_of_hit own (Nat.le_add_left 1 n) there (h := h) (by rw [view]; exact hit)
    rwa [view] at standing
  · exact quoted_dropReturns line
  · rw [without] at runs
    cases runs

theorem pairwise_zipIdx_snd {α : Type} (l : List α) (first : Nat) : (l.zipIdx first).Pairwise (·.2 < ·.2) := by
  rw [← List.pairwise_map (f := Prod.snd) (R := (· < ·)), List.zipIdx_map_snd]
  exact List.pairwise_lt_range'

/-- The lines in which a rule finds something go up, so it finds one thing in a line. -/
theorem pairwise_ofLines (rule : Rule) (r : Regex) (src : Source) :
    ((ofLines rule r src).map (·.line)).Pairwise (· < ·) := by
  rw [List.pairwise_map, ofLines, List.pairwise_filterMap]
  refine (pairwise_zipIdx_snd src.lines 1).imp fun {first second} lt f hit f' hit' => ?_
  obtain ⟨h, -, rfl⟩ := Option.map_eq_some_iff.mp hit
  obtain ⟨h', -, rfl⟩ := Option.map_eq_some_iff.mp hit'
  exact Int.ofNat_lt.mpr lt

/-! ## Runs of lines -/

theorem pointsInto_of_mem_ofRuns (own : rule.pattern? = some r) (scope : rule.scope = .line)
    (several : rule.consecutive.getD 0 ≠ 0) {least : Int} (mem : f ∈ ofRuns rule r least { path, content }) :
    f.PointsInto rule content := by
  obtain ⟨run, among, rfl⟩ := List.mem_map.mp mem
  obtain ⟨-, maximal⟩ := mem_runs_iff.mp (List.mem_filter.mp among).1
  have matching : ∀ n, run.first ≤ n → n ≤ run.last → ∃ other, (Text.lines content)[n - 1]? = some other ∧
      r.occursIn (Text.dropReturns other) = true := by
    intro n low high
    obtain ⟨-, line', there, occurs⟩ := maximal.matched n low high
    rw [List.getElem?_map, Option.map_eq_some_iff] at there
    obtain ⟨other, there, rfl⟩ := there
    exact ⟨other, there, occurs⟩
  have first_le := maximal.first_le
  have first_pos : 1 ≤ run.first := Nat.pos_of_ne_zero (maximal.matched run.first (Nat.le_refl _) first_le).1
  obtain ⟨line, there, -⟩ := matching run.first (Nat.le_refl _) first_le
  obtain ⟨other, last_there, -⟩ := matching run.last first_le (Nat.le_refl _)
  obtain ⟨lt, -⟩ := List.getElem?_eq_some_iff.mp there
  obtain ⟨last_lt, -⟩ := List.getElem?_eq_some_iff.mp last_there
  have with_runs : rule.asksForRuns = true := by simp [Rule.asksForRuns, own, scope, several]
  refine ⟨run.first, 0, line, ?_⟩
  refine ⟨rfl, rfl, first_pos, ?_, there, Nat.zero_le _, fun nonzero => absurd rfl nonzero, fun without => ?_, fun _ => ?_⟩
  · rw [Text.length_lines] at lt
    omega
  · rw [with_runs] at without
    cases without
  · refine ⟨rfl, run.last, first_le, by omega, rfl, fun n low high => ?_⟩
    obtain ⟨other, place, occurs⟩ := matching n low high
    exact ⟨r, other, own, place, occurs⟩

theorem pointsInto_of_mem_ofPattern (own : rule.pattern? = some r) (mem : f ∈ ofPattern rule r { path, content }) :
    f.PointsInto rule content := by
  rw [ofPattern] at mem
  split at mem
  next scope => exact pointsInto_of_mem_ofContent own scope mem
  next scope single => exact pointsInto_of_mem_ofLines own scope single mem
  next scope several => exact pointsInto_of_mem_ofRuns own scope several mem

end Scan

/-! ## Measures -/

namespace Measure

/-- A number of a line of a text. -/
def LineOf (content : List Char) (number : Nat) : Prop := 1 ≤ number ∧ number ≤ (Text.lines content).length

variable {content : List Char}

theorem lineOf_lineAt (content : List Char) (offset : Nat) : LineOf content (Text.lineAt content offset) :=
  ⟨Text.lineAt_pos content offset, Text.lineAt_le content offset⟩

theorem mem_of_mem_select {α : Type} {part code : α → Nat} {least : Int} {limit : Quantity} {bodies chosen : List α}
    (run : select part code least limit bodies = .ok chosen) {b : α} (mem : b ∈ chosen) : b ∈ bodies := by
  rw [select] at run
  split at run
  next => cases run
  next =>
    cases run
    exact (List.mem_filter.mp (List.mem_filter.mp mem).1).1

namespace Documentation

theorem line_of_documentedAt? {r : Regex} {h : Regex.Hit} {d : Documented} (measured : documentedAt? r content h = some d) :
    LineOf content d.line := by
  obtain ⟨⟨opening, closing⟩, -, rest⟩ := Option.bind_eq_some_iff.mp measured
  cases rest
  exact lineOf_lineAt content _

theorem line_of_mem_indentedFunctions {number : Nat} {lines : List Line} {d : Documented}
    (mem : d ∈ indentedFunctions number lines) : number ≤ d.line ∧ d.line < number + lines.length := by
  induction lines generalizing number with
  | nil => cases mem
  | cons line rest ih =>
    rw [indentedFunctions, List.mem_append, Option.mem_toList] at mem
    rw [List.length_cons]
    rcases mem with here | later
    · rw [documentedOn?] at here
      simp only [Option.bind_eq_bind, Option.bind_eq_some_iff] at here
      obtain ⟨h, -, indent, -, name, -, here⟩ := here
      split at here
      next => cases here
      next =>
        cases here
        exact ⟨Nat.le_refl number, Nat.lt_add_of_pos_right (Nat.succ_pos _)⟩
    · obtain ⟨low, high⟩ := ih later
      omega

theorem lineOf_of_mem_functions {l : Language} {d : Documented} (mem : d ∈ functions l content) :
    LineOf content d.line := by
  rw [functions] at mem
  split at mem
  next r _ =>
    obtain ⟨h, -, measured⟩ := List.mem_filterMap.mp (List.mem_mergeSort.mp mem)
    exact line_of_documentedAt? measured
  next =>
    obtain ⟨low, high⟩ := line_of_mem_indentedFunctions mem
    exact ⟨low, by omega⟩

end Documentation

namespace Commentary

theorem line_of_mem_braceBodiesFrom {l : Language} {r : Regex} {resume : Nat} {hits : List Regex.Hit} {b : Commented}
    (mem : b ∈ braceBodiesFrom l r content resume hits) : LineOf content b.line := by
  induction hits generalizing resume with
  | nil => cases mem
  | cons h rest ih =>
    rw [braceBodiesFrom] at mem
    split at mem
    next => exact ih mem
    next =>
      split at mem
      next => exact ih mem
      next opening _ =>
        split at mem
        next => exact ih mem
        next closing _ =>
          rcases List.mem_cons.mp mem with rfl | later
          · exact lineOf_lineAt content h.start
          · exact ih later

theorem line_of_mem_indentedBodiesFrom {number covered : Nat} {lines : List Line} {b : Commented}
    (mem : b ∈ indentedBodiesFrom number covered lines) : number ≤ b.line ∧ b.line < number + lines.length := by
  induction lines generalizing number covered with
  | nil => cases mem
  | cons line rest ih =>
    have further : ∀ covered, b ∈ indentedBodiesFrom (number + 1) covered rest →
        number ≤ b.line ∧ b.line < number + (line :: rest).length := by
      intro covered later
      obtain ⟨low, high⟩ := ih later
      rw [List.length_cons]
      omega
    cases covered with
    | succ more =>
      rw [indentedBodiesFrom] at mem
      exact further more mem
    | zero =>
      rw [indentedBodiesFrom] at mem
      split at mem
      next => exact further 0 mem
      next indent signature _ =>
        rcases List.mem_cons.mp mem with rfl | later
        · exact ⟨Nat.le_refl number, Nat.lt_add_of_pos_right (Nat.succ_pos _)⟩
        · exact further _ later

theorem lineOf_of_mem_bodies {l : Language} {b : Commented} (mem : b ∈ bodies l content) : LineOf content b.line := by
  rw [bodies] at mem
  split at mem
  next r _ => exact line_of_mem_braceBodiesFrom mem
  next =>
    obtain ⟨low, high⟩ := line_of_mem_indentedBodiesFrom mem
    exact ⟨low, by omega⟩

end Commentary

namespace Stub

/-- The only line of the body of a stub is a placeholder. -/
theorem body_of_stubAt? {l : Language} {h : Regex.Hit} {s : Stub} (measured : stubAt? l content h = some s) :
    s.line = Text.lineAt content (h.stop - 1) ∧ ∃ closing only, closing? content (h.stop - 1) = some closing ∧
      significant (between content (h.stop - 1) closing) = [only] ∧
        (placeholders l).findSome? (·.returned? only) = some s.returned := by
  rw [stubAt?] at measured
  dsimp only at measured
  split at measured
  next => cases measured
  next =>
    obtain ⟨closing, closes, measured⟩ := Option.bind_eq_some_iff.mp measured
    split at measured
    next only alone =>
      obtain ⟨returned, returns, measured⟩ := Option.bind_eq_some_iff.mp measured
      cases measured
      exact ⟨rfl, closing, only, closes, alone, returns⟩
    next => cases measured

theorem mem_of_mem_addAt {found : List (Nat × Stub)} {opening : Nat} {s : Stub} {entry : Nat × Stub}
    (mem : entry ∈ addAt found opening s) : entry ∈ found ∨ entry = (opening, s) := by
  rw [addAt] at mem
  split at mem
  next => exact .inl mem
  next => rwa [List.mem_append, List.mem_singleton] at mem

/-- Every stub is that of a declaration. -/
theorem exists_hit_of_mem_braceStubs {l : Language} {s : Stub} (mem : s ∈ braceStubs l content) :
    ∃ r ∈ declarations l, ∃ h ∈ r.all content, stubAt? l content h = some s := by
  obtain ⟨entry, inside, rfl⟩ := List.mem_map.mp mem
  -- So is every stub that is kept while the declarations are gone through.
  refine List.foldlRecOn (motive := fun found : List (Nat × Stub) => ∀ entry ∈ found,
    ∃ r ∈ declarations l, ∃ h ∈ r.all content, stubAt? l content h = some entry.2) _ _ ?_ ?_ entry (List.mem_mergeSort.mp inside)
  · exact fun entry none => absurd none List.not_mem_nil
  · intro found all h hit entry inside
    split at inside
    next s measured =>
      rcases mem_of_mem_addAt inside with old | rfl
      · exact all entry old
      · obtain ⟨r, declares, hit⟩ := List.mem_flatMap.mp hit
        exact ⟨r, declares, h, hit, measured⟩
    next => exact all entry inside

theorem lineOf_of_mem_braceStubs {l : Language} {s : Stub} (mem : s ∈ braceStubs l content) : LineOf content s.line := by
  obtain ⟨_, -, h, -, measured⟩ := exists_hit_of_mem_braceStubs mem
  rw [(body_of_stubAt? measured).1]
  exact lineOf_lineAt content _

theorem line_of_mem_indentedStubs {number : Nat} {lines : List Line} {entry : Stub × String}
    (mem : entry ∈ indentedStubs number lines) : number ≤ entry.1.line ∧ entry.1.line < number + lines.length := by
  induction lines generalizing number with
  | nil => cases mem
  | cons line rest ih =>
    rw [indentedStubs, List.mem_append, Option.mem_toList] at mem
    rw [List.length_cons]
    rcases mem with here | later
    · rw [stubOn?] at here
      simp only [Option.bind_eq_bind, Option.bind_eq_some_iff] at here
      obtain ⟨h, -, indent, -, name, -, here⟩ := here
      split at here
      next only _ =>
        simp only [Option.bind_eq_some_iff] at here
        obtain ⟨returned, -, here⟩ := here
        cases here
        exact ⟨Nat.le_refl number, Nat.lt_add_of_pos_right (Nat.succ_pos _)⟩
      next => cases here
    · obtain ⟨low, high⟩ := ih later
      omega

theorem lineOf_of_mem_violations {tag : String} {v : Violation} (mem : v ∈ violations content tag) :
    ∃ number : Nat, v.line = some (number : Int) ∧ LineOf content number := by
  rw [violations] at mem
  split at mem
  next => cases mem
  next =>
    obtain ⟨⟨s, only⟩, inside, rfl⟩ := List.mem_map.mp mem
    obtain ⟨low, high⟩ : 1 ≤ s.line ∧ s.line < 1 + (Text.lines content).length := line_of_mem_indentedStubs inside
    exact ⟨s.line, rfl, low, by omega⟩
  next =>
    obtain ⟨s, inside, rfl⟩ := List.mem_map.mp mem
    exact ⟨s.line, rfl, lineOf_of_mem_braceStubs inside⟩

end Stub

end Measure

namespace Scan

variable {s : Settings} {rule : Rule} {content : List Char} {path tag : String} {f : Finding}

/-- What an analyzer sees stands in a line of the text. -/
theorem lineOf_of_mem_violationsIn {a : Analyzer} {vs : List Violation} (run : violationsIn s rule content tag a = .ok vs)
    {v : Violation} (mem : v ∈ vs) : ∃ number : Nat, v.line = some (number : Int) ∧ Measure.LineOf content number := by
  cases a with
  | docRatio =>
    obtain ⟨least, -, run⟩ := bind_eq_ok_iff.mp run
    obtain ⟨limit, -, run⟩ := bind_eq_ok_iff.mp run
    obtain ⟨l, chosen, selected, d, inside, rfl⟩ := Measure.exists_body_of_mem run mem
    exact ⟨d.line, rfl, Measure.Documentation.lineOf_of_mem_functions (Measure.mem_of_mem_select selected inside)⟩
  | verbosityRatio =>
    obtain ⟨least, -, run⟩ := bind_eq_ok_iff.mp run
    obtain ⟨limit, -, run⟩ := bind_eq_ok_iff.mp run
    obtain ⟨l, chosen, selected, b, inside, rfl⟩ := Measure.exists_body_of_mem run mem
    exact ⟨b.line, rfl, Measure.Commentary.lineOf_of_mem_bodies (Measure.mem_of_mem_select selected inside)⟩
  | stubFunctions =>
    cases run
    exact Measure.Stub.lineOf_of_mem_violations mem
  | duplicateStrings =>
    obtain ⟨most, -, run⟩ := bind_eq_ok_iff.mp run
    obtain ⟨length, -, run⟩ := bind_eq_ok_iff.mp run
    obtain rfl := pure_eq_ok_iff.mp run
    obtain ⟨r, -, rfl⟩ := List.mem_map.mp mem
    exact ⟨_, rfl, Measure.lineOf_lineAt content r.offset⟩
  | overEngineering =>
    cases run
    cases mem
  | claimEvidence =>
    cases run
    cases mem

theorem pointsInto_of_mem_ofAnalyzer {a : Analyzer} (own : rule.analyzer? = some a) {found : List Finding}
    (run : ofAnalyzer s rule a { path, content } tag = .ok found) (mem : f ∈ found) : f.PointsInto rule content := by
  obtain ⟨vs, seen, rfl⟩ := ofAnalyzer_eq_ok_iff.mp run
  obtain ⟨v, among, rfl⟩ := List.mem_map.mp mem
  obtain ⟨number, at_line, pos, le⟩ := lineOf_of_mem_violationsIn seen among
  obtain ⟨line, there⟩ := exists_line_of_le pos le
  have without : rule.asksForRuns = false := by
    have structural := rule.pattern?_isSome
    rw [own] at structural
    simp [Rule.asksForRuns, structural]
  refine ⟨number, 0, line, ?_⟩
  refine ⟨?_, rfl, pos, ?_, there, Nat.zero_le _, fun nonzero => absurd rfl nonzero, fun _ => ?_, fun runs => ?_⟩
  · show v.line.getD 1 = _
    rw [at_line]
    rfl
  · rwa [Text.length_lines] at le
  · have quoting := line?_ofContent path there
    rw [Nat.sub_add_cancel pos] at quoting
    show quoted _ = _
    rw [at_line, Option.getD_some, Int.toNat_natCast, quoting, Option.getD_some, quoted_dropReturns]
  · rw [without] at runs
    cases runs

theorem exists_pointsInto_of_mem_ofAnalyzers {rules : List Rule} {found : List Finding}
    (run : ofAnalyzers s { path, content } tag rules = .ok found) (mem : f ∈ found) :
    ∃ rule ∈ rules, rule.analyzer?.isSome ∧ f.rule = rule.name ∧ f.PointsInto rule content := by
  induction rules generalizing found with
  | nil =>
    cases run
    cases mem
  | cons rule rest ih =>
    obtain ⟨here, more, own, absent, later, rfl⟩ := ofAnalyzers_cons_eq_ok.mp run
    rcases List.mem_append.mp mem with first | others
    · cases which : rule.analyzer? with
      | none =>
        rw [absent which] at first
        cases first
      | some a =>
        exact ⟨rule, List.mem_cons_self, by rw [which]; rfl, rule_of_mem_ofAnalyzer (own a which) first,
          pointsInto_of_mem_ofAnalyzer which (own a which) first⟩
    · exact List.exists_mem_cons_of_exists (ih later others)

theorem exists_pointsInto_of_mem_ofPatterns {rules : List Rule} (mem : f ∈ ofPatterns rules { path, content }) :
    ∃ rule ∈ rules, f.rule = rule.name ∧ f.PointsInto rule content := by
  obtain ⟨rule, inside, found⟩ := List.mem_flatMap.mp mem
  cases own : rule.pattern? with
  | none =>
    rw [own] at found
    cases found
  | some r =>
    rw [own] at found
    exact ⟨rule, inside, rule_of_mem_ofPattern found, pointsInto_of_mem_ofPattern own found⟩

end Scan

/-! ## Analyses -/

namespace Engine

variable {registry : Registry} {rules chosen : List Rule} {s : Settings} {e e' : Engine} {content : List Char}
  {path : String} {language : Option String} {found : List Finding} {f : Finding}

theorem exists_pointsInto_of_mem_added (run : added s chosen { path, content } language = .ok found) (mem : f ∈ found) :
    ∃ rule ∈ chosen, rule.analyzer?.isSome ∧ f.rule = rule.name ∧ f.PointsInto rule content := by
  cases language with
  | none =>
    cases run
    cases mem
  | some tag =>
    rw [added] at run
    split at run
    next =>
      cases run
      cases mem
    next => exact Scan.exists_pointsInto_of_mem_ofAnalyzers run mem

theorem nodup_tableOf (distinct : (rules.map Rule.name).Nodup) : ((tableOf rules).map Rule.name).Nodup := by
  by_cases empty : rules = []
  · subst empty
    show (Catalog.rules.map Rule.name).Nodup
    decide
  · rwa [tableOf_of_ne_nil empty]

/-- Among some of the rules of a table a name is that of one rule, or of none. -/
theorem filter_name_eq (distinct : (rules.map Rule.name).Nodup) {rule : Rule} (mem : rule ∈ rules)
    (part : chosen.Sublist rules) :
    chosen.filter (·.name = rule.name) = [] ∨ chosen.filter (·.name = rule.name) = [rule] := by
  by_cases inside : rule ∈ chosen
  · exact .inr (filter_name ((part.map Rule.name).nodup distinct) inside)
  · refine .inl (List.filter_eq_nil_iff.mpr fun other among named => inside ?_)
    rwa [← List.inj_on_of_nodup_map distinct (part.subset among) mem (of_decide_eq_true named)]

/-- What a rule that looks line by line finds beside others is what it finds alone. -/
theorem filter_ofPatterns (distinct : (rules.map Rule.name).Nodup) {rule : Rule} {r : Regex} (mem : rule ∈ rules)
    (own : rule.pattern? = some r) (part : chosen.Sublist rules) (src : Scan.Source) :
    (Scan.ofPatterns chosen src).filter (·.rule = rule.name) = [] ∨
      (Scan.ofPatterns chosen src).filter (·.rule = rule.name) = Scan.ofPattern rule r src := by
  have alone : (Scan.ofPatterns chosen src).filter (·.rule = rule.name) =
      Scan.ofPatterns (chosen.filter (·.name = rule.name)) src := by
    refine (Scan.ofPatterns_filter fun other _ _ f named => ?_).symm
    rw [named]
  rw [alone]
  rcases filter_name_eq distinct mem part with none | one
  · rw [none]
    exact .inl rfl
  · rw [one]
    exact .inr (by simp [Scan.ofPatterns, own])

/-- An analysis that has an answer, with any table and settings, by an engine that was asked anything before:
- every finding is that of a rule of the table and stands in the text: its line is one of the text; where it
  has a column, the rule's pattern matches at the offset that line and column lead to; it quotes the first
  hundred characters of its line without the blanks around it, except where its rule asks for runs: then it
  has no column and names the first and the last line of a run in which each line has a match;
- the findings of a rule that looks line by line have lines that go up, so there is one in a line at most. -/
theorem findings_point_into_text (made : Registry.ofRules rules = .ok registry) (left : Left registry s e)
    (analyzed : e.analyze content path language = .ok (found, e')) :
    (∀ f ∈ found, ∃ rule ∈ tableOf rules, f.rule = rule.name ∧ f.PointsInto rule content) ∧
    ∀ rule ∈ tableOf rules, rule.looksLineByLine = true →
      ((found.filter (·.rule = rule.name)).map (·.line)).Pairwise (· < ·) := by
  obtain ⟨distinct, rfl⟩ := Registry.ofRules_eq_ok_iff.mp made
  have judged := (left.kept.analyze_eq_ok_iff content path language found).mp ⟨e', analyzed⟩
  rw [analysis] at judged
  -- The rules that look at the text are some of the table, in its order.
  have part : (((start (.indexed rules) s).select (lookupTag (Language.tagFor language (some path)))).filter
      fun rule => !Exclusion.excludes path rule.excludes).Sublist (tableOf rules) := by
    refine List.filter_sublist.trans ?_
    rw [select, registry_start, Registry.lookup_language]
    exact List.filter_sublist.trans List.filter_sublist
  obtain ⟨more, run, rfl⟩ := judge_eq_ok_iff.mp judged
  refine ⟨fun f mem => ?_, fun rule listed byLine => ?_⟩
  · rcases List.mem_append.mp mem with pattern | analyzer
    · obtain ⟨rule, inside, named, points⟩ := Scan.exists_pointsInto_of_mem_ofPatterns pattern
      exact ⟨rule, part.subset inside, named, points⟩
    · obtain ⟨rule, inside, -, named, points⟩ := exists_pointsInto_of_mem_added run analyzer
      exact ⟨rule, part.subset inside, named, points⟩
  · simp only [Rule.looksLineByLine, Bool.and_eq_true, decide_eq_true_eq] at byLine
    obtain ⟨⟨patterned, scope⟩, single⟩ := byLine
    obtain ⟨r, own⟩ := Option.isSome_iff_exists.mp patterned
    have others : more.filter (·.rule = rule.name) = [] := by
      refine List.filter_eq_nil_iff.mpr fun f mem named => ?_
      obtain ⟨other, inside, structural, other_named, -⟩ := exists_pointsInto_of_mem_added run mem
      have same : other = rule := List.inj_on_of_nodup_map (nodup_tableOf distinct) (part.subset inside) listed
        (other_named.symm.trans (of_decide_eq_true named))
      rw [same] at structural
      rw [rule.pattern?_isSome, structural] at patterned
      cases patterned
    rw [List.filter_append, others, List.append_nil]
    rcases filter_ofPatterns (nodup_tableOf distinct) listed own part { path, content } with none | alone
    · rw [none]
      exact List.Pairwise.nil
    · have lines : Scan.ofPattern rule r { path, content } = Scan.ofLines rule r { path, content } := by
        rw [Scan.ofPattern, scope, single]
        rfl
      rw [alone, lines]
      exact Scan.pairwise_ofLines rule r _

/-- A line with a form feed before its column and a carriage return at its end, and three blank lines; a rule
that looks line by line, and one that looks at the whole text. -/
theorem findings_point_into_text_formFeed :
    ∃ found e', (start (.indexed [Catalog.pythonDebugging, Catalog.multipleBlankLines]) {}).analyze
        "\x0c print(1)\r\n\n\n\n".toList "a.py" none = .ok (found, e') ∧
      found.map (fun f => (f.line, f.column, f.excerpt)) = [(1, 3, "print(1)"), (2, 1, "")] ∧
      (∀ f ∈ found, ∃ rule ∈ [Catalog.pythonDebugging, Catalog.multipleBlankLines],
        f.rule = rule.name ∧ f.PointsInto rule "\x0c print(1)\r\n\n\n\n".toList) ∧
      ((found.filter (·.rule = "python_debugging")).map (·.line)).Pairwise (· < ·) := by
  have ran : (((start (.indexed [Catalog.pythonDebugging, Catalog.multipleBlankLines]) {}).analyze
      "\x0c print(1)\r\n\n\n\n".toList "a.py" none).toOption.map fun out =>
        out.1.map fun f => (f.line, f.column, f.excerpt)) = some [(1, 3, "print(1)"), (2, 1, "")] := by decide +kernel
  have made : Registry.ofRules [Catalog.pythonDebugging, Catalog.multipleBlankLines] =
      .ok (.indexed [Catalog.pythonDebugging, Catalog.multipleBlankLines]) :=
    Registry.ofRules_eq_ok_iff.mpr ⟨by decide, rfl⟩
  cases analyzed : (start (.indexed [Catalog.pythonDebugging, Catalog.multipleBlankLines]) {}).analyze
      "\x0c print(1)\r\n\n\n\n".toList "a.py" none with
  | error f => rw [analyzed] at ran; cases ran
  | ok out =>
    obtain ⟨found, e'⟩ := out
    rw [analyzed] at ran
    obtain ⟨points, lines⟩ := findings_point_into_text (s := {}) made .start analyzed
    exact ⟨found, e', rfl, Option.some.inj ran, points, lines Catalog.pythonDebugging List.mem_cons_self rfl⟩

/-- A rule that asks for runs of at least minus one line names the lines of a run, not the text of its line. -/
theorem runs_below_zero :
    (((start (.indexed [{ Catalog.pythonDebugging with consecutive := some (-1) }]) {}).analyze
      "print(1)".toList "a.py" none).toOption.map fun out => out.1.map fun f => (f.line, f.column, f.excerpt)) =
        some [(1, 0, "Lines 1-1")] ∧
    String.ofList ((Text.trim "print(1)".toList).take 100) = "print(1)" := by
  constructor <;> decide +kernel

end Engine

end CodeHygiene
