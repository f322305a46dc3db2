import CodeHygiene.Proofs.BlankLines
import CodeHygiene.Proofs.Bodies
import CodeHygiene.Proofs.Secret
import CodeHygiene.Proofs.Severity

/-!
A text against the same text with a return before each line feed.

Proved:
(1) A built-in rule with a pattern finds the same in both, but for the rule on blank lines, which finds nothing behind
    returns (`ofPattern_withReturns`).
(2) A rule with an analyzer sees the same in both, where functions in braces are found alike (`violationsIn_thin`).
(3) So the findings on blank lines are missing, and no others; the answers are the same exactly where there are none
    of them (`returns_hide_only_blank_lines`).
In general they are not the same (`empty_lines_behind_returns`): the rule asks for lines of spaces and tabs, and a
return is neither.
-/

namespace CodeHygiene

open Text (thin thinOffset ReturnsEndLines withReturns)

/-! ## Rules with a pattern -/

namespace Catalog

theorem filter_content_rules :
    rules.filter (·.scope = .content) = [placeholderPassOnlyPy, placeholderEllipsisPy, multipleBlankLines] := rfl

theorem filter_blankLines_rules : rules.filter (·.name = "multiple_blank_lines") = [multipleBlankLines] := rfl

theorem eq_multipleBlankLines {rule : Rule} (mem : rule ∈ rules) (named : rule.name = "multiple_blank_lines") :
    rule = multipleBlankLines := by
  have among : rule ∈ rules.filter (·.name = "multiple_blank_lines") := List.mem_filter.mpr ⟨mem, decide_eq_true named⟩
  rw [filter_blankLines_rules] at among
  exact List.mem_singleton.mp among

theorem multipleBlankLines_mem : multipleBlankLines ∈ rules :=
  List.mem_of_mem_filter (filter_blankLines_rules ▸ List.mem_singleton_self _ : multipleBlankLines ∈ rules.filter _)

/-- The expression is the same to texts with returns, and no match begins at the end of a line. -/
def beginsAlike (r : Regex) : Bool := Regex.indifferent false r.node && (Regex.follow .unknown r.node).ink

theorem beginsAlike_placeholders : ∀ rule ∈ [placeholderPassOnlyPy, placeholderEllipsisPy],
    rule.pattern?.all beginsAlike = true := by
  decide +kernel

end Catalog

namespace Scan

variable {rule : Rule} {r : Regex} {path : String} {text : List Char}

/-- The lines that findings quote are the same. -/
theorem lines_source (lines : ReturnsEndLines text) :
    ({ path, content := thin text } : Source).lines = ({ path, content := text } : Source).lines := by
  have clean : '\r' ∉ thin text := fun mem => (Text.mem_thin.mp mem).2 rfl
  show (Text.lines (thin text)).map Text.dropReturns = (Text.lines text).map Text.dropReturns
  rw [Text.lines_map_dropReturns lines, Text.lines_map_dropReturns (Text.returnsEndLines_of_clean clean), Text.thin_eq_self clean]

theorem line?_source (lines : ReturnsEndLines text) (number : Nat) :
    ({ path, content := thin text } : Source).line? number = ({ path, content := text } : Source).line? number := by
  rw [Source.line?, Source.line?, lines_source lines]

theorem ofPattern_thin_of_line (lines : ReturnsEndLines text) (scope : rule.scope = .line) :
    ofPattern rule r { path, content := thin text } = ofPattern rule r { path, content := text } := by
  have same : ({ path, content := thin text } : Source).lines = ({ path, content := text } : Source).lines := lines_source lines
  have each : ofLines rule r { path, content := thin text } = ofLines rule r { path, content := text } := by
    rw [ofLines, ofLines, same]
    rfl
  have runs (least : Int) : ofRuns rule r least { path, content := thin text } = ofRuns rule r least { path, content := text } := by
    rw [ofRuns, ofRuns, same]
    rfl
  rw [ofPattern, ofPattern, scope]
  split
  next no => cases no
  next => exact each
  next => exact runs _

/-- A match that begins on a line is told at the same place, with the same line. -/
theorem ofContent_thin (lines : ReturnsEndLines text) (alike : Catalog.beginsAlike r = true) :
    ofContent rule r { path, content := thin text } = ofContent rule r { path, content := text } := by
  obtain ⟨same, ink⟩ := (Bool.and_eq_true _ _).mp alike
  rw [ofContent, ofContent, Regex.all_thin lines (Regex.severalLines _) same, List.map_map]
  refine List.map_congr_left fun h mem => ?_
  obtain ⟨p, q, inside, -, ends, rfl⟩ := Regex.matches_of_mem_all mem
  have ended : p.endsLine = false := by
    by_contra ended
    have nothing := (Regex.follows_after (Regex.follows_unknown some)).ink ink p (by simpa using ended)
    exact absurd (List.findSome?_eq_none_iff.mp nothing q ends) (Option.some_ne_none q)
  obtain ⟨c, rest, here, feed⟩ : ∃ c rest, p.rest = c :: rest ∧ c ≠ '\n' := by
    cases eq : p.rest with
    | nil => simp [Regex.Place.endsLine, eq] at ended
    | cons c rest => exact ⟨c, rest, rfl, by simpa [Regex.Place.endsLine, eq] using ended⟩
  have line := Text.lineAt_thin text p.offset
  have column := Text.columnAt_thin lines (inside.rest.symm.trans here) feed
  simp only [Function.comp_apply, contentFinding, Regex.Hit.thinned, line, column, line?_source lines]
  rfl

/-- What a built-in rule finds with its pattern; the one on blank lines finds nothing behind returns. -/
theorem ofPattern_withReturns (mem : rule ∈ Catalog.rules) (own : rule.pattern? = some r) {content : List Char}
    (clean : '\r' ∉ content) :
    ofPattern rule r { path, content := withReturns content } =
      if rule.name ≠ "multiple_blank_lines" then ofPattern rule r { path, content } else [] := by
  have lines := Text.returnsEndLines_withReturns clean
  cases scope : rule.scope with
  | line =>
    have other : rule.name ≠ "multiple_blank_lines" := fun named => by
      rw [Catalog.eq_multipleBlankLines mem named] at scope
      cases scope
    rw [if_pos other, ← ofPattern_thin_of_line lines scope, Text.thin_withReturns clean]
  | content =>
    have each (src : Source) : ofPattern rule r src = ofContent rule r src := by simp only [ofPattern, scope]
    have among : rule ∈ Catalog.rules.filter (·.scope = .content) := List.mem_filter.mpr ⟨mem, decide_eq_true scope⟩
    rw [Catalog.filter_content_rules] at among
    have spoken (inside : rule ∈ [Catalog.placeholderPassOnlyPy, Catalog.placeholderEllipsisPy]) :
        rule.name ≠ "multiple_blank_lines" ∧ Catalog.beginsAlike r = true := by
      have alike := Catalog.beginsAlike_placeholders rule inside
      rw [own] at alike
      refine ⟨?_, alike⟩
      have names : ∀ rule ∈ [Catalog.placeholderPassOnlyPy, Catalog.placeholderEllipsisPy],
          rule.name ≠ "multiple_blank_lines" := by decide
      exact names rule inside
    rw [each, each]
    rcases List.mem_append.mp (show rule ∈ [_, _] ++ [_] from among) with placeholder | blank
    · obtain ⟨other, alike⟩ := spoken placeholder
      rw [if_pos other, ← ofContent_thin lines alike, Text.thin_withReturns clean]
    · obtain rfl := List.mem_singleton.mp blank
      have none : r.all (withReturns content) = [] := by
        by_contra some
        exact Text.not_holdsBlankLines_withReturns content
          ((Catalog.occursIn_iff_holdsBlankLines own _).mp ((Regex.all_ne_nil_iff r _).mp some))
      rw [if_neg fun other => other rfl, ofContent, none]
      rfl

theorem ofPatterns_withReturns {rules : List Rule} (known : ∀ rule ∈ rules, rule ∈ Catalog.rules) {content : List Char}
    (clean : '\r' ∉ content) :
    ofPatterns rules { path, content := withReturns content } =
      (ofPatterns rules { path, content }).filter fun f => f.rule ≠ "multiple_blank_lines" := by
  rw [← ofPatterns_filter (p := fun rule => rule.name ≠ "multiple_blank_lines")]
  · induction rules with
    | nil => rfl
    | cons rule rest ih =>
      obtain ⟨listed, others⟩ := List.forall_mem_cons.mp known
      have split (rest : List Rule) (src : Source) : ofPatterns (rule :: rest) src = ofPatterns [rule] src ++ ofPatterns rest src := by
        simp [ofPatterns]
      have first : ofPatterns [rule] { path, content := withReturns content } =
          if rule.name ≠ "multiple_blank_lines" then ofPatterns [rule] { path, content } else [] := by
        cases own : rule.pattern? with
        | none => simp [ofPatterns, own]
        | some r =>
          have alone (src : Source) : ofPatterns [rule] src = ofPattern rule r src := by simp [ofPatterns, own]
          rw [alone, alone, ofPattern_withReturns listed own clean]
      rw [split rest, first, ih others]
      by_cases named : rule.name ≠ "multiple_blank_lines"
      · rw [if_pos named, List.filter_cons_of_pos (by simpa using named), split (rest.filter _)]
      · rw [if_neg named, List.filter_cons_of_neg (by simpa using named), List.nil_append]
  · intro rule _ _ f named
    rw [named]

/-! ## Rules with an analyzer -/

/-- Every analyzer sees the same in a text with returns, where functions in braces are found alike. -/
theorem violationsIn_thin (lines : ReturnsEndLines text) {tag : String} (alike : Measure.Alike tag text) (s : Settings) (rule : Rule)
    (a : Analyzer) : violationsIn s rule (thin text) tag a = violationsIn s rule text tag a := by
  have braces (l : Language) (language : Language.ofTag? tag = some l) (ne : l ≠ .python) := (alike l language ne).1
  cases a with
  | docRatio => simp only [violationsIn, Measure.Documentation.violations_thin lines _ _ braces]
  | verbosityRatio => simp only [violationsIn, Measure.Commentary.violations_thin lines _ _ braces]
  | stubFunctions => simp only [violationsIn, Measure.Stub.violations_thin lines alike]
  | duplicateStrings => simp only [violationsIn, Measure.Literal.violations_thin lines]
  | overEngineering => rfl
  | claimEvidence => rfl

theorem ofAnalyzers_thin (lines : ReturnsEndLines text) {tag : String} (alike : Measure.Alike tag text) (s : Settings)
    (rules : List Rule) :
    ofAnalyzers s { path, content := thin text } tag rules = ofAnalyzers s { path, content := text } tag rules := by
  have one (rule : Rule) (a : Analyzer) :
      ofAnalyzer s rule a { path, content := thin text } tag = ofAnalyzer s rule a { path, content := text } tag := by
    simp only [ofAnalyzer, violationsIn_thin lines alike, line?_source lines]
  induction rules with
  | nil => rfl
  | cons rule rest ih => simp only [ofAnalyzers, one, ih]

end Scan

namespace Engine

variable {s : Settings}

/-! ## Texts -/

theorem added_thin {text : List Char} (lines : ReturnsEndLines text) (rules : List Rule) (path : String) {language : Option String}
    (alike : s.isQuick = false → ∀ tag, language = some tag → Measure.Alike tag text) :
    added s rules { path, content := thin text } language = added s rules { path, content := text } language := by
  cases language with
  | none => rfl
  | some tag =>
    rw [added, added]
    cases quick : s.isQuick with
    | true => rfl
    | false => exact Scan.ofAnalyzers_thin lines (alike quick tag rfl) s rules

theorem ofAnalyzers_filter_isStructural (src : Scan.Source) (tag : String) (rules : List Rule) :
    Scan.ofAnalyzers s src tag (rules.filter Rule.isStructural) = Scan.ofAnalyzers s src tag rules := by
  induction rules with
  | nil => rfl
  | cons rule rest ih =>
    cases own : rule.analyzer? with
    | none =>
      rw [List.filter_cons_of_neg (by simp [Rule.isStructural, own]), ih]
      simp only [Scan.ofAnalyzers, own]
      cases Scan.ofAnalyzers s src tag rest <;> rfl
    | some a => rw [List.filter_cons_of_pos (by simp [Rule.isStructural, own]), Scan.ofAnalyzers, Scan.ofAnalyzers, ih]

/-- No rule with an analyzer speaks of blank lines. -/
theorem rule_ne_of_mem_added {rules : List Rule} (known : ∀ rule ∈ rules, rule ∈ Catalog.rules) {src : Scan.Source}
    {language : Option String} {more : List Finding} (run : added s rules src language = .ok more) {f : Finding} (mem : f ∈ more) :
    f.rule ≠ "multiple_blank_lines" := by
  cases language with
  | none =>
    cases run
    cases mem
  | some tag =>
    rw [added] at run
    split at run
    next =>
      cases run
      cases mem
    next =>
      rw [← ofAnalyzers_filter_isStructural] at run
      obtain ⟨rule, among, reports⟩ := Scan.exists_reports_of_mem_ofAnalyzers run mem
      obtain ⟨inside, structural⟩ := List.mem_filter.mp among
      rw [reports.name]
      rcases mem_structural (known rule inside) structural with rfl | rfl | rfl | rfl | rfl | rfl <;> decide

theorem judge_withReturns {rules : List Rule} (known : ∀ rule ∈ rules, rule ∈ Catalog.rules) {content : List Char}
    (clean : '\r' ∉ content) {path : String} {language : Option String}
    (alike : s.isQuick = false → ∀ tag, language = some tag → Measure.Alike tag (withReturns content)) {found : List Finding}
    (judged : judge s rules { path, content } language = .ok found) :
    judge s rules { path, content := withReturns content } language =
      .ok (found.filter fun f => f.rule ≠ "multiple_blank_lines") := by
  obtain ⟨more, run, rfl⟩ := judge_eq_ok_iff.mp judged
  have same := added_thin (Text.returnsEndLines_withReturns clean) rules path alike
  rw [Text.thin_withReturns clean, run] at same
  refine judge_eq_ok_iff.mpr ⟨more, same.symm, ?_⟩
  have kept : (more.filter fun f => f.rule ≠ "multiple_blank_lines") = more :=
    List.filter_eq_self.mpr fun f mem => decide_eq_true (rule_ne_of_mem_added known run mem)
  rw [List.filter_append, ← Scan.ofPatterns_withReturns known clean, kept]

theorem of_mem_judging {path tag : String} {rule : Rule}
    (mem : rule ∈ ((start .builtIn s).select tag).filter fun rule => !Exclusion.excludes path rule.excludes) :
    rule ∈ Catalog.rules ∧ s.selects rule = true := by
  have chosen : rule ∈ (start (.indexed Catalog.rules) s).select tag := (List.mem_filter.mp mem).1
  exact of_mem_select chosen

theorem analysis_withReturns {content : List Char} (clean : '\r' ∉ content) {path : String} {language : Option String}
    (alike : s.isQuick = false → ∀ tag, Language.tagFor language (some path) = some tag → Measure.Alike tag (withReturns content))
    {found : List Finding} (analyzed : analysis .builtIn s content path language = .ok found) :
    analysis .builtIn s (withReturns content) path language = .ok (found.filter fun f => f.rule ≠ "multiple_blank_lines") :=
  judge_withReturns (fun _ mem => (of_mem_judging mem).1) clean alike analyzed

/-- Blank lines are spoken of exactly where there are some and their rule may report. -/
theorem exists_blankLines_iff {content : List Char} {path : String} {language : Option String} {found : List Finding}
    (analyzed : analysis .builtIn s content path language = .ok found) :
    (∃ f ∈ found, f.rule = "multiple_blank_lines") ↔
      s.selects Catalog.multipleBlankLines = true ∧ Text.HoldsBlankLines content := by
  obtain ⟨r, own⟩ : ∃ r, Catalog.multipleBlankLines.pattern? = some r := ⟨_, rfl⟩
  have each (src : Scan.Source) : Scan.ofPattern Catalog.multipleBlankLines r src = Scan.ofContent Catalog.multipleBlankLines r src := rfl
  constructor
  · rintro ⟨f, mem, named⟩
    obtain ⟨more, run, rfl⟩ := judge_eq_ok_iff.mp analyzed
    rcases List.mem_append.mp mem with pattern | analyzer
    · obtain ⟨rule, among, reports⟩ := List.mem_flatMap.mp pattern
      obtain ⟨listed, selected⟩ := of_mem_judging among
      have ⟨r', own', told⟩ : ∃ r, rule.pattern? = some r ∧ f ∈ Scan.ofPattern rule r { path, content } := by
        cases own' : rule.pattern? with
        | none => rw [own'] at reports; cases reports
        | some r' => exact ⟨r', rfl, by rwa [own'] at reports⟩
      obtain rfl := Catalog.eq_multipleBlankLines listed ((Scan.rule_of_mem_ofPattern told).symm.trans named)
      obtain rfl : r' = r := Option.some.inj (own'.symm.trans own)
      rw [each] at told
      obtain ⟨h, found, -⟩ := List.mem_map.mp told
      exact ⟨selected, (Catalog.occursIn_iff_holdsBlankLines own content).mp
        ((Regex.all_ne_nil_iff r' content).mp (List.ne_nil_of_mem found))⟩
    · exact absurd named (rule_ne_of_mem_added (fun _ mem => (of_mem_judging mem).1) run analyzer)
  · rintro ⟨selected, blank⟩
    have some := (Regex.all_ne_nil_iff r content).mpr ((Catalog.occursIn_iff_holdsBlankLines own content).mpr blank)
    obtain ⟨h, mem⟩ := List.exists_mem_of_ne_nil _ some
    have told : Scan.contentFinding Catalog.multipleBlankLines { path, content } h ∈
        Scan.ofPattern Catalog.multipleBlankLines r { path, content } := by
      rw [each]
      exact List.mem_map_of_mem mem
    exact ⟨_, mem_analysis Catalog.multipleBlankLines_mem rfl own selected rfl analyzed told, rfl⟩

/-- A text without returns, and the same text with a return before each line feed, by engines with the built-in rules
that were asked anything before; where functions in braces are measured, they are found alike. Both analyses have an
answer: in the second exactly the findings on blank lines are missing. So the answers are the same exactly when the rule
on blank lines may not report or the text holds none. -/
theorem returns_hide_only_blank_lines {e e' : Engine} (left : Left .builtIn s e) (left' : Left .builtIn s e')
    {content : List Char} (clean : '\r' ∉ content) (path : String) (language : Option String)
    (alike : s.isQuick = false → ∀ tag, Language.tagFor language (some path) = some tag →
      Measure.Alike tag (withReturns content)) :
    ∃ found, (∃ e₁, e.analyze content path language = .ok (found, e₁)) ∧
      (∃ e₂, e'.analyze (withReturns content) path language =
        .ok (found.filter fun f => f.rule ≠ "multiple_blank_lines", e₂)) ∧
      ((found.filter fun f => f.rule ≠ "multiple_blank_lines") = found ↔
        ¬(s.selects Catalog.multipleBlankLines = true ∧ Text.HoldsBlankLines content)) := by
  obtain ⟨found, analyzed⟩ := analysis_builtIn_isOk s content path language
  refine ⟨found, (left.kept.analyze_eq_ok_iff content path language found).mpr analyzed,
    (left'.kept.analyze_eq_ok_iff _ path language _).mpr (analysis_withReturns clean alike analyzed), ?_⟩
  rw [List.filter_eq_self, ← exists_blankLines_iff analyzed]
  simp

/-- A function that does nothing yet, and blank lines behind it. -/
def unfinishedScript : List Char := "function read() \x7b\n  // TODO\n  return null;\n\x7d\n\n\n\n".toList

theorem holdsBlankLines_unfinishedScript : Text.HoldsBlankLines unfinishedScript :=
  ⟨(Text.lines unfinishedScript).take 4, [], [], [], [[]], by decide +kernel, by decide, by simp⟩

theorem returns_hide_only_blank_lines_unfinishedScript :
    ∃ found, (∃ e₁, (start .builtIn {}).analyze unfinishedScript "read.js" none = .ok (found, e₁)) ∧
      (∃ e₂, (start .builtIn {}).analyze (withReturns unfinishedScript) "read.js" none =
        .ok (found.filter fun f => f.rule ≠ "multiple_blank_lines", e₂)) ∧
      (found.filter fun f => f.rule ≠ "multiple_blank_lines") ≠ found := by
  have clean : '\r' ∉ unfinishedScript := by decide
  have short : (withReturns unfinishedScript).length < Measure.Commentary.braceReach := by decide
  have alike : Measure.Alike Language.javascript.tag (withReturns unfinishedScript) := by
    refine Measure.alike_of_fits (Text.returnsEndLines_withReturns clean) (by decide) (by decide) (fun offset => ?_) (by decide)
    refine ((Text.indentation_le_length _).trans ?_).trans_lt short
    rw [List.length_drop]
    exact Nat.sub_le _ _
  have tagged : Language.tagFor none (some "read.js") = some Language.javascript.tag := by decide +kernel
  obtain ⟨found, one, other, same⟩ := returns_hide_only_blank_lines .start .start clean "read.js" none
    (fun _ tag named => (Option.some.inj (tagged.symm.trans named)) ▸ alike)
  exact ⟨found, one, other, fun eq => same.mp eq ⟨rfl, holdsBlankLines_unfinishedScript⟩⟩

/-- Three empty lines are spoken of, and with returns before their line feeds they are not. -/
theorem empty_lines_behind_returns :
    ∃ found found' e₁ e₂, (start .builtIn {}).analyze "\n\n\n".toList "a" none = .ok (found, e₁) ∧
      (start .builtIn {}).analyze "\r\n\r\n\r\n".toList "a" none = .ok (found', e₂) ∧
      (∃ f ∈ found, f.rule = "multiple_blank_lines") ∧ ¬(∃ f ∈ found', f.rule = "multiple_blank_lines") ∧ found' ≠ found := by
  obtain ⟨found, analyzed⟩ := analysis_builtIn_isOk {} "\n\n\n".toList "a" none
  obtain ⟨found', analyzed'⟩ := analysis_builtIn_isOk {} "\r\n\r\n\r\n".toList "a" none
  obtain ⟨e₁, one⟩ := ((kept_start .builtIn {}).analyze_eq_ok_iff _ "a" none found).mpr analyzed
  obtain ⟨e₂, other⟩ := ((kept_start .builtIn {}).analyze_eq_ok_iff _ "a" none found').mpr analyzed'
  have spoken : ∃ f ∈ found, f.rule = "multiple_blank_lines" :=
    (exists_blankLines_iff analyzed).mpr ⟨rfl, [], [], [], [], [[]], by decide, by decide, by simp⟩
  have silent : ¬∃ f ∈ found', f.rule = "multiple_blank_lines" := fun spoken' =>
    Text.not_holdsBlankLines_withReturns "\n\n\n".toList ((exists_blankLines_iff analyzed').mp spoken').2
  exact ⟨found, found', e₁, e₂, one, other, spoken, silent, fun same => silent (same ▸ spoken)⟩

end Engine

end CodeHygiene
