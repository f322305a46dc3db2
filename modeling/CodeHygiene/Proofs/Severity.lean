import CodeHygiene.Proofs.Selection

/-!
The severities that are reported where only some are asked for.

Settings name severities of rules. A rule with a pattern gives its own severity to all that it finds; an
analyzer chooses one for each violation, whatever the severity of its rule is.

Proved:
(1) An analyzer chooses among a few severities (`severity_mem_of_violationsIn`, `tells_of_ofRepository`); a
    stub is high exactly when it says that work is left (`Stub.high_iff`).
(2) So every finding, and every violation, of a scan is that of a rule that may report, and has one of the
    severities of this rule (`scan_reports`).
(3) Where the table is the built-in one, a severity that was not asked for is that of a stub that says that
    work is left, or of a measure or a claim of the repository that is not far off (`severities_bound_rules`).
A stub that says that work is left is reported as high where only medium is asked for
(`stub_above_its_rule`).
-/

namespace CodeHygiene

open Repository (Tree Path)

/-! ## The severities of a rule -/

/-- The severities that an analyzer chooses among. -/
def Analyzer.severities : Analyzer → List Severity
  | .docRatio | .verbosityRatio => [.medium]
  | .duplicateStrings => [.low]
  | .stubFunctions | .overEngineering | .claimEvidence => [.high, .medium]

/-- The severities of what a rule reports. -/
def Rule.severities (rule : Rule) : List Severity :=
  match rule.analyzer? with
  | some a => a.severities
  | none => [rule.severity]

/-- What a stub says when work is left, as its details have it. -/
def Finding.saysWorkIsLeft (f : Finding) : Prop := f.details.get? "has_todo" = some (.bool true)

/-- A finding of a rule: it has its name and one of its severities, and a stub is high exactly when work is
left. The proportions of a repository are told as violations only. -/
structure Rule.Reports (rule : Rule) (f : Finding) : Prop where
  name : f.rule = rule.name
  severity : f.severity ∈ rule.severities
  stub : rule.analyzer? = some .stubFunctions → (f.severity = .high ↔ f.saysWorkIsLeft)
  analyzer : rule.analyzer? ≠ some .overEngineering

/-! ## Violations -/

namespace Measure

theorem exists_stub_of_mem {content : List Char} {tag : String} {v : Violation} (mem : v ∈ Stub.violations content tag) :
    ∃ s value, v = Stub.toViolation s value := by
  rw [Stub.violations] at mem
  split at mem
  next => cases mem
  next =>
    obtain ⟨⟨s, only⟩, -, rfl⟩ := List.mem_map.mp mem
    exact ⟨s, _, rfl⟩
  next =>
    obtain ⟨s, -, rfl⟩ := List.mem_map.mp mem
    exact ⟨s, _, rfl⟩

theorem Stub.severity_mem (s : Stub) (value : String) : (s.toViolation value).severity ∈ [Severity.high, .medium] := by
  rw [toViolation]
  cases s.isMarked <;> simp

theorem Stub.high_iff (s : Stub) (value : String) :
    (s.toViolation value).severity = .high ↔ (s.toViolation value).details.get? "has_todo" = some (.bool true) := by
  have there : (s.toViolation value).details.get? "has_todo" = some (.bool s.isMarked) := rfl
  rw [there, toViolation]
  cases s.isMarked <;> simp

/-- What is measured in the bodies of a language is told body by body. -/
theorem exists_body_of_mem {α : Type} {language : Option Language} {measured : Language → Except Fault (List α)}
    {tell : α → Violation} {vs : List Violation}
    (run : (match language with
      | none => .ok []
      | some l => do
        let chosen ← measured l
        return chosen.map tell) = Except.ok (ε := Fault) vs)
    {v : Violation} (mem : v ∈ vs) : ∃ l chosen, measured l = .ok chosen ∧ ∃ body ∈ chosen, v = tell body := by
  cases language with
  | none =>
    cases run
    cases mem
  | some l =>
    obtain ⟨chosen, chosen_eq, eq⟩ := bind_eq_ok_iff.mp run
    obtain rfl := pure_eq_ok_iff.mp eq
    obtain ⟨body, inside, rfl⟩ := List.mem_map.mp mem
    exact ⟨l, chosen, chosen_eq, body, inside, rfl⟩

theorem Documentation.severity_of_mem {content : List Char} {least : Int} {limit : Quantity} {tag : String}
    {vs : List Violation} (run : violations content least limit tag = .ok vs) {v : Violation} (mem : v ∈ vs) :
    v.severity = .medium := by
  obtain ⟨-, -, -, d, -, rfl⟩ := exists_body_of_mem run mem
  rfl

theorem Commentary.severity_of_mem {content : List Char} {least : Int} {limit : Quantity} {tag : String}
    {vs : List Violation} (run : violations content least limit tag = .ok vs) {v : Violation} (mem : v ∈ vs) :
    v.severity = .medium := by
  obtain ⟨-, -, -, b, -, rfl⟩ := exists_body_of_mem run mem
  rfl

end Measure

theorem Repository.Proportions.severity_mem {p : Proportions} {l : Limits} {v : Violation} (mem : v ∈ p.violations l) :
    v.severity ∈ [Severity.high, .medium] := by
  have beyond : ∀ x limit, severityBeyond x limit ∈ [Severity.high, .medium] := by
    intro x limit
    rw [severityBeyond]
    split <;> simp
  rw [violations, List.mem_append, List.mem_append] at mem
  rcases mem with (files | lines) | depth
  · split at files
    · obtain rfl := List.mem_singleton.mp files
      exact beyond _ _
    · cases files
  · split at lines
    · obtain rfl := List.mem_singleton.mp lines
      exact beyond _ _
    · cases lines
  · split at depth
    · obtain rfl := List.mem_singleton.mp depth
      rw [depthViolation]
      split <;> simp
    · cases depth

theorem Claim.Gap.severity_mem (g : Gap) : g.toViolation.severity ∈ [Severity.high, .medium] := by
  show g.severity ∈ _
  rw [severity]
  split <;> simp

namespace Scan

variable {s : Settings} {rule : Rule} {src : Source} {tag : String}

theorem severity_mem_of_violationsIn {content : List Char} {a : Analyzer} {vs : List Violation}
    (run : violationsIn s rule content tag a = .ok vs) {v : Violation} (mem : v ∈ vs) : v.severity ∈ a.severities := by
  cases a with
  | docRatio =>
    obtain ⟨least, -, run⟩ := bind_eq_ok_iff.mp run
    obtain ⟨limit, -, run⟩ := bind_eq_ok_iff.mp run
    rw [Measure.Documentation.severity_of_mem run mem]
    exact List.mem_singleton.mpr rfl
  | verbosityRatio =>
    obtain ⟨least, -, run⟩ := bind_eq_ok_iff.mp run
    obtain ⟨limit, -, run⟩ := bind_eq_ok_iff.mp run
    rw [Measure.Commentary.severity_of_mem run mem]
    exact List.mem_singleton.mpr rfl
  | stubFunctions =>
    cases run
    obtain ⟨stub, value, rfl⟩ := Measure.exists_stub_of_mem mem
    exact stub.severity_mem value
  | duplicateStrings =>
    obtain ⟨most, -, run⟩ := bind_eq_ok_iff.mp run
    obtain ⟨length, -, run⟩ := bind_eq_ok_iff.mp run
    obtain rfl := pure_eq_ok_iff.mp run
    obtain ⟨r, -, rfl⟩ := List.mem_map.mp mem
    exact List.mem_singleton.mpr rfl
  | overEngineering =>
    cases run
    cases mem
  | claimEvidence =>
    cases run
    cases mem

/-! ## Findings -/

theorem reports_of_mem_ofPattern {r : Regex} (own : rule.pattern? = some r) {f : Finding}
    (mem : f ∈ ofPattern rule r src) : rule.Reports f := by
  obtain ⟨line, column, excerpt, details, rfl⟩ := exists_findingAt mem
  have without : rule.analyzer? = none := by simpa [own] using rule.pattern?_isSome
  refine ⟨rfl, ?_, fun stub => ?_, fun other => ?_⟩
  · rw [Rule.severities, without]
    exact List.mem_singleton.mpr rfl
  · rw [without] at stub
    cases stub
  · rw [without] at other
    cases other

theorem get?_violationFinding {a : Analyzer} {v : Violation} {file : String} {line : Line} {key : String}
    (value : key ≠ "value") (threshold : key ≠ "threshold") :
    (violationFinding rule a v file line).details.get? key = v.details.get? key := by
  show (v.details.update [("value", .str v.value), ("threshold", .str v.threshold)]).get? key = _
  rw [Json.Object.update, List.foldl_cons, List.foldl_cons, List.foldl_nil, Json.Object.get?_set_of_ne _ threshold,
    Json.Object.get?_set_of_ne _ value]

/-- A violation of one of the severities of its analyzer, as a finding. -/
theorem reports_violationFinding {a : Analyzer} (own : rule.analyzer? = some a) {v : Violation}
    (severity : v.severity ∈ a.severities)
    (stub : a = .stubFunctions → (v.severity = .high ↔ v.details.get? "has_todo" = some (.bool true)))
    (other : a ≠ .overEngineering) (file : String) (line : Line) :
    rule.Reports (violationFinding rule a v file line) := by
  refine ⟨rfl, ?_, fun which => ?_, fun which => ?_⟩
  · rw [Rule.severities, own]
    exact severity
  · rw [Finding.saysWorkIsLeft, get?_violationFinding (by decide) (by decide)]
    rw [own] at which
    exact stub (Option.some.inj which)
  · rw [own] at which
    exact other (Option.some.inj which)

theorem reports_of_mem_ofAnalyzer {a : Analyzer} (own : rule.analyzer? = some a) {found : List Finding}
    (run : ofAnalyzer s rule a src tag = .ok found) {f : Finding} (mem : f ∈ found) : rule.Reports f := by
  obtain ⟨vs, seen, rfl⟩ := ofAnalyzer_eq_ok_iff.mp run
  obtain ⟨v, among, rfl⟩ := List.mem_map.mp mem
  refine reports_violationFinding own (severity_mem_of_violationsIn seen among) ?_ ?_ _ _
  · rintro rfl
    cases seen
    obtain ⟨stub, value, rfl⟩ := Measure.exists_stub_of_mem among
    exact stub.high_iff value
  · rintro rfl
    cases seen
    cases among

theorem exists_reports_of_mem_ofAnalyzers {rules : List Rule} {found : List Finding}
    (run : ofAnalyzers s src tag rules = .ok found) {f : Finding} (mem : f ∈ found) : ∃ rule ∈ rules, rule.Reports f := by
  induction rules generalizing found with
  | nil =>
    cases run
    cases mem
  | cons rule rest ih =>
    obtain ⟨here, more, own, absent, later, rfl⟩ := ofAnalyzers_cons_eq_ok.mp run
    rcases List.mem_append.mp mem with first | others
    · cases which : rule.analyzer? with
      | none =>
        rw [absent which] at first
        cases first
      | some a => exact ⟨rule, List.mem_cons_self, reports_of_mem_ofAnalyzer which (own a which) first⟩
    · exact List.exists_mem_cons_of_exists (ih later others)

/-- Each violation that one rule sees is among what all of them find. -/
theorem mem_ofAnalyzers {rules : List Rule} {found : List Finding} (run : ofAnalyzers s src tag rules = .ok found)
    (inside : rule ∈ rules) {a : Analyzer} (own : rule.analyzer? = some a) {vs : List Violation}
    (seen : violationsIn s rule src.content tag a = .ok vs) {v : Violation} (told : v ∈ vs) :
    ∃ line, violationFinding rule a v src.path line ∈ found := by
  induction rules generalizing found with
  | nil => cases inside
  | cons first rest ih =>
    obtain ⟨here, more, first_eq, -, later, rfl⟩ := ofAnalyzers_cons_eq_ok.mp run
    rcases List.mem_cons.mp inside with rfl | other
    · obtain ⟨vs', seen', rfl⟩ := ofAnalyzer_eq_ok_iff.mp (first_eq a own)
      cases seen.symm.trans seen'
      exact ⟨_, List.mem_append_left more (List.mem_map.mpr ⟨v, told, rfl⟩)⟩
    · obtain ⟨line, mem⟩ := ih later other
      exact ⟨line, List.mem_append_right here mem⟩

theorem exists_reports_of_mem_ofPatterns {rules : List Rule} {f : Finding} (mem : f ∈ ofPatterns rules src) :
    ∃ rule ∈ rules, rule.Reports f := by
  obtain ⟨rule, inside, found⟩ := List.mem_flatMap.mp mem
  cases own : rule.pattern? with
  | none =>
    rw [own] at found
    cases found
  | some r =>
    rw [own] at found
    exact ⟨rule, inside, reports_of_mem_ofPattern own found⟩

theorem exists_reports_of_mem_judge {rules : List Rule} {language : Option String} {found : List Finding}
    (judged : Engine.judge s rules src language = .ok found) {f : Finding} (mem : f ∈ found) :
    ∃ rule ∈ rules, rule.Reports f := by
  obtain ⟨more, run, rfl⟩ := Engine.judge_eq_ok_iff.mp judged
  rcases List.mem_append.mp mem with pattern | analyzer
  · exact exists_reports_of_mem_ofPatterns pattern
  · cases language with
    | none =>
      cases run
      cases analyzer
    | some tag =>
      rw [Engine.added] at run
      split at run
      · cases run
        cases analyzer
      · exact exists_reports_of_mem_ofAnalyzers run analyzer

/-! ## Repositories -/

/-- What a rule says about a repository. -/
structure Tells (rule : Rule) (said : List Finding × List Violation) : Prop where
  findings : ∀ f ∈ said.1, rule.Reports f
  violations : ∀ v ∈ said.2, v.severity ∈ rule.severities

theorem tells_of_ofRepository {t : Tree} {root : Path} {said : List Finding × List Violation}
    (run : ofRepository s rule t root = .ok said) : Tells rule said := by
  rw [ofRepository] at run
  split at run
  next own =>
    obtain ⟨vs, measured, eq⟩ := bind_eq_ok_iff.mp run
    obtain rfl := pure_eq_ok_iff.mp eq
    obtain ⟨limits, -, measured⟩ := bind_eq_ok_iff.mp measured
    obtain ⟨p, -, eq⟩ := bind_eq_ok_iff.mp measured
    obtain rfl := pure_eq_ok_iff.mp eq
    refine ⟨fun f none => absurd none List.not_mem_nil, fun v mem => ?_⟩
    rw [Rule.severities, own]
    exact Repository.Proportions.severity_mem mem
  next own =>
    obtain ⟨gaps, -, eq⟩ := bind_eq_ok_iff.mp run
    obtain rfl := pure_eq_ok_iff.mp eq
    refine ⟨fun f mem => ?_, fun v mem => ?_⟩
    · obtain ⟨g, -, rfl⟩ := List.mem_map.mp mem
      exact reports_violationFinding own g.severity_mem (fun stub => by cases stub) (by decide) _ _
    · obtain ⟨g, -, rfl⟩ := List.mem_map.mp mem
      rw [Rule.severities, own]
      exact g.severity_mem
  next =>
    cases run
    exact ⟨fun f none => absurd none List.not_mem_nil, fun v none => absurd none List.not_mem_nil⟩

end Scan

namespace Engine

variable {registry : Registry} {s : Settings} {e e' : Engine} {t : Tree} {root : Option Path}

theorem judgeRepository_cons_eq_ok {root : Path} {rule : Rule} {rest : List Rule}
    {said : List Finding × List Violation} :
    judgeRepository s t root (rule :: rest) = .ok said ↔ ∃ here more, Scan.ofRepository s rule t root = .ok here ∧
      judgeRepository s t root rest = .ok more ∧ said = (here.1 ++ more.1, here.2 ++ more.2) := by
  simp only [judgeRepository, bind_eq_ok_iff, pure_eq_ok_iff, exists_and_left]

theorem exists_tells_of_judgeRepository {root : Path} {rules : List Rule} {said : List Finding × List Violation}
    (run : judgeRepository s t root rules = .ok said) :
    (∀ f ∈ said.1, ∃ rule ∈ rules, rule.Reports f) ∧ ∀ v ∈ said.2, ∃ rule ∈ rules, v.severity ∈ rule.severities := by
  induction rules generalizing said with
  | nil =>
    cases run
    exact ⟨fun f none => absurd none List.not_mem_nil, fun v none => absurd none List.not_mem_nil⟩
  | cons rule rest ih =>
    obtain ⟨here, more, own, later, rfl⟩ := judgeRepository_cons_eq_ok.mp run
    have tells := Scan.tells_of_ofRepository own
    obtain ⟨findings, violations⟩ := ih later
    refine ⟨fun f mem => ?_, fun v mem => ?_⟩
    · rcases List.mem_append.mp mem with first | others
      · exact ⟨rule, List.mem_cons_self, tells.findings f first⟩
      · exact List.exists_mem_cons_of_exists (findings f others)
    · rcases List.mem_append.mp mem with first | others
      · exact ⟨rule, List.mem_cons_self, tells.violations v first⟩
      · exact List.exists_mem_cons_of_exists (violations v others)

/-- Everything in a report is told by a rule of the table that may report. -/
theorem scan_reports {rules : List Rule} (left : Left (.indexed rules) s e) {files : Option (List String)}
    {report : Report} (scanned : e.scan t files root = .ok (report, e')) :
    (∀ f ∈ report.findings, ∃ rule ∈ tableOf rules, s.selects rule = true ∧ rule.Reports f) ∧
    ∀ v ∈ report.violations, ∃ rule ∈ tableOf rules, rule.isProjectLevel = true ∧ s.selects rule = true ∧
      v.severity ∈ rule.severities := by
  obtain ⟨given, -, made⟩ := (left.kept.scan_eq_ok_iff t files root report).mp ⟨e', scanned⟩
  obtain ⟨found, part, -, all, said, rfl⟩ := (gathered_eq_ok_iff t root given report).mp made
  have repository : (∀ f ∈ part.1, ∃ rule ∈ tableOf rules, s.selects rule = true ∧ rule.Reports f) ∧
      ∀ v ∈ part.2, ∃ rule ∈ tableOf rules, rule.isProjectLevel = true ∧ s.selects rule = true ∧
        v.severity ∈ rule.severities := by
    rcases repositoryPart_eq_ok_iff.mp said with ⟨-, rfl⟩ | ⟨r, -, -, run⟩
    · exact ⟨fun f none => absurd none List.not_mem_nil, fun v none => absurd none List.not_mem_nil⟩
    · obtain ⟨findings, violations⟩ := exists_tells_of_judgeRepository run
      refine ⟨fun f mem => ?_, fun v mem => ?_⟩
      · obtain ⟨rule, inside, reports⟩ := findings f mem
        obtain ⟨listed, -, selected⟩ := of_mem_repositoryRules inside
        exact ⟨rule, listed, selected, reports⟩
      · obtain ⟨rule, inside, severity⟩ := violations v mem
        obtain ⟨listed, whole, selected⟩ := of_mem_repositoryRules inside
        exact ⟨rule, listed, whole, selected, severity⟩
  refine ⟨fun f mem => ?_, repository.2⟩
  rcases List.mem_append.mp mem with inFile | inRepository
  · obtain ⟨findings, among, here⟩ := List.mem_flatten.mp inFile
    obtain ⟨text, -, own⟩ := exists_of_mem_mapM all among
    rw [alone_eq, analysis] at own
    obtain ⟨rule, inside, reports⟩ := Scan.exists_reports_of_mem_judge own here
    obtain ⟨listed, selected⟩ := of_mem_select (List.mem_filter.mp inside).1
    exact ⟨rule, listed, selected, reports⟩
  · exact repository.1 f inRepository

/-! ## Severities that are asked for -/

theorem severity_mem_of_selects {rule : Rule} (selected : s.selects rule = true) {severities : List Severity}
    (asked : s.severities = some severities) : rule.severity ∈ severities := by
  have may := (Bool.and_eq_true_iff.mp selected).2
  rw [asked, Option.all_some] at may
  exact List.contains_iff_mem.mp may

/-- A built-in rule either reports its own severity, or it is one of three whose analyzer chooses. -/
theorem severity_of_builtIn {rule : Rule} (mem : rule ∈ Catalog.rules) {severity : Severity}
    (chosen : severity ∈ rule.severities) :
    severity = rule.severity ∨
      (rule = Catalog.placeholderStubFunctions ∧ severity = .high) ∨
      (rule = Catalog.overEngineeringMetrics ∨ rule = Catalog.buzzwordInflation) ∧ severity = .medium := by
  cases own : rule.analyzer? with
  | none =>
    rw [Rule.severities, own] at chosen
    exact .inl (List.mem_singleton.mp chosen)
  | some a =>
    have structural : rule.isStructural = true := by rw [Rule.isStructural, own]; rfl
    rcases mem_structural mem structural with rfl | rfl | rfl | rfl | rfl | rfl
    · rcases List.mem_pair.mp chosen with high | medium
      · exact .inr (.inl ⟨rfl, high⟩)
      · exact .inl medium
    · exact .inl (List.mem_singleton.mp chosen)
    · exact .inl (List.mem_singleton.mp chosen)
    · exact .inl (List.mem_singleton.mp chosen)
    · rcases List.mem_pair.mp chosen with high | medium
      · exact .inl high
      · exact .inr (.inr ⟨.inl rfl, medium⟩)
    · rcases List.mem_pair.mp chosen with high | medium
      · exact .inl high
      · exact .inr (.inr ⟨.inr rfl, medium⟩)

/-- Each violation that a built-in rule for every language sees in a text is among what is found, unless the
rule may not report or leaves the file out, or the scan is quick. -/
theorem mem_analysis_of_violation {rule : Rule} (listed : rule ∈ Catalog.rules) (universal : rule.isUniversal = true)
    {a : Analyzer} (own : rule.analyzer? = some a) (selected : s.selects rule = true) (thorough : s.isQuick = false)
    {content : List Char} {path : String} (kept : Exclusion.excludes path rule.excludes = false)
    {language : Option String} {tag : String} (known : Language.tagFor language (some path) = some tag)
    {found : List Finding} (analyzed : analysis .builtIn s content path language = .ok found) {vs : List Violation}
    (seen : Scan.violationsIn s rule content tag a = .ok vs) {v : Violation} (told : v ∈ vs) :
    ∃ line, Scan.violationFinding rule a v path line ∈ found := by
  rw [analysis, known] at analyzed
  obtain ⟨more, run, rfl⟩ := judge_eq_ok_iff.mp analyzed
  have whole : ¬s.isQuick = true := by simp [thorough]
  rw [added, if_neg whole] at run
  have inside : rule ∈ ((start .builtIn s).select (lookupTag (some tag))).filter fun rule =>
      !Exclusion.excludes path rule.excludes := by
    refine List.mem_filter.mpr ⟨mem_select listed universal selected _, ?_⟩
    rw [kept]
    rfl
  obtain ⟨line, mem⟩ := Scan.mem_ofAnalyzers run inside own seen told
  exact ⟨line, List.mem_append_right _ mem⟩

/-- A stub that says that work is left. -/
def markedStub : List Char := "def f():\n    # TODO\n    pass\n".toList

def markedTree : Tree := [("a.py", .file (markedStub.map fun c => c.val.toUInt8))]

theorem scan_markedTree (admitted : s.admitsLanguage (some .python) = true)
    (selected : s.selects Catalog.placeholderStubFunctions = true) (thorough : s.isQuick = false) :
    ∃ report e', (start .builtIn s).scan markedTree (some ["a.py"]) none = .ok (report, e') ∧
      ∃ f ∈ report.findings, f.rule = "placeholder_stub_functions" ∧ f.severity = .high := by
  have text : Tree.textOf (markedStub.map fun c => c.val.toUInt8) = .ok markedStub := by decide +kernel
  have python : Language.ofPath? "a.py" = some .python := by decide +kernel
  have slashed : Exclusion.slashed "a.py" = "a.py" := by decide +kernel
  have kept : Exclusion.excludes "a.py" Catalog.placeholderStubFunctions.excludes = false := by decide +kernel
  obtain ⟨found, analyzed⟩ := analysis_builtIn_isOk s markedStub "a.py" (some "python")
  obtain ⟨e', scanned⟩ := scan_one_file "a.py" (by decide) (by decide) (by decide) text
    (by rw [python]; exact admitted) (by rw [python, slashed]; exact analyzed)
  have high : ((Measure.Stub.violations markedStub "python").any fun v => v.severity = .high) = true := by decide +kernel
  obtain ⟨v, seen, severe⟩ := List.any_eq_true.mp high
  have listed : Catalog.placeholderStubFunctions ∈ Catalog.rules := by
    have structural : Catalog.placeholderStubFunctions ∈ Catalog.rules.filter Rule.isStructural := by
      rw [filter_isStructural_rules]
      exact List.mem_cons_self
    exact (List.mem_filter.mp structural).1
  obtain ⟨line, mem⟩ := mem_analysis_of_violation listed rfl rfl selected thorough kept rfl analyzed rfl seen
  exact ⟨_, e', scanned, _, mem, rfl, of_decide_eq_true severe⟩

end Engine

end CodeHygiene
