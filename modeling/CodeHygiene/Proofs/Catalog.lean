import CodeHygiene.Proofs.Engine
import CodeHygiene.Proofs.Registry

/-!
The built-in rules never lack anything.

Proved:
(1) A threshold that a rule names is there whatever the settings are (`threshold_overridden`), and a least
    number of lines stays one or more (`threshold_least`); with such a least number no body without code
    is ever divided by (`documentation_isOk`, `commentary_isOk`).
(2) The rules with an analyzer are six (`filter_isStructural_rules`), and each of them has an answer for
    every text and every repository whose path holds no NUL (`violationsIn_isOk`, `ofRepository_isOk`).
(3) So the analysis of a text with the built-in rules has an answer under all settings
    (`analysis_builtIn_isOk`), and so has that of a repository (`repositoryPart_builtIn_isOk`).
-/

namespace CodeHygiene

open Repository (Tree Path)
open Settings (Thresholds overridden wholeThreshold realThreshold)

/-! ## Thresholds -/

theorem lookup_overridden {α : Type} (usual given : List (String × α)) (key : String) :
    (overridden usual given).lookup key = (usual.lookup key).map fun v => (given.lookup key).getD v := by
  induction usual with
  | nil => rfl
  | cons entry rest ih =>
    obtain ⟨name, v⟩ := entry
    simp only [overridden] at ih ⊢
    by_cases h : key = name
    · simp [h]
    · simp only [List.map_cons, List.lookup_cons, beq_eq_false_iff_ne.mpr h]
      exact ih

/-- A threshold that a rule names is there. -/
theorem threshold_overridden {usual : Thresholds} {key : String} {v : Quantity} (named : usual.lookup key = some v)
    (given : Thresholds) : Scan.threshold (overridden usual given) key = .ok ((given.lookup key).getD v) := by
  rw [Scan.threshold, lookup_overridden, named]
  rfl

theorem threshold_isOk {usual : Thresholds} {key : String} (named : (usual.lookup key).isSome) (given : Thresholds) :
    ∃ q, Scan.threshold (overridden usual given) key = .ok q := by
  obtain ⟨v, eq⟩ := Option.isSome_iff_exists.mp named
  exact ⟨_, threshold_overridden eq given⟩

/-- A least number of lines is one or more, as it was set or as the rule has it. -/
theorem threshold_least {usual : Thresholds} {key other : String} {m : Int} (named : usual.lookup key = some (.whole m))
    (pos : 1 ≤ m) (ne : key ≠ other) (n : Option (Settings.AtLeast 1)) (x : Option Float) :
    ∃ least, Scan.threshold (overridden usual (wholeThreshold key n ++ realThreshold other x)) key = .ok least ∧
      1 ≤ least.toInt := by
  refine ⟨_, threshold_overridden named _, ?_⟩
  cases n with
  | none =>
    have absent : (wholeThreshold key (none : Option (Settings.AtLeast 1)) ++ realThreshold other x).lookup key = none := by
      cases x <;> simp [wholeThreshold, realThreshold, List.lookup_cons, beq_eq_false_iff_ne.mpr ne]
    rw [absent]
    exact pos
  | some n =>
    have set : (wholeThreshold key (some n) ++ realThreshold other x).lookup key = some (.whole n.val) := by
      simp [wholeThreshold]
    rw [set]
    exact n.property

theorem threshold_pos {usual : Thresholds} {key other : String} {m : Int} (named : usual.lookup key = some (.whole m))
    (pos : 1 ≤ m) (ne : key ≠ other) {n : Option (Settings.AtLeast 1)} {x : Option Float} {least : Quantity}
    (set : Scan.threshold (overridden usual (wholeThreshold key n ++ realThreshold other x)) key = .ok least) :
    1 ≤ least.toInt := by
  obtain ⟨q, eq, reaching⟩ := threshold_least named pos ne n x
  cases set.symm.trans eq
  exact reaching

/-! ## Measures -/

theorem documentation_isOk (content : List Char) {least : Int} (pos : 1 ≤ least) (limit : Quantity) (tag : String) :
    ∃ vs, Measure.Documentation.violations content least limit tag = .ok vs := by
  rw [Measure.Documentation.violations]
  cases Language.ofTag? tag with
  | none => exact ⟨_, rfl⟩
  | some l =>
    simp only [Measure.select_eq_ok _ _ pos]
    exact ⟨_, rfl⟩

theorem commentary_isOk (content : List Char) {least : Int} (pos : 1 ≤ least) (limit : Quantity) (tag : String) :
    ∃ vs, Measure.Commentary.violations content least limit tag = .ok vs := by
  rw [Measure.Commentary.violations]
  cases Language.ofTag? tag with
  | none => exact ⟨_, rfl⟩
  | some l =>
    simp only [Measure.select_eq_ok _ _ pos]
    exact ⟨_, rfl⟩

/-! ## The rules with an analyzer -/

theorem filter_isStructural_rules :
    Catalog.rules.filter Rule.isStructural =
      [Catalog.placeholderStubFunctions, Catalog.duplicateStrings, Catalog.docCodeRatio, Catalog.verbosityRatio,
       Catalog.overEngineeringMetrics, Catalog.buzzwordInflation] := rfl

theorem mem_structural {rule : Rule} (mem : rule ∈ Catalog.rules) (structural : rule.isStructural = true) :
    rule = Catalog.placeholderStubFunctions ∨ rule = Catalog.duplicateStrings ∨ rule = Catalog.docCodeRatio ∨
      rule = Catalog.verbosityRatio ∨ rule = Catalog.overEngineeringMetrics ∨ rule = Catalog.buzzwordInflation := by
  have six : rule ∈ Catalog.rules.filter Rule.isStructural := List.mem_filter.mpr ⟨mem, structural⟩
  rw [filter_isStructural_rules] at six
  simpa using six

theorem violationsIn_isOk (s : Settings) {rule : Rule} (mem : rule ∈ Catalog.rules) {a : Analyzer}
    (own : rule.analyzer? = some a) (content : List Char) (tag : String) :
    ∃ vs, Scan.violationsIn s rule content tag a = .ok vs := by
  have structural : rule.isStructural = true := by rw [Rule.isStructural, own]; rfl
  rcases mem_structural mem structural with rfl | rfl | rfl | rfl | rfl | rfl
  · cases own
    exact ⟨_, rfl⟩
  · cases own
    obtain ⟨most, hmost⟩ : ∃ q, Scan.threshold (overridden Catalog.duplicateStrings.thresholds s.literals.thresholds)
        "max_occurrences" = .ok q := threshold_isOk rfl _
    obtain ⟨length, hlength⟩ : ∃ q, Scan.threshold (overridden Catalog.duplicateStrings.thresholds s.literals.thresholds)
        "min_length" = .ok q := threshold_isOk rfl _
    simp only [Scan.violationsIn, hmost, hlength]
    exact ⟨_, rfl⟩
  · cases own
    obtain ⟨least, hleast, pos⟩ : ∃ q, Scan.threshold (overridden Catalog.docCodeRatio.thresholds
        s.documentation.thresholds) "min_function_lines" = .ok q ∧ 1 ≤ q.toInt :=
      threshold_least rfl (by decide) (by decide) s.documentation.minFunctionLines s.documentation.maxRatio
    obtain ⟨limit, hlimit⟩ : ∃ q, Scan.threshold (overridden Catalog.docCodeRatio.thresholds
        s.documentation.thresholds) "max_ratio" = .ok q := threshold_isOk rfl _
    simp only [Scan.violationsIn, hleast, hlimit]
    exact documentation_isOk content pos (.real limit.toFloat) tag
  · cases own
    obtain ⟨least, hleast, pos⟩ : ∃ q, Scan.threshold (overridden Catalog.verbosityRatio.thresholds
        s.commentary.thresholds) "min_code_lines" = .ok q ∧ 1 ≤ q.toInt :=
      threshold_least rfl (by decide) (by decide) s.commentary.minCodeLines s.commentary.maxCommentRatio
    obtain ⟨limit, hlimit⟩ : ∃ q, Scan.threshold (overridden Catalog.verbosityRatio.thresholds
        s.commentary.thresholds) "max_comment_ratio" = .ok q := threshold_isOk rfl _
    simp only [Scan.violationsIn, hleast, hlimit]
    exact commentary_isOk content pos (.real limit.toFloat) tag
  · cases own
    exact ⟨_, rfl⟩
  · cases own
    exact ⟨_, rfl⟩

theorem opening_isOk {α : Type} {root : Path} (clean : root.holdsNul = false) (answer : α) :
    Repository.opening [root] answer = .ok answer := by
  simp [Repository.opening, clean]

theorem ofRepository_isOk (s : Settings) {rule : Rule} (mem : rule ∈ Catalog.rules) (t : Tree) {root : Path}
    (clean : root.holdsNul = false) : ∃ said, Scan.ofRepository s rule t root = .ok said := by
  cases own : rule.analyzer? with
  | none => exact ⟨_, by rw [Scan.ofRepository, own]⟩
  | some a =>
    have structural : rule.isStructural = true := by rw [Rule.isStructural, own]; rfl
    rcases mem_structural mem structural with rfl | rfl | rfl | rfl | rfl | rfl
    · exact ⟨_, rfl⟩
    · exact ⟨_, rfl⟩
    · exact ⟨_, rfl⟩
    · exact ⟨_, rfl⟩
    · obtain ⟨files, hfiles⟩ : ∃ q, Scan.threshold (overridden Catalog.overEngineeringMetrics.thresholds
          s.proportions.thresholds) "file_ratio_threshold" = .ok q := threshold_isOk rfl _
      obtain ⟨lines, hlines⟩ : ∃ q, Scan.threshold (overridden Catalog.overEngineeringMetrics.thresholds
          s.proportions.thresholds) "lines_per_export_threshold" = .ok q := threshold_isOk rfl _
      obtain ⟨depth, hdepth⟩ : ∃ q, Scan.threshold (overridden Catalog.overEngineeringMetrics.thresholds
          s.proportions.thresholds) "depth_threshold" = .ok q := threshold_isOk rfl _
      have limits : Scan.limitsOf s Catalog.overEngineeringMetrics = .ok ⟨files, lines, .whole depth.toInt⟩ := by
        simp only [Scan.limitsOf, hfiles, hlines, hdepth]
        rfl
      rw [Scan.ofRepository, own]
      cases own
      simp only [Scan.proportionsOf, limits, Repository.Proportions.measure, opening_isOk clean]
      exact ⟨_, rfl⟩
    · obtain ⟨least, hleast⟩ : ∃ q, Scan.threshold (overridden Catalog.buzzwordInflation.thresholds
          s.claims.thresholds) "min_evidence_matches" = .ok q := threshold_isOk rfl _
      rw [Scan.ofRepository, own]
      cases own
      simp only [Scan.gapsOf, Scan.requiredBy, hleast, Claim.audit, opening_isOk clean]
      exact ⟨_, rfl⟩

/-! ## Everything has an answer -/

theorem ofAnalyzers_isOk (s : Settings) (src : Scan.Source) (tag : String) {rules : List Rule}
    (known : ∀ rule ∈ rules, rule ∈ Catalog.rules) : ∃ found, Scan.ofAnalyzers s src tag rules = .ok found := by
  induction rules with
  | nil => exact ⟨[], rfl⟩
  | cons rule rest ih =>
    obtain ⟨here, others⟩ := List.forall_mem_cons.mp known
    obtain ⟨more, hmore⟩ := ih others
    rw [Scan.ofAnalyzers, hmore]
    cases own : rule.analyzer? with
    | none => exact ⟨_, rfl⟩
    | some a =>
      obtain ⟨vs, hvs⟩ := violationsIn_isOk s here own src.content tag
      simp only [Scan.ofAnalyzer, hvs]
      exact ⟨_, rfl⟩

namespace Engine

/-- The rules that an engine goes by: a table without rules stands for the built-in one. -/
def tableOf (rules : List Rule) : List Rule := if rules.isEmpty then Catalog.rules else rules

theorem registry_start (rules : List Rule) (s : Settings) :
    (start (.indexed rules) s).registry = .indexed (tableOf rules) := by
  rw [start, tableOf]
  cases rules <;> rfl

theorem of_mem_select {rules : List Rule} {s : Settings} {tag : String} {rule : Rule}
    (h : rule ∈ (start (.indexed rules) s).select tag) : rule ∈ tableOf rules ∧ s.selects rule = true := by
  rw [select, registry_start] at h
  obtain ⟨looked, selected⟩ := List.mem_filter.mp h
  exact ⟨Registry.mem_of_mem_lookup looked, selected⟩

/-- A rule for every language that may report is selected whatever the language. -/
theorem mem_select {rules : List Rule} {s : Settings} {rule : Rule} (mem : rule ∈ tableOf rules)
    (universal : rule.isUniversal = true) (selected : s.selects rule = true) (tag : String) :
    rule ∈ (start (.indexed rules) s).select tag := by
  rw [select, registry_start]
  exact List.mem_filter.mpr ⟨Registry.mem_lookup_of_isUniversal mem universal tag, selected⟩

theorem of_mem_repositoryRules {rules : List Rule} {s : Settings} {rule : Rule}
    (h : rule ∈ (start (.indexed rules) s).repositoryRules) :
    rule ∈ tableOf rules ∧ rule.isProjectLevel = true ∧ s.selects rule = true := by
  rw [repositoryRules, registry_start] at h
  obtain ⟨structural, may⟩ := List.mem_filter.mp h
  exact ⟨(List.mem_filter.mp structural).1, Bool.and_eq_true_iff.mp may⟩

theorem analysis_builtIn_isOk (s : Settings) (content : List Char) (path : String) (language : Option String) :
    ∃ found, analysis .builtIn s content path language = .ok found := by
  rw [analysis]
  cases Language.tagFor language (some path) with
  | none => exact ⟨_, rfl⟩
  | some tag =>
    have known : ∀ rule ∈ ((start .builtIn s).select (lookupTag (some tag))).filter fun rule =>
        !Exclusion.excludes path rule.excludes, rule ∈ Catalog.rules :=
      fun rule mem => (of_mem_select (List.mem_filter.mp mem).1).1
    obtain ⟨found, eq⟩ := ofAnalyzers_isOk s { path, content } tag known
    simp only [judge, eq]
    split <;> exact ⟨_, rfl⟩

theorem alone_builtIn_isOk (s : Settings) (file : String) (content : List Char) :
    ∃ found, alone .builtIn s file content = .ok found := by
  rw [alone_eq]
  exact analysis_builtIn_isOk _ _ _ _

theorem judgeRepository_isOk (s : Settings) (t : Tree) {root : Path} (clean : root.holdsNul = false)
    {rules : List Rule} (known : ∀ rule ∈ rules, rule ∈ Catalog.rules) :
    ∃ said, judgeRepository s t root rules = .ok said := by
  induction rules with
  | nil => exact ⟨([], []), rfl⟩
  | cons rule rest ih =>
    obtain ⟨here, others⟩ := List.forall_mem_cons.mp known
    obtain ⟨said, eq⟩ := ofRepository_isOk s here t clean
    obtain ⟨more, hmore⟩ := ih others
    rw [judgeRepository, eq, hmore]
    exact ⟨_, rfl⟩

theorem repositoryPart_builtIn_isOk (s : Settings) (t : Tree) {root : Option Path}
    (clean : ∀ r, root = some r → r.holdsNul = false) : ∃ said, (start .builtIn s).repositoryPart t root = .ok said := by
  cases root with
  | none => exact ⟨([], []), rfl⟩
  | some root =>
    simp only [repositoryPart]
    split
    · exact ⟨([], []), rfl⟩
    · exact judgeRepository_isOk _ t (clean root rfl) fun rule mem => (of_mem_repositoryRules mem).1

end Engine

end CodeHygiene
