import CodeHygiene.Proofs.Secret
import CodeHygiene.Proofs.Severity

/-!
The table that an engine goes by.

An engine is given a registry and answers from it which rules a language has, keeping each answer. A
registry without rules is not gone by: the built-in one stands in for it.

Proved:
(1) What a table gives a language is one pass through it, in its order (`rulesUnder_indexed`); each rule is
    given to its own language (`mem_rulesUnder_own`).
(2) One question does not change what the next one is answered with (`Left.rulesFor_fst`), so a series of
    them is answered language by language, whatever was asked before (`Left.rulesForEach`).
(3) An engine goes by the table it was given exactly when that table has a rule or no built-in rule may
    report (`goesBy_iff`); then no finding names a rule outside the table (`engine_runs_table`).
An engine that is given no rules answers with built-in ones and reports what they find
(`no_rules_given`).
-/

namespace CodeHygiene

namespace Registry

/-- The rules of a table for a language, without one those for every language, that may report. -/
def rulesUnder (registry : Registry) (s : Settings) (language : Option String) : List Rule :=
  (registry.lookup { language := some (Engine.lookupTag language) }).filter s.selects

variable {rules : List Rule} {s : Settings}

theorem rulesUnder_indexed (rules : List Rule) (s : Settings) (language : Option String) :
    (indexed rules).rulesUnder s language = rules.filter fun r =>
      s.selects r && (decide (r.language = none) || decide (r.language =
        some (if rules.any (·.language = some (Engine.lookupTag language)) then Engine.lookupTag language
          else universalTag))) := by
  rw [rulesUnder, lookup_language, List.filter_filter]
  refine List.filter_congr fun r _ => ?_
  rw [standsUnder_tagUnder]

/-- No built-in rule is for a language without a tag. -/
theorem language_ne_empty : ∀ r ∈ Catalog.rules, r.language ≠ some "" := by decide

/-- A rule that may report is given to its own language. -/
theorem mem_rulesUnder_own {r : Rule} (mem : r ∈ rules) (tagged : r.language ≠ some "") (selected : s.selects r = true) :
    r ∈ (indexed rules).rulesUnder s r.language := by
  rw [rulesUnder_indexed]
  refine List.mem_filter.mpr ⟨mem, ?_⟩
  rw [selected, Bool.true_and]
  cases own : r.language with
  | none => rfl
  | some tag =>
    have ne : tag ≠ "" := fun empty => tagged (by rw [own, empty])
    have asked : Engine.lookupTag (some tag) = tag := if_neg ne
    have known : rules.any (·.language = some tag) = true :=
      List.any_eq_true.mpr ⟨r, mem, decide_eq_true own⟩
    rw [asked, if_pos known]
    simp

theorem rulesUnder_nil (s : Settings) (language : Option String) : (indexed []).rulesUnder s language = [] := by
  rw [rulesUnder_indexed]
  rfl

end Registry

namespace Engine

variable {registry : Registry} {rules : List Rule} {s : Settings} {e e' : Engine}

/-! ## Questions in series -/

/-- What a series of languages is answered with, and the engine that is left. -/
def rulesForEach (e : Engine) : List (Option String) → List (List Rule) × Engine
  | [] => ([], e)
  | language :: rest =>
    let (here, e) := e.rulesFor language
    let (more, e) := e.rulesForEach rest
    (here :: more, e)

theorem Left.rulesFor_fst (left : Left registry s e) (language : Option String) :
    (e.rulesFor language).1 = (Engine.start registry s).registry.rulesUnder s language := by
  have answered := ((sound_selecting language).finish left.kept).1
  rw [finish_selecting] at answered
  exact answered

/-- A series of questions is answered language by language. -/
theorem Left.rulesForEach (left : Left registry s e) (languages : List (Option String)) :
    (e.rulesForEach languages).1 = languages.map ((Engine.start registry s).registry.rulesUnder s) ∧
      Left registry s (e.rulesForEach languages).2 := by
  induction languages generalizing e with
  | nil => exact ⟨rfl, left⟩
  | cons language rest ih =>
    obtain ⟨answers, after⟩ := ih (left.rulesFor language)
    refine ⟨?_, after⟩
    rw [Engine.rulesForEach, List.map_cons, ← left.rulesFor_fst language, ← answers]

/-! ## The table that was given -/

/-- Engines with this registry answer from it, whatever was asked of them before. -/
def GoesBy (registry : Registry) (s : Settings) : Prop :=
  ∀ e, Left registry s e → ∀ languages, (e.rulesForEach languages).1 = languages.map (registry.rulesUnder s)

theorem goesBy_of_ne_nil (nonempty : rules ≠ []) (s : Settings) : GoesBy (.indexed rules) s := by
  intro e left languages
  rw [(left.rulesForEach languages).1, registry_start, tableOf_of_ne_nil nonempty]

/-- Where no built-in rule may report, the table that stands in for one without rules answers like it. -/
theorem goesBy_nil (silent : ∀ rule ∈ Catalog.rules, s.selects rule = false) : GoesBy (.indexed []) s := by
  intro e left languages
  have nothing : ∀ language, Registry.builtIn.rulesUnder s language = [] := by
    intro language
    refine List.eq_nil_iff_forall_not_mem.mpr fun rule mem => ?_
    obtain ⟨looked, selected⟩ := List.mem_filter.mp mem
    rw [silent rule (Registry.mem_of_mem_lookup looked)] at selected
    cases selected
  rw [(left.rulesForEach languages).1]
  refine List.map_congr_left fun language _ => ?_
  rw [Registry.rulesUnder_nil]
  exact nothing language

theorem goesBy_iff (rules : List Rule) (s : Settings) :
    GoesBy (.indexed rules) s ↔ rules ≠ [] ∨ ∀ rule ∈ Catalog.rules, s.selects rule = false := by
  constructor
  · intro goes
    by_cases empty : rules = []
    · subst empty
      refine .inr fun rule mem => ?_
      by_contra reporting
      -- The rule is answered for its own language, where the table itself has nothing to answer with.
      have answered := goes _ .start [rule.language]
      rw [(Left.start.rulesForEach [rule.language]).1, List.map_singleton, List.map_singleton,
        Registry.rulesUnder_nil, List.singleton_inj] at answered
      have own : rule ∈ Registry.builtIn.rulesUnder s rule.language :=
        Registry.mem_rulesUnder_own mem (Registry.language_ne_empty rule mem) (by simpa using reporting)
      have none : Registry.builtIn.rulesUnder s rule.language = [] := answered
      rw [none] at own
      cases own
    · exact .inl empty
  · rintro (nonempty | silent)
    · exact goesBy_of_ne_nil nonempty s
    · by_cases empty : rules = []
      · subst empty
        exact goesBy_nil silent
      · exact goesBy_of_ne_nil empty s

/-! ## What is reported -/

theorem analyze_reports (left : Left (.indexed rules) s e) {content : List Char} {path : String}
    {language : Option String} {found : List Finding} (analyzed : e.analyze content path language = .ok (found, e')) :
    ∀ f ∈ found, ∃ rule ∈ tableOf rules, s.selects rule = true ∧ rule.Reports f := by
  intro f mem
  have judged := (left.kept.analyze_eq_ok_iff content path language found).mp ⟨e', analyzed⟩
  obtain ⟨rule, inside, reports⟩ := Scan.exists_reports_of_mem_judge judged mem
  obtain ⟨listed, selected⟩ := of_mem_select (List.mem_filter.mp inside).1
  exact ⟨rule, listed, selected, reports⟩

/-- Where some rule may report, it is one of the table exactly when the engine goes by the table. -/
theorem GoesBy.mem_of_mem_tableOf (goes : GoesBy (.indexed rules) s) {rule : Rule} (mem : rule ∈ tableOf rules)
    (selected : s.selects rule = true) : rule ∈ rules := by
  rcases (goesBy_iff rules s).mp goes with nonempty | silent
  · rwa [tableOf_of_ne_nil nonempty] at mem
  · by_cases empty : rules = []
    · subst empty
      rw [silent rule mem] at selected
      cases selected
    · rwa [tableOf_of_ne_nil empty] at mem

/-- A table of rules with distinct names:
- what it gives a language is one pass through it, in its order;
- engines that are given it answer every series of questions with that, whatever was asked before, exactly
  when the table has a rule or no built-in rule may report;
- then every finding, in a text or in a scan, is that of a rule of the table that may report. -/
theorem engine_runs_table (made : Registry.ofRules rules = .ok registry) (s : Settings) :
    (∀ language, registry.rulesUnder s language = rules.filter fun r =>
      s.selects r && (decide (r.language = none) || decide (r.language =
        some (if rules.any (·.language = some (lookupTag language)) then lookupTag language else universalTag)))) ∧
    (GoesBy registry s ↔ rules ≠ [] ∨ ∀ rule ∈ Catalog.rules, s.selects rule = false) ∧
    (GoesBy registry s → ∀ e, Left registry s e →
      (∀ content path language found e', e.analyze content path language = .ok (found, e') →
        ∀ f ∈ found, ∃ rule ∈ rules, s.selects rule = true ∧ f.rule = rule.name) ∧
      (∀ t files root report e', e.scan t files root = .ok (report, e') →
        ∀ f ∈ report.findings, ∃ rule ∈ rules, s.selects rule = true ∧ f.rule = rule.name)) := by
  obtain ⟨-, rfl⟩ := Registry.ofRules_eq_ok_iff.mp made
  refine ⟨Registry.rulesUnder_indexed rules s, goesBy_iff rules s, fun goes e left => ⟨?_, ?_⟩⟩
  · intro content path language found e' analyzed f mem
    obtain ⟨rule, listed, selected, reports⟩ := analyze_reports left analyzed f mem
    exact ⟨rule, goes.mem_of_mem_tableOf listed selected, selected, reports.name⟩
  · intro t files root report e' scanned f mem
    obtain ⟨rule, listed, selected, reports⟩ := (scan_reports left scanned).1 f mem
    exact ⟨rule, goes.mem_of_mem_tableOf listed selected, selected, reports.name⟩

/-- A rule for one language and one for all, asked for in series; the second question for a language is
answered from what is kept. -/
theorem engine_runs_table_two_rules :
    Registry.ofRules [Catalog.pythonDebugging, Catalog.openaiApiKey] =
        .ok (.indexed [Catalog.pythonDebugging, Catalog.openaiApiKey]) ∧
      ((start (.indexed [Catalog.pythonDebugging, Catalog.openaiApiKey]) {}).rulesForEach
          [some "python", none, some "python", some "cobol"]).1.map (·.map Rule.name) =
        [["python_debugging", "openai_api_key"], ["openai_api_key"], ["python_debugging", "openai_api_key"],
          ["openai_api_key"]] := by
  have made : Registry.ofRules [Catalog.pythonDebugging, Catalog.openaiApiKey] =
      .ok (.indexed [Catalog.pythonDebugging, Catalog.openaiApiKey]) :=
    Registry.ofRules_eq_ok_iff.mpr ⟨by decide, rfl⟩
  obtain ⟨given, goes, -⟩ := engine_runs_table made {}
  have answered := goes.mpr (.inl (by decide)) _ .start [some "python", none, some "python", some "cobol"]
  refine ⟨made, ?_⟩
  rw [answered]
  simp only [List.map_cons, List.map_nil, given]
  decide +kernel

/-- Without a rule of its own an engine answers with built-in rules, and reports what they find. -/
theorem no_rules_given :
    Registry.ofRules [] = .ok (.indexed []) ∧ (Registry.indexed []).rulesUnder {} none = [] ∧
      Catalog.openaiApiKey ∈ ((start (.indexed []) {}).rulesFor none).1 ∧
      ∃ found e', (start (.indexed []) {}).analyze bareKey "a" none = .ok (found, e') ∧
        ∃ f ∈ found, f.rule = "openai_api_key" := by
  have replaced : start (.indexed []) {} = start .builtIn {} := rfl
  refine ⟨rfl, Registry.rulesUnder_nil {} none, ?_, ?_⟩
  · rw [Left.start.rulesFor_fst]
    exact Registry.mem_rulesUnder_own (s := {}) Catalog.openaiApiKey_mem (by decide) rfl
  · obtain ⟨found, answered⟩ := analysis_builtIn_isOk {} bareKey "a" none
    obtain ⟨e', analyzed⟩ := ((kept_start .builtIn {}).analyze_eq_ok_iff bareKey "a" none found).mpr answered
    obtain ⟨f, mem, tells⟩ := tellsKey_of_analysis (s := {}) rfl (by decide +kernel) answered
      (n := 0) (by decide) holdsKey_bareKey
    exact ⟨found, e', by rw [replaced, analyzed], f, mem, tells.rule⟩

end Engine

end CodeHygiene
