import CodeHygiene.Proofs.Catalog
import CodeHygiene.Proofs.Lookup
import CodeHygiene.Proofs.Scan

/-!
A rule finds what it finds, whichever rules report beside it.

Proved:
(1) Every finding has the name of the rule it comes from (`exists_findingAt`, `rule_of_mem_ofAnalyzer`), and
    this name leads back to the rule (`find?_indexed`).
(2) What part of the rules finds is part of what all of them find: the findings of these rules, in their
    order (`ofPatterns_filter`, `ofAnalyzers_filter`).
(3) So the findings of one rule for every language are what it finds with its pattern, whatever the other rules find
    (`filter_analysis`).
(4) So the analysis of a text with rules disabled, with severities named or in a quick scan finds what it
    would find without any of this, less the findings that the restriction does not keep
    (`restriction_is_filter`).
-/

namespace CodeHygiene

/-- What keeps rules from reporting: their names, their severities, and a quick scan. -/
structure Restriction where
  disabled : List String := []
  severities : Option (List Severity) := none
  thoroughness : Settings.Thoroughness := .normal

namespace Settings

/-- Another restriction; all else stays. -/
def under (s : Settings) (x : Restriction) : Settings :=
  { s with disabledRules := x.disabled, severities := x.severities, thoroughness := x.thoroughness }

end Settings

namespace Restriction

/-- Whether a finding stays: its rule is not disabled and has a severity that is asked for, and in a quick
scan it has a pattern. -/
def keeps (x : Restriction) (registry : Registry) (f : Finding) : Bool :=
  !x.disabled.contains f.rule &&
  x.severities.all (fun severities => (registry.find? f.rule).any (severities.contains ·.severity)) &&
  (x.thoroughness ≠ .quick || (registry.find? f.rule).any (·.pattern?.isSome))

end Restriction

/-! ## Findings lead back to their rules -/

theorem Rule.pattern?_isSome (rule : Rule) : rule.pattern?.isSome = !rule.analyzer?.isSome := by
  rw [pattern?, analyzer?]
  cases rule.check <;> rfl

namespace Scan

variable {rule : Rule} {src : Source} {f : Finding}

/-- Wherever a rule looks with its pattern, it makes its findings in one way. -/
theorem exists_findingAt {r : Regex} (mem : f ∈ ofPattern rule r src) :
    ∃ line column excerpt details, f = { findingAt rule src line column excerpt with details } := by
  rw [ofPattern] at mem
  split at mem
  next =>
    obtain ⟨h, -, rfl⟩ := List.mem_map.mp mem
    exact ⟨_, _, _, _, rfl⟩
  next =>
    obtain ⟨numbered, -, hit⟩ := List.mem_filterMap.mp mem
    obtain ⟨h, -, rfl⟩ := Option.map_eq_some_iff.mp hit
    exact ⟨_, _, _, _, rfl⟩
  next =>
    obtain ⟨run, -, rfl⟩ := List.mem_map.mp mem
    exact ⟨_, _, _, _, rfl⟩

theorem rule_of_mem_ofPattern {r : Regex} (mem : f ∈ ofPattern rule r src) : f.rule = rule.name := by
  obtain ⟨line, column, excerpt, details, rfl⟩ := exists_findingAt mem
  rfl

theorem ofAnalyzer_eq_ok_iff {s : Settings} {a : Analyzer} {tag : String} {found : List Finding} :
    ofAnalyzer s rule a src tag = .ok found ↔ ∃ vs, violationsIn s rule src.content tag a = .ok vs ∧
      found = vs.map fun v =>
        violationFinding rule a v src.path ((src.line? (v.line.getD 1).toNat).getD v.value.toList) := by
  rw [ofAnalyzer, bind_eq_ok_iff]
  simp only [pure_eq_ok_iff]

theorem rule_of_mem_ofAnalyzer {s : Settings} {a : Analyzer} {tag : String} {found : List Finding}
    (run : ofAnalyzer s rule a src tag = .ok found) (mem : f ∈ found) : f.rule = rule.name := by
  obtain ⟨vs, -, rfl⟩ := ofAnalyzer_eq_ok_iff.mp run
  obtain ⟨v, -, rfl⟩ := List.mem_map.mp mem
  rfl

end Scan

namespace Registry

variable {rules : List Rule}

theorem find?_indexed (distinct : (rules.map Rule.name).Nodup) {rule : Rule} (mem : rule ∈ rules) :
    (indexed rules).find? rule.name = some rule := by
  cases found : (indexed rules).find? rule.name with
  | none =>
    have missing := List.find?_eq_none.mp found rule mem
    simp at missing
  | some rule' =>
    have named : rule'.name = rule.name := by simpa using List.find?_some found
    have inside : rule' ∈ rules := List.mem_of_find?_eq_some found
    rw [List.inj_on_of_nodup_map distinct inside mem named]

end Registry

/-! ## Part of the rules -/

namespace Scan

variable {rules : List Rule} {src : Source} {p : Rule → Bool} {q : Finding → Bool}

theorem filter_of_rule {found : List Finding} {rule : Rule} (own : ∀ f ∈ found, f.rule = rule.name)
    (agree : ∀ f : Finding, f.rule = rule.name → q f = p rule) :
    found.filter q = if p rule then found else [] := by
  by_cases reporting : p rule = true
  · rw [if_pos reporting]
    refine List.filter_eq_self.mpr fun f mem => ?_
    rw [agree f (own f mem), reporting]
  · rw [if_neg reporting]
    refine List.filter_eq_nil_iff.mpr fun f mem => ?_
    rw [agree f (own f mem)]
    exact reporting

/-- Where a finding is kept exactly when its rule is. -/
theorem ofPatterns_filter
    (agree : ∀ rule ∈ rules, rule.pattern?.isSome → ∀ f : Finding, f.rule = rule.name → q f = p rule) :
    ofPatterns (rules.filter p) src = (ofPatterns rules src).filter q := by
  induction rules with
  | nil => rfl
  | cons rule rest ih =>
    obtain ⟨here, others⟩ := List.forall_mem_cons.mp agree
    have first : (ofPatterns [rule] src).filter q = if p rule then ofPatterns [rule] src else [] := by
      cases own : rule.pattern? with
      | none => simp [ofPatterns, own]
      | some r =>
        have alone : ofPatterns [rule] src = ofPattern rule r src := by simp [ofPatterns, own]
        rw [alone]
        exact filter_of_rule (fun f => rule_of_mem_ofPattern) (here (by rw [own]; rfl))
    have split : ∀ rest, ofPatterns (rule :: rest) src = ofPatterns [rule] src ++ ofPatterns rest src := by
      intro rest
      simp [ofPatterns]
    rw [split rest, List.filter_append, first, ← ih others]
    by_cases reporting : p rule = true
    · rw [List.filter_cons_of_pos reporting, split, if_pos reporting]
    · rw [List.filter_cons_of_neg reporting, if_neg reporting, List.nil_append]

theorem ofAnalyzers_cons_eq_ok {s : Settings} {tag : String} {rule : Rule} {rest : List Rule} {found : List Finding} :
    ofAnalyzers s src tag (rule :: rest) = .ok found ↔ ∃ here more,
      (∀ a, rule.analyzer? = some a → ofAnalyzer s rule a src tag = .ok here) ∧
      (rule.analyzer? = none → here = []) ∧
      ofAnalyzers s src tag rest = .ok more ∧ found = here ++ more := by
  rw [ofAnalyzers]
  cases rule.analyzer? with
  | none =>
    simp only [bind_eq_ok_iff, pure_eq_ok_iff, exists_and_left, exists_eq_left, reduceCtorEq, false_implies,
      implies_true, true_implies, true_and]
  | some a =>
    simp only [bind_eq_ok_iff, pure_eq_ok_iff, exists_and_left, Option.some.injEq, forall_eq', reduceCtorEq,
      false_implies, true_and]

theorem ofAnalyzers_filter {s : Settings} {tag : String}
    (agree : ∀ rule ∈ rules, rule.analyzer?.isSome → ∀ f : Finding, f.rule = rule.name → q f = p rule)
    {found : List Finding} (run : ofAnalyzers s src tag rules = .ok found) :
    ofAnalyzers s src tag (rules.filter p) = .ok (found.filter q) := by
  induction rules generalizing found with
  | nil =>
    cases run
    rfl
  | cons rule rest ih =>
    obtain ⟨here, others⟩ := List.forall_mem_cons.mp agree
    obtain ⟨first, more, own, absent, later, rfl⟩ := ofAnalyzers_cons_eq_ok.mp run
    have kept : first.filter q = if p rule then first else [] := by
      cases which : rule.analyzer? with
      | none => simp [absent which]
      | some a => exact filter_of_rule (fun f => rule_of_mem_ofAnalyzer (own a which)) (here (by rw [which]; rfl))
    rw [List.filter_append, kept]
    by_cases reporting : p rule = true
    · rw [List.filter_cons_of_pos reporting, if_pos reporting]
      exact ofAnalyzers_cons_eq_ok.mpr ⟨first, _, own, absent, ih others later, rfl⟩
    · rw [List.filter_cons_of_neg reporting, if_neg reporting]
      exact ih others later

end Scan

namespace Engine

variable {s : Settings} {rules : List Rule} {registry : Registry}

/-! ## The rules under a restriction -/

theorem tableOf_of_ne_nil (nonempty : rules ≠ []) : tableOf rules = rules := by
  have some : ¬rules.isEmpty = true := by simpa using nonempty
  rw [tableOf, if_neg some]

/-- Where no name and no severity is given, every rule may report. -/
theorem selects_under (s : Settings) {x : Restriction} (names : x.disabled = []) (severities : x.severities = none)
    (rule : Rule) : (s.under x).selects rule = true := by
  simp [Settings.selects, Settings.isEnabled, Settings.under, names, severities]

theorem keeps_of_rule (distinct : (rules.map Rule.name).Nodup) (s : Settings) (x : Restriction) {rule : Rule}
    (mem : rule ∈ rules) {f : Finding} (own : f.rule = rule.name) :
    x.keeps (.indexed rules) f =
      ((s.under x).selects rule && (x.thoroughness ≠ .quick || rule.pattern?.isSome)) := by
  simp only [Restriction.keeps, own, Registry.find?_indexed distinct mem, Option.any_some]
  rfl

/-- What the rules with an analyzer add under a restriction; in a quick scan, no finding of theirs is kept. -/
theorem added_under (distinct : (rules.map Rule.name).Nodup) (s : Settings) (x : Restriction) {chosen : List Rule}
    (known : ∀ rule ∈ chosen, rule ∈ rules) {src : Scan.Source} {language : Option String} {more : List Finding}
    (run : added (s.under {}) chosen src language = .ok more) :
    added (s.under x) (chosen.filter (s.under x).selects) src language =
      .ok (more.filter (x.keeps (.indexed rules))) := by
  cases language with
  | none =>
    cases run
    rfl
  | some tag =>
    have whole : Scan.ofAnalyzers (s.under {}) src tag chosen = .ok more := run
    have keeps : ∀ rule ∈ chosen, rule.analyzer?.isSome → ∀ f : Finding, f.rule = rule.name →
        x.keeps (.indexed rules) f = ((s.under x).selects rule && x.thoroughness ≠ .quick) := by
      intro rule mem own f named
      rw [keeps_of_rule distinct s x (known rule mem) named, Rule.pattern?_isSome, own, Bool.not_true, Bool.or_false]
    have part := Scan.ofAnalyzers_filter keeps whole
    by_cases quick : x.thoroughness = .quick
    · have without : (s.under x).isQuick = true := decide_eq_true quick
      simp only [quick, ne_eq, not_true_eq_false, decide_false, Bool.and_false, List.filter_false] at part
      rw [added, if_pos without]
      exact part
    · have thorough : ¬(s.under x).isQuick = true := by
        rw [Settings.isQuick, decide_eq_true_iff]
        exact quick
      simp only [ne_eq, quick, not_false_eq_true, decide_true, Bool.and_true] at part
      rw [added, if_neg thorough, ← part]
      refine ofAnalyzers_congr (fun rule content tag a => ?_) src tag _
      rfl

theorem judge_under (distinct : (rules.map Rule.name).Nodup) (s : Settings) (x : Restriction) {chosen : List Rule}
    (known : ∀ rule ∈ chosen, rule ∈ rules) {src : Scan.Source} {language : Option String} {found : List Finding}
    (judged : judge (s.under {}) chosen src language = .ok found) :
    judge (s.under x) (chosen.filter (s.under x).selects) src language =
      .ok (found.filter (x.keeps (.indexed rules))) := by
  obtain ⟨more, run, rfl⟩ := judge_eq_ok_iff.mp judged
  have patterned : Scan.ofPatterns (chosen.filter (s.under x).selects) src =
      (Scan.ofPatterns chosen src).filter (x.keeps (.indexed rules)) := by
    refine Scan.ofPatterns_filter fun rule mem own f named => ?_
    rw [keeps_of_rule distinct s x (known rule mem) named, own, Bool.or_true, Bool.and_true]
  refine judge_eq_ok_iff.mpr ⟨_, added_under distinct s x known run, ?_⟩
  rw [List.filter_append, patterned]

/-- A quick scan only leaves out the end. -/
theorem prefix_of_judge (distinct : (rules.map Rule.name).Nodup) {chosen : List Rule}
    (known : ∀ rule ∈ chosen, rule ∈ rules) {src : Scan.Source} {language : Option String} {found : List Finding}
    (judged : judge (s.under {}) chosen src language = .ok found) :
    found.filter (Restriction.keeps { thoroughness := .quick } (.indexed rules)) <+: found := by
  have quick := judge_under distinct s { thoroughness := .quick } known judged
  obtain ⟨rest, run, eq⟩ := judge_eq_ok_iff.mp quick
  have nothing : rest = [] := by
    cases language with
    | none => cases run; rfl
    | some tag => cases run; rfl
  have all : chosen.filter (s.under { thoroughness := .quick }).selects = chosen :=
    List.filter_eq_self.mpr fun rule _ => selects_under s rfl rfl rule
  obtain ⟨more, -, whole⟩ := judge_eq_ok_iff.mp judged
  rw [eq, nothing, all, List.append_nil, whole]
  exact List.prefix_append _ more

/-! ## One rule -/

/-- Of rules with distinct names, one name picks one. -/
theorem filter_name {chosen : List Rule} (distinct : (chosen.map Rule.name).Nodup) {rule : Rule} (mem : rule ∈ chosen) :
    chosen.filter (fun other => other.name = rule.name) = [rule] := by
  have same : (chosen.filter fun other => other.name = rule.name).Perm [rule] := by
    refine (List.perm_ext_iff_of_nodup (distinct.of_map.filter _) (List.nodup_singleton rule)).mpr fun other => ?_
    rw [List.mem_filter, List.mem_singleton, decide_eq_true_iff]
    constructor
    · rintro ⟨inside, named⟩
      exact List.inj_on_of_nodup_map distinct inside mem named
    · rintro rfl
      exact ⟨mem, rfl⟩
  exact List.perm_singleton.mp same

/-- A rule without an analyzer has no part in what the analyzers add. -/
theorem filter_added {chosen : List Rule} (distinct : (chosen.map Rule.name).Nodup) {rule : Rule} (mem : rule ∈ chosen)
    (unmeasured : rule.analyzer? = none) {src : Scan.Source} {language : Option String} {more : List Finding}
    (run : added s chosen src language = .ok more) : more.filter (fun f => f.rule = rule.name) = [] := by
  cases language with
  | none =>
    cases run
    rfl
  | some tag =>
    rw [added] at run
    split at run
    next =>
      cases run
      rfl
    next =>
      have part := Scan.ofAnalyzers_filter (p := fun other => other.name = rule.name) (q := fun f => f.rule = rule.name)
        (fun other _ _ f named => by rw [named]) run
      rw [filter_name distinct mem] at part
      obtain ⟨here, rest, -, absent, later, eq⟩ := Scan.ofAnalyzers_cons_eq_ok.mp part
      cases later
      rw [eq, absent unmeasured]
      rfl

theorem filter_judge {chosen : List Rule} (distinct : (chosen.map Rule.name).Nodup) {rule : Rule} (mem : rule ∈ chosen)
    {r : Regex} (own : rule.pattern? = some r) {src : Scan.Source} {language : Option String} {found : List Finding}
    (judged : judge s chosen src language = .ok found) :
    found.filter (fun f => f.rule = rule.name) = Scan.ofPattern rule r src := by
  obtain ⟨more, run, rfl⟩ := judge_eq_ok_iff.mp judged
  have unmeasured : rule.analyzer? = none := by
    have which := Rule.pattern?_isSome rule
    rw [own] at which
    simpa using which
  have one : Scan.ofPatterns [rule] src = Scan.ofPattern rule r src := by simp [Scan.ofPatterns, own]
  rw [List.filter_append, filter_added distinct mem unmeasured run, List.append_nil, ← one, ← filter_name distinct mem]
  exact (Scan.ofPatterns_filter fun other _ _ f named => by rw [named]).symm

/-- With a table of distinct names, the findings of a rule for every language are what it finds with its pattern. -/
theorem filter_analysis (made : Registry.ofRules rules = .ok registry) {rule : Rule} (listed : rule ∈ rules)
    (universal : rule.isUniversal = true) {r : Regex} (own : rule.pattern? = some r) (selected : s.selects rule = true)
    {path : String} (kept : Exclusion.excludes path rule.excludes = false) {content : List Char} {language : Option String}
    {found : List Finding} (analyzed : analysis registry s content path language = .ok found) :
    found.filter (fun f => f.rule = rule.name) = Scan.ofPattern rule r { path, content } := by
  obtain ⟨distinct, rfl⟩ := Registry.ofRules_eq_ok_iff.mp made
  have whole : tableOf rules = rules := tableOf_of_ne_nil (List.ne_nil_of_mem listed)
  refine filter_judge ?_ ?_ own analyzed
  · refine distinct.sublist (List.Sublist.map Rule.name (List.filter_sublist.trans ?_))
    rw [select, registry_start, Registry.lookup_language, whole]
    exact List.filter_sublist.trans List.filter_sublist
  · exact List.mem_filter.mpr ⟨mem_select (by rwa [whole]) universal selected _, by rw [kept]; rfl⟩

/-! ## Texts under a restriction -/

/-- The rules that may look at a text where nothing keeps rules from reporting. -/
def unrestricted (rules : List Rule) (path : String) (language : Option String) : List Rule :=
  ((Registry.indexed rules).lookup { language := some (lookupTag (Language.tagFor language (some path))) }).filter
    fun rule => !Exclusion.excludes path rule.excludes

theorem mem_of_mem_unrestricted {path : String} {language : Option String} {rule : Rule}
    (mem : rule ∈ unrestricted rules path language) : rule ∈ rules :=
  Registry.mem_of_mem_lookup (List.mem_filter.mp mem).1

theorem analysis_under (nonempty : rules ≠ []) (s : Settings) (x : Restriction) (content : List Char) (path : String)
    (language : Option String) :
    analysis (.indexed rules) (s.under x) content path language =
      judge (s.under x) ((unrestricted rules path language).filter (s.under x).selects) { path, content }
        (Language.tagFor language (some path)) := by
  rw [analysis, select, registry_start, tableOf_of_ne_nil nonempty, unrestricted, List.filter_comm]
  rfl

/-- A table with a rule or more, and an analysis that has an answer where nothing keeps rules from reporting,
by an engine that was asked anything before:
- under any restriction, an engine that was asked anything before finds the findings that the restriction
  keeps, in the order they have without it;
- those that a quick scan keeps come first. -/
theorem restriction_is_filter (nonempty : rules ≠ []) (made : Registry.ofRules rules = .ok registry) {e e' : Engine}
    (left : Left registry (s.under {}) e) {content : List Char} {path : String} {language : Option String}
    {found : List Finding} (analyzed : e.analyze content path language = .ok (found, e')) :
    (∀ x e₁, Left registry (s.under x) e₁ →
      ∃ e₂, e₁.analyze content path language = .ok (found.filter (x.keeps registry), e₂)) ∧
    found.filter (Restriction.keeps { thoroughness := .quick } registry) <+: found := by
  obtain ⟨distinct, rfl⟩ := Registry.ofRules_eq_ok_iff.mp made
  have all : (unrestricted rules path language).filter (s.under {}).selects = unrestricted rules path language :=
    List.filter_eq_self.mpr fun rule _ => selects_under s rfl rfl rule
  have judged : judge (s.under {}) (unrestricted rules path language) { path, content }
      (Language.tagFor language (some path)) = .ok found := by
    have whole := (left.kept.analyze_eq_ok_iff content path language found).mp ⟨e', analyzed⟩
    rwa [analysis_under nonempty, all] at whole
  have known : ∀ rule ∈ unrestricted rules path language, rule ∈ rules := fun rule => mem_of_mem_unrestricted
  refine ⟨fun x e₁ left₁ => ?_, prefix_of_judge distinct known judged⟩
  refine (left₁.kept.analyze_eq_ok_iff content path language _).mpr ?_
  rw [analysis_under nonempty]
  exact judge_under distinct s x known judged

/-- A rule with a pattern and one with an analyzer. -/
def unfinishedRules : List Rule := [Catalog.placeholderNotImplementedPy, Catalog.placeholderStubFunctions]

def unfinished : List Char := "def f():\n    raise NotImplementedError\n".toList

/-- Both rules have a finding; a quick scan keeps the first, and so does a scan with the other rule disabled. -/
theorem restriction_is_filter_unfinished :
    ∃ found e', (start (.indexed unfinishedRules) {}).analyze unfinished "a.py" none = .ok (found, e') ∧
      found.map (·.rule) = ["placeholder_not_implemented_py", "placeholder_stub_functions"] ∧
      (∀ x, ∃ e₂, (start (.indexed unfinishedRules) (({} : Settings).under x)).analyze unfinished "a.py" none =
        .ok (found.filter (x.keeps (.indexed unfinishedRules)), e₂)) ∧
      found.filter (Restriction.keeps { thoroughness := .quick } (.indexed unfinishedRules)) <+: found := by
  have ran : (((start (.indexed unfinishedRules) {}).analyze unfinished "a.py" none).toOption.map fun out =>
      out.1.map (·.rule)) = some ["placeholder_not_implemented_py", "placeholder_stub_functions"] := by decide +kernel
  have made : Registry.ofRules unfinishedRules = .ok (.indexed unfinishedRules) :=
    Registry.ofRules_eq_ok_iff.mpr ⟨by decide, rfl⟩
  cases analyzed : (start (.indexed unfinishedRules) {}).analyze unfinished "a.py" none with
  | error f => rw [analyzed] at ran; cases ran
  | ok out =>
    obtain ⟨found, e'⟩ := out
    rw [analyzed] at ran
    have names := Option.some.inj ran
    obtain ⟨restricted, first⟩ := restriction_is_filter (s := {}) (by decide) made .start analyzed
    exact ⟨found, e', rfl, names, fun x => restricted x _ .start, first⟩

end Engine

end CodeHygiene
