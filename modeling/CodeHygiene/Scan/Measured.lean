import CodeHygiene.Claim.Evidence
import CodeHygiene.Measure.Commentary
import CodeHygiene.Measure.Literal
import CodeHygiene.Measure.Stub
import CodeHygiene.Repository.Proportions
import CodeHygiene.Scan.Match
import CodeHygiene.Settings.Basic

/-!
What the rules with an analyzer find: violations, each told as a finding of the rule. The thresholds
are those of the rule, with those of the settings in their place; a threshold that the rule does not
name is never looked up in the settings, and one that is needed and not named is a fault.
-/

namespace CodeHygiene.Scan

open Settings (Thresholds overridden)

/-- A threshold that a rule names. -/
def threshold (t : Thresholds) (key : String) : Except Measure.Fault Quantity :=
  match t.lookup key with
  | some q => .ok q
  | none => .error (.noThreshold key)

/-! ## Violations as findings -/

/-- Whether a violation says that work is left. -/
def saysWorkIsLeft (v : Violation) : Bool :=
  match v.details.get? "has_todo" with
  | some (.bool b) => b
  | _ => false

/-- Heuristics are trusted less, unless the author says that work is left. -/
def certaintyOf (a : Analyzer) (v : Violation) : Certainty :=
  match a with
  | .stubFunctions => if saysWorkIsLeft v then .medium else .low
  | .duplicateStrings => .low
  | _ => .medium

/-- A violation as a finding of a rule; one without a line stands in the first. -/
def violationFinding (rule : Rule) (a : Analyzer) (v : Violation) (file : String) (line : Line) :
    Finding :=
  { file := v.file.getD file
    line := v.line.getD 1
    rule := rule.name
    severity := v.severity
    certainty := certaintyOf a v
    excerpt := quoted line
    remediation := rule.remediation
    description := rule.description ++ ": " ++ v.value
    details := v.details.update [("value", .str v.value), ("threshold", .str v.threshold)] }

/-! ## One file -/

/-- The violations that an analyzer sees in one file. -/
def violationsIn (s : Settings) (rule : Rule) (content : List Char) (tag : String) :
    Analyzer → Except Measure.Fault (List Violation)
  | .docRatio => do
    let t := overridden rule.thresholds s.documentation.thresholds
    let least ← threshold t "min_function_lines"
    let limit ← threshold t "max_ratio"
    Measure.Documentation.violations content least.toInt (.real limit.toFloat) tag
  | .verbosityRatio => do
    let t := overridden rule.thresholds s.commentary.thresholds
    let least ← threshold t "min_code_lines"
    let limit ← threshold t "max_comment_ratio"
    Measure.Commentary.violations content least.toInt (.real limit.toFloat) tag
  | .stubFunctions => .ok (Measure.Stub.violations content tag)
  | .duplicateStrings => do
    let t := overridden rule.thresholds s.literals.thresholds
    let most ← threshold t "max_occurrences"
    let minLength ← threshold t "min_length"
    return Measure.Literal.violations content (.whole most.toInt) minLength.toInt
  | .overEngineering | .claimEvidence => .ok []

/-- The findings of one rule with an analyzer. -/
def ofAnalyzer (s : Settings) (rule : Rule) (a : Analyzer) (src : Source) (tag : String) :
    Except Measure.Fault (List Finding) := do
  let vs ← violationsIn s rule src.content tag a
  return vs.map fun v =>
    violationFinding rule a v src.path ((src.line? (v.line.getD 1).toNat).getD v.value.toList)

/-- What the rules with an analyzer find in one file, rule by rule, up to the first fault. -/
def ofAnalyzers (s : Settings) (src : Source) (tag : String) :
    List Rule → Except Measure.Fault (List Finding)
  | [] => .ok []
  | rule :: rest => do
    let here ← match rule.analyzer? with
      | some a => ofAnalyzer s rule a src tag
      | none => pure []
    return here ++ (← ofAnalyzers s src tag rest)

/-! ## A repository -/

open Repository (Tree Path)

/-- Why a scan has no answer. -/
inductive Fault where
  | measure (f : Measure.Fault)
  | repository (f : Repository.Fault)

def Fault.message : Fault → String
  | .measure f => f.message
  | .repository f => f.message

/-- The largest proportions that a rule allows. -/
def limitsOf (s : Settings) (rule : Rule) : Except Measure.Fault Repository.Limits := do
  let limits := overridden rule.thresholds s.proportions.thresholds
  let files ← threshold limits "file_ratio_threshold"
  let lines ← threshold limits "lines_per_export_threshold"
  let depth ← threshold limits "depth_threshold"
  return ⟨files, lines, .whole depth.toInt⟩

/-- The proportions of a repository against the thresholds of a rule. -/
def proportionsOf (s : Settings) (rule : Rule) (t : Tree) (root : Path) :
    Except Fault (List Violation) := do
  let limits ← (limitsOf s rule).mapError .measure
  let p ← (Repository.Proportions.measure t root).mapError .repository
  return p.violations limits

/-- How many pieces of evidence a rule asks for. -/
def requiredBy (s : Settings) (rule : Rule) : Except Measure.Fault Quantity := do
  let least ← threshold (overridden rule.thresholds s.claims.thresholds) "min_evidence_matches"
  return .whole least.toInt

/-- The claims of a repository that lack evidence. -/
def gapsOf (s : Settings) (rule : Rule) (t : Tree) (root : Path) : Except Fault (List Claim.Gap) := do
  let required ← (requiredBy s rule).mapError .measure
  let a ← (Claim.audit t root (s.claims.categories.getD []) [] required).mapError .repository
  return a.gaps

/-- A gap as a finding: it quotes the claim. -/
def gapFinding (rule : Rule) (g : Claim.Gap) : Finding :=
  violationFinding rule .claimEvidence g.toViolation "." g.claim.text.toList

/-- What one rule says about a repository. Gaps are told both as findings and as violations. -/
def ofRepository (s : Settings) (rule : Rule) (t : Tree) (root : Path) :
    Except Fault (List Finding × List Violation) :=
  match rule.analyzer? with
  | some .overEngineering => do return ([], ← proportionsOf s rule t root)
  | some .claimEvidence => do
    let gaps ← gapsOf s rule t root
    return (gaps.map (gapFinding rule), gaps.map Claim.Gap.toViolation)
  | _ => .ok ([], [])

end CodeHygiene.Scan
