import CodeHygiene.Report.Listing

/-!
A report for the terminal: findings grouped by severity, from the worst down, then the violations of
the repository, then the verdict. A report without anything to tell is one line.
-/

namespace CodeHygiene.Report

def nothingToDisplay : String := "[Slop Detection: No issues detected]"

/-- Findings by severity, from the worst down, without those severities that have none. -/
def bySeverity (findings : List Finding) : List (Severity × List Finding) :=
  (Severity.all.map fun s => (s, withSeverity findings s)).filter fun group => !group.2.isEmpty

/-- How many findings there are of each severity. -/
def headline (findings : List Finding) : String :=
  "=== Slop Detection: " ++ ", ".intercalate ((bySeverity findings).map fun (s, group) =>
    Decimal.natText group.length ++ " " ++ s.text) ++ " ==="

/-- A finding on two lines, and on a third what it quotes. -/
def displayItem (f : Finding) : List String :=
  [f.location ++ " " ++ f.rule ++ " (" ++ f.certainty.text ++ ")", "  " ++ f.description]
    ++ if f.excerpt = "" then [] else ["  > " ++ f.excerpt]

def displayGroup (group : Severity × List Finding) : List String :=
  ("=== " ++ group.1.badge ++ " ===") :: group.2.flatMap displayItem ++ [""]

def displayFindings (findings : List Finding) : List String :=
  if findings.isEmpty then []
  else headline findings :: "" :: (bySeverity findings).flatMap displayGroup

def displayViolations (violations : List Violation) : List String :=
  if violations.isEmpty then []
  else "=== Repository ===" :: violations.map violationText ++ [""]

def displayVerdict (r : Report) : String :=
  "Verdict: " ++ r.verdict.text ++ " | " ++ Decimal.intText r.filesAnalyzed ++ "/"
    ++ Decimal.intText r.filesRequested ++ " files in " ++ Decimal.fixedText r.time.toFloat 0 ++ "ms"

def display (r : Report) : String :=
  if r.findings.isEmpty && r.violations.isEmpty then nothingToDisplay
  else "\n".intercalate
    (displayFindings r.findings ++ displayViolations r.violations ++ [displayVerdict r])

end CodeHygiene.Report
