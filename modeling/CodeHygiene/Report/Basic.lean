import CodeHygiene.Finding
import CodeHygiene.Tally

/-!
The report of a scan: what was found, what a repository violates, how many files were looked at, and
what all that amounts to. The summary counts every finding once by severity, once by certainty and
once by remediation, and names the rules that report most.
-/

namespace CodeHygiene

structure Report where
  findings : List Finding := []
  violations : List Violation := []
  filesRequested : Int := 0
  filesAnalyzed : Int := 0
  /-- Files of languages that were not asked for. -/
  filesFiltered : Int := 0
  /-- In milliseconds. -/
  time : Quantity := .real 0.0

namespace Report

def hasFindings (r : Report) : Bool := !r.findings.isEmpty

/-- The severities of all that is reported. -/
def severities (r : Report) : List Severity :=
  r.findings.map (·.severity) ++ r.violations.map (·.severity)

def hasCritical (r : Report) : Bool := r.severities.contains .critical

def verdict (r : Report) : Verdict := Verdict.ofSeverities r.severities

def withCertainty (findings : List Finding) (c : Certainty) : List Finding :=
  findings.filter (·.certainty = c)

def withSeverity (findings : List Finding) (s : Severity) : List Finding :=
  findings.filter (·.severity = s)

/-- Findings by certainty, from the most certain down. -/
def byCertainty (r : Report) : List (Certainty × List Finding) :=
  Certainty.all.map fun c => (c, withCertainty r.findings c)

def countAutomatic (findings : List Finding) : Nat := findings.countP Finding.isAutomatic

/-- At most this many rules are named in a summary. -/
def topLimit : Nat := 5

/-- The rules that report most, each with its count; of one count, in the order in which they first
report. -/
def topRules (r : Report) : List (String × Nat) :=
  ((tally (r.findings.map (·.rule))).mergeSort fun a b => b.2 ≤ a.2).take topLimit

def summary (r : Report) : Json :=
  .obj [("total", .nat r.findings.length),
    ("by_severity", .obj (Severity.all.map fun s =>
      (s.text, .nat (withSeverity r.findings s).length))),
    ("by_certainty", .obj (Certainty.all.map fun c =>
      (c.text, .nat (withCertainty r.findings c).length))),
    ("by_remediation", .obj ((tally (r.findings.map (·.remediation.text))).map fun (m, n) =>
      (m, .nat n))),
    ("auto_fixable", .nat (countAutomatic r.findings)),
    ("top_rules", .arr (r.topRules.map fun (rule, n) =>
      .obj [("rule", .str rule), ("count", .nat n)]))]

def toJson (r : Report) : Json :=
  .obj [("findings", .arr (r.findings.map Finding.toJson)),
    ("violations", .arr (r.violations.map Violation.toJson)),
    ("verdict", .str r.verdict.text),
    ("files_requested", .whole r.filesRequested),
    ("files_analyzed", .whole r.filesAnalyzed),
    ("files_filtered", .whole r.filesFiltered),
    ("execution_time_ms", Json.ofQuantity r.time),
    ("summary", r.summary),
    ("has_critical", .bool r.hasCritical)]

end Report

end CodeHygiene
