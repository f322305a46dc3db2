import CodeHygiene.Report.Compact

/-!
Findings handed on to an agent that reviews or applies fixes: grouped by certainty, each group with
what to make of it and listed file by file, or else as a compact table. What is known about the
repository follows, if it was scanned.
-/

namespace CodeHygiene.Report

/-- What the agent is asked to do. -/
inductive Mode where
  | report
  | apply
  deriving DecidableEq, Repr

/-- A mode that is none. -/
structure UnknownMode where
  name : String
  deriving DecidableEq, Repr

def UnknownMode.message (u : UnknownMode) : String := "Unknown mode: " ++ u.name

namespace Mode

def text : Mode → String
  | report => "report"
  | apply => "apply"

def read (s : String) : Except UnknownMode Mode :=
  match [report, apply].find? (·.text = s) with
  | some m => .ok m
  | none => .error ⟨s⟩

theorem read_text (m : Mode) : read m.text = .ok m := by cases m <;> rfl

end Mode

/-- What is handed on: findings, and what a scan knows about the repository. -/
structure Handoff where
  findings : List Finding
  violations : List Violation := []
  /-- Only a report has one. -/
  verdict : Option Verdict := none

def toHandoff (r : Report) : Handoff := ⟨r.findings, r.violations, some r.verdict⟩

namespace Handoff

def nothingFound : String := "## Slop Detection Results\n\nNo issues detected."

/-! ## The repository -/

def violationItem (v : Violation) : String := "- " ++ violationText v ++ "\n"

def violationRow (v : Violation) : String :=
  "|" ++ v.type ++ "|" ++ v.value ++ "|" ++ v.threshold ++ "|" ++ v.severity.initial ++ "|\n"

def violationsText (compact : Bool) (violations : List Violation) : String :=
  if violations.isEmpty then ""
  else if compact then
    "|Violation|Value|Threshold|Sev|\n|---|---|---|---|\n" ++ String.join (violations.map violationRow)
      ++ "\n"
  else "### Repository Violations\n\n" ++ String.join (violations.map violationItem) ++ "\n"

def repositoryText (compact : Bool) (violations : List Violation) (verdict : Verdict) : String :=
  violationsText compact violations ++ "**Verdict: " ++ verdict.text ++ "**"

/-! ## Findings by certainty -/

def heading : Certainty → String
  | .high => "### HIGH Certainty (Definitive - trust these)"
  | .medium => "### MEDIUM Certainty (Verify context)"
  | .low => "### LOW Certainty (Use judgment)"

/-- What to make of findings of a certainty. -/
def guidance? : Mode → Certainty → Option String
  | .report, .high => none
  | .apply, .high => some "_Action: Apply fixes directly for autoFix patterns._"
  | _, .medium => some "_Action: Review surrounding code before applying._"
  | _, .low => some "_Action: May be false positives. Investigate before acting._"

/-- The groups that have findings, from the most certain down. -/
def groups (findings : List Finding) : List (Certainty × List Finding) :=
  (Certainty.all.map fun c => (c, withCertainty findings c)).filter fun group => !group.2.isEmpty

def groupSection (mode : Mode) (group : Certainty × List Finding) : String :=
  heading group.1 ++ "\n\n" ++ ((guidance? mode group.1).map (· ++ "\n\n")).getD ""
    ++ listing group.2 ++ "\n"

def actions (findings : List Finding) : String :=
  "### Action Summary\n\n- Auto-fixable: " ++ Decimal.natText (countAutomatic findings)
    ++ "\n- Needs manual review: " ++ Decimal.natText (countManual findings) ++ "\n"

/-! ## The whole -/

def isEmpty (h : Handoff) : Bool := h.findings.isEmpty && h.violations.isEmpty

def compactText (h : Handoff) (mode : Mode) (limit : Int) : String :=
  table mode.text h.findings limit
    ++ (h.verdict.map fun v => "\n\n" ++ repositoryText true h.violations v).getD ""

def fullText (h : Handoff) (mode : Mode) : String :=
  "## Slop Detection Results\n\nMode: **" ++ mode.text ++ "** | Total: "
    ++ Decimal.natText h.findings.length ++ " findings\n\n"
    ++ String.join ((groups h.findings).map (groupSection mode))
    ++ actions h.findings
    ++ (h.verdict.map fun v => "\n" ++ repositoryText false h.violations v ++ "\n").getD ""

def text (h : Handoff) (mode : Mode) (compact : Bool) (limit : Int) : String :=
  if h.isEmpty then nothingFound
  else if compact then h.compactText mode limit
  else h.fullText mode

end Handoff

end CodeHygiene.Report
