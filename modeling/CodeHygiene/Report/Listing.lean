import CodeHygiene.Report.Basic

/-!
Findings listed file by file, and violations listed one by one. Files stand in the order of their
first finding, the findings of a file in the order in which they were made.
-/

namespace CodeHygiene

/-- A severity as it stands before what is graded. -/
def Severity.badge : Severity → String
  | .critical => "[CRITICAL]"
  | .high => "[HIGH]"
  | .medium => "[MEDIUM]"
  | .low => "[LOW]"

def Severity.initial : Severity → String
  | .critical => "C"
  | .high => "H"
  | .medium => "M"
  | .low => "L"

def Certainty.initial : Certainty → String
  | .high => "H"
  | .medium => "M"
  | .low => "L"

namespace Report

/-- Findings by file. -/
abbrev FileGroups := List (String × List Finding)

/-- Puts a finding at the end of the group of its file. -/
def FileGroups.add : FileGroups → Finding → FileGroups
  | [], f => [(f.file, [f])]
  | (file, fs) :: rest, f =>
    if file = f.file then (file, fs ++ [f]) :: rest else (file, fs) :: FileGroups.add rest f

def byFile (findings : List Finding) : FileGroups := findings.foldl FileGroups.add []

/-- What can be done without a reader, if anything can. -/
def fix? (f : Finding) : Option String :=
  if f.isAutomatic then some f.remediation.text else none

def itemText (f : Finding) : String :=
  "- L" ++ Decimal.intText f.line ++ ": " ++ f.description
    ++ ((fix? f).map fun fix => " [" ++ fix ++ "]").getD "" ++ "\n"

def groupText (group : String × List Finding) : String :=
  "**" ++ group.1 ++ "**\n" ++ String.join (group.2.map itemText) ++ "\n"

def listing (findings : List Finding) : String := String.join ((byFile findings).map groupText)

/-- A violation on one line. -/
def violationText (v : Violation) : String :=
  v.severity.badge ++ " " ++ v.type ++ ": " ++ v.value ++ " (threshold " ++ v.threshold ++ ")"

end Report

end CodeHygiene
