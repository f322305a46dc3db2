import CodeHygiene.Violation

/-!
A finding: a defect at a place of a file.
-/

namespace CodeHygiene

structure Finding where
  file : String
  line : Int
  rule : String
  severity : Severity
  certainty : Certainty
  excerpt : String
  /-- Counted from one; zero when the defect has no column. -/
  column : Int := 0
  remediation : Remediation := .flag
  description : String := ""
  details : Json.Object := []

namespace Finding

/-- The file, the line and, if there is one, the column. -/
def location (f : Finding) : String :=
  f.file ++ ":" ++ Decimal.intText f.line ++
    if f.column = 0 then "" else ":" ++ Decimal.intText f.column

def isAutomatic (f : Finding) : Bool := f.remediation.isAutomatic

def toJson (f : Finding) : Json :=
  .obj [("file", .str f.file), ("line", .whole f.line), ("column", .whole f.column),
    ("rule", .str f.rule), ("severity", .str f.severity.text),
    ("certainty", .str f.certainty.text), ("excerpt", .str f.excerpt),
    ("remediation", .str f.remediation.text), ("description", .str f.description),
    ("details", .obj f.details)]

end Finding

end CodeHygiene
