import CodeHygiene.Grades
import CodeHygiene.Json.Basic

/-!
A violation: a measured value that passed its threshold, in a file or in a repository as a whole.
-/

namespace CodeHygiene

structure Violation where
  type : String
  value : String
  threshold : String
  severity : Severity
  details : Json.Object := []
  file : Option String := none
  line : Option Int := none

namespace Violation

def toJson (v : Violation) : Json :=
  .obj ([("type", .str v.type), ("value", .str v.value), ("threshold", .str v.threshold),
      ("severity", .str v.severity.text), ("details", .obj v.details)]
    ++ (v.file.map fun f => ("file", .str f)).toList
    ++ (v.line.map fun n => ("line", .whole n)).toList)

end Violation

/-- What a set of violations, or of anything with a severity, amounts to. -/
inductive Verdict where
  | ok
  | medium
  | high
  deriving DecidableEq, Repr

namespace Verdict

/-- Nothing is fine; otherwise the verdict is high when something is high or critical. -/
def ofSeverities (severities : List Severity) : Verdict :=
  if severities.isEmpty then ok else if severities.any Severity.isHigh then high else medium

def text : Verdict → String
  | ok => "OK"
  | medium => "MEDIUM"
  | high => "HIGH"

end Verdict

end CodeHygiene
