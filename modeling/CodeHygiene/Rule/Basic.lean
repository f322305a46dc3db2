import CodeHygiene.Grades
import CodeHygiene.Quantity
import CodeHygiene.Regex.Read

/-!
A rule: what it is called, how its findings are graded, which files it looks at, and how it looks.
A rule looks with a pattern or with an analyzer, never both (`Check`).
-/

namespace CodeHygiene

/-- A measure that no single pattern can express. -/
inductive Analyzer where
  | docRatio
  | verbosityRatio
  | overEngineering
  | claimEvidence
  | stubFunctions
  | duplicateStrings
  deriving DecidableEq, Repr

namespace Analyzer

def all : List Analyzer :=
  [docRatio, verbosityRatio, overEngineering, claimEvidence, stubFunctions, duplicateStrings]

def text : Analyzer → String
  | docRatio => "doc_ratio"
  | verbosityRatio => "verbosity_ratio"
  | overEngineering => "over_engineering"
  | claimEvidence => "claim_evidence"
  | stubFunctions => "stub_functions"
  | duplicateStrings => "duplicate_strings"

def read (s : String) : Except UnknownName Analyzer :=
  match all.find? (·.text = s) with
  | some a => .ok a
  | none => .error ⟨.analyzer, s⟩

/-- Whether it looks at a whole repository rather than at one file. -/
def isProjectLevel : Analyzer → Bool
  | overEngineering | claimEvidence => true
  | _ => false

end Analyzer

/-- Whether a pattern is matched against each line or against the whole text. -/
inductive Scope where
  | line
  | content
  deriving DecidableEq, Repr

namespace Scope

def text : Scope → String
  | line => "line"
  | content => "content"

def read (s : String) : Except UnknownName Scope :=
  match [line, content].find? (·.text = s) with
  | some v => .ok v
  | none => .error ⟨.scope, s⟩

end Scope

inductive Check where
  | pattern (r : Regex)
  | analyzer (a : Analyzer)

structure Rule where
  name : String
  description : String
  severity : Severity
  remediation : Remediation
  /-- The language whose files it looks at; none means every file. -/
  language : Option String := none
  check : Check
  excludes : List String := []
  thresholds : List (String × Quantity) := []
  /-- Only runs of at least this many matching lines count; zero asks for no run. -/
  consecutive : Option Int := none
  /-- Matches with less entropy than this do not count. -/
  leastEntropy : Option Quantity := none
  scope : Scope := .line

/-- What cannot be made a rule. -/
inductive RuleFault where
  | unknownName (u : UnknownName)
  | notOneCheck (name : String)
  | duplicate (name : String)

def RuleFault.message : RuleFault → String
  | .unknownName u => u.message
  | .notOneCheck name => "Rule " ++ name ++ " must define exactly one of pattern or analyzer"
  | .duplicate name => "Rule " ++ name ++ " is already registered"

namespace Check

/-- A pattern or an analyzer, when exactly one of them is there. -/
def ofOptions (name : String) : Option Regex → Option Analyzer → Except RuleFault Check
  | some r, none => .ok (.pattern r)
  | none, some a => .ok (.analyzer a)
  | _, _ => .error (.notOneCheck name)

def pattern? : Check → Option Regex
  | .pattern r => some r
  | .analyzer _ => none

def analyzer? : Check → Option Analyzer
  | .pattern _ => none
  | .analyzer a => some a

theorem ofOptions_self (name : String) (c : Check) :
    ofOptions name c.pattern? c.analyzer? = .ok c := by cases c <;> rfl

end Check

namespace Rule

def pattern? (r : Rule) : Option Regex := r.check.pattern?

def analyzer? (r : Rule) : Option Analyzer := r.check.analyzer?

def isStructural (r : Rule) : Bool := r.analyzer?.isSome

def isProjectLevel (r : Rule) : Bool := r.analyzer?.any Analyzer.isProjectLevel

def isUniversal (r : Rule) : Bool := r.language.isNone

end Rule

end CodeHygiene
