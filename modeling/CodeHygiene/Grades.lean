import CodeHygiene.Text.Quoted

/-!
How a defect is graded: how severe it is, what to do about it, and how far it can be trusted. Each
grade has one written form, which reads back (`ofText?_text`).
-/

namespace CodeHygiene

inductive Severity where
  | critical
  | high
  | medium
  | low
  deriving DecidableEq, Repr

inductive Remediation where
  /-- Delete the lines. -/
  | remove
  /-- Put a normal form in their place. -/
  | replace
  /-- Add handling around them. -/
  | annotate
  /-- Mark them for a reviewer. -/
  | flag
  /-- Only report them. -/
  | none
  deriving DecidableEq, Repr

inductive Certainty where
  | high
  | medium
  | low
  deriving DecidableEq, Repr

/-- A closed set of names, as an unknown one is reported. -/
inductive Vocabulary where
  | severity
  | remediation
  | certainty
  | analyzer
  | scope
  deriving DecidableEq, Repr

def Vocabulary.title : Vocabulary → String
  | .severity => "Severity"
  | .remediation => "Remediation"
  | .certainty => "Certainty"
  | .analyzer => "StructuralAnalyzer"
  | .scope => "MatchScope"

/-- A name that a vocabulary does not have. -/
structure UnknownName where
  vocabulary : Vocabulary
  name : String
  deriving DecidableEq, Repr

def UnknownName.message (u : UnknownName) : String :=
  String.ofList (Text.quoted u.name.toList) ++ " is not a valid " ++ u.vocabulary.title

namespace Severity

/-- From the worst down. -/
def all : List Severity := [critical, high, medium, low]

def text : Severity → String
  | critical => "critical"
  | high => "high"
  | medium => "medium"
  | low => "low"

def ofText? (s : String) : Option Severity := all.find? (·.text = s)

def read (s : String) : Except UnknownName Severity :=
  match ofText? s with
  | some v => .ok v
  | Option.none => .error ⟨.severity, s⟩

/-- A higher rank is worse. -/
def rank : Severity → Nat
  | low => 0
  | medium => 1
  | high => 2
  | critical => 3

/-- High or critical. -/
def isHigh (s : Severity) : Bool := high.rank ≤ s.rank

theorem ofText?_text (s : Severity) : ofText? s.text = some s := by cases s <;> decide

end Severity

namespace Remediation

def all : List Remediation := [remove, replace, annotate, flag, none]

def text : Remediation → String
  | remove => "remove"
  | replace => "replace"
  | annotate => "annotate"
  | flag => "flag"
  | none => "none"

def ofText? (s : String) : Option Remediation := all.find? (·.text = s)

def read (s : String) : Except UnknownName Remediation :=
  match ofText? s with
  | some v => .ok v
  | Option.none => .error ⟨.remediation, s⟩

/-- Whether the change can be made without a reader's judgement. -/
def isAutomatic : Remediation → Bool
  | remove | replace | annotate => true
  | flag | none => false

theorem ofText?_text (r : Remediation) : ofText? r.text = some r := by cases r <;> decide

end Remediation

namespace Certainty

/-- From the most certain down. -/
def all : List Certainty := [high, medium, low]

def text : Certainty → String
  | high => "HIGH"
  | medium => "MEDIUM"
  | low => "LOW"

def ofText? (s : String) : Option Certainty := all.find? (·.text = s)

def read (s : String) : Except UnknownName Certainty :=
  match ofText? s with
  | some v => .ok v
  | Option.none => .error ⟨.certainty, s⟩

theorem ofText?_text (c : Certainty) : ofText? c.text = some c := by cases c <;> decide

end Certainty

end CodeHygiene
