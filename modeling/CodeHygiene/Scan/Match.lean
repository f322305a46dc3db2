import CodeHygiene.Finding
import CodeHygiene.Rule.Basic
import CodeHygiene.Text.Entropy
import CodeHygiene.Text.Lines

/-!
What the rules with a pattern find in a text. A rule looks at one of three things:
- at the whole text: a finding for each match (`ofContent`);
- at runs of lines: a finding for each maximal run of matching lines that is long enough (`ofRuns`);
- at each line: a finding for the first match in a line that counts (`ofLines`).
-/

namespace CodeHygiene.Scan

abbrev Line := List Char

/-- A text with the path it is reported under. Its lines are without the carriage returns that end
them. -/
structure Source where
  path : String
  content : List Char
  lines : List Line := (Text.lines content).map Text.dropReturns

/-- A line by its number, counted from one. -/
def Source.line? (s : Source) (number : Nat) : Option Line := s.lines[number - 1]?

/-- The finding of a rule at a place. -/
def findingAt (rule : Rule) (s : Source) (line column : Nat) (excerpt : String) : Finding :=
  { file := s.path, line, column, rule := rule.name, severity := rule.severity, certainty := .high,
    excerpt, remediation := rule.remediation, description := rule.description }

def quoted (line : Line) : String := String.ofList (Text.excerpt line Text.excerptLimit)

/-! ## The whole text -/

def contentFinding (rule : Rule) (s : Source) (h : Regex.Hit) : Finding :=
  let number := Text.lineAt s.content h.start
  findingAt rule s number (Text.columnAt s.content h.start) (quoted ((s.line? number).getD []))

def ofContent (rule : Rule) (r : Regex) (s : Source) : List Finding :=
  (r.all s.content).map (contentFinding rule s)

/-! ## Runs of lines -/

/-- Neighbouring lines: the number of the first, and how many they are. -/
structure Run where
  first : Nat
  count : Nat
  deriving DecidableEq, Repr

namespace Run

def last (r : Run) : Nat := r.first + r.count - 1

def text (r : Run) : String := "Lines " ++ Decimal.natText r.first ++ "-" ++ Decimal.natText r.last

def details (r : Run) : Json.Object :=
  [("start_line", .nat r.first), ("end_line", .nat r.last), ("line_count", .nat r.count)]

end Run

/-- The run of `count` marked lines that ends before a line, unless it is empty. -/
def runBefore (number count : Nat) : List Run := if count = 0 then [] else [⟨number - count, count⟩]

/-- The maximal runs of marked lines, from the line `number` on; `count` marked lines stand right
before it. -/
def runsFrom (number count : Nat) : List Bool → List Run
  | [] => runBefore number count
  | true :: rest => runsFrom (number + 1) (count + 1) rest
  | false :: rest => runBefore number count ++ runsFrom (number + 1) 0 rest

/-- The maximal runs of matching lines. -/
def runs (r : Regex) (lines : List Line) : List Run := runsFrom 1 0 (lines.map r.occursIn)

def runFinding (rule : Rule) (s : Source) (run : Run) : Finding :=
  { findingAt rule s run.first 0 run.text with details := run.details }

def ofRuns (rule : Rule) (r : Regex) (least : Int) (s : Source) : List Finding :=
  ((runs r s.lines).filter fun run => least ≤ run.count).map (runFinding rule s)

/-! ## Each line -/

/-- The part of a match whose entropy decides: the first group of a pattern that has groups. -/
def token (r : Regex) (line : Line) (h : Regex.Hit) : List Char :=
  if r.groupCount = 0 then h.text line else (h.groupText? line 1).getD []

/-- Whether a match is as random as the rule asks for. -/
def counts (rule : Rule) (r : Regex) (line : Line) (h : Regex.Hit) : Bool :=
  rule.leastEntropy.all fun least => !(Text.entropy (token r line h) < least.toFloat)

/-- The first match in a line that counts. -/
def hitIn? (rule : Rule) (r : Regex) (line : Line) : Option Regex.Hit :=
  (r.all line).find? (counts rule r line)

def ofLines (rule : Rule) (r : Regex) (s : Source) : List Finding :=
  (s.lines.zipIdx 1).filterMap fun (line, number) =>
    (hitIn? rule r line).map fun h => findingAt rule s number (h.start + 1) (quoted line)

/-! ## A rule -/

/-- What a rule finds with a pattern; where it looks follows from its scope and from whether it asks
for runs. -/
def ofPattern (rule : Rule) (r : Regex) (s : Source) : List Finding :=
  match rule.scope, rule.consecutive.getD 0 with
  | .content, _ => ofContent rule r s
  | .line, 0 => ofLines rule r s
  | .line, least => ofRuns rule r least s

/-- What the rules with a pattern find, rule by rule. -/
def ofPatterns (rules : List Rule) (s : Source) : List Finding :=
  rules.flatMap fun rule => match rule.pattern? with
    | some r => ofPattern rule r s
    | none => []

end CodeHygiene.Scan
