import CodeHygiene.CommandLine.Arguments
import CodeHygiene.Json.Write
import CodeHygiene.Report.Display
import CodeHygiene.Report.Handoff
import CodeHygiene.Scan.Engine
import CodeHygiene.Settings.Load

/-!
A run of the program: a scan of the repository in a tree as a command line asks for it, and what is
printed. The status is 2 when something critical was found or the command line is not understood, 1
when there are no valid settings, and 0 otherwise.
-/

namespace CodeHygiene.CommandLine

open Repository (Tree Path)

/-- How a run ends and what it prints. -/
structure Outcome where
  status : Nat
  out : String := ""
  err : String := ""

/-- What a run has no answer for. -/
inductive Failure where
  /-- A fault in the settings that is not told as one. -/
  | settings (f : Settings.Fault)
  | scan (f : Scan.Fault)

def Failure.message : Failure → String
  | .settings f => f.message
  | .scan f => f.message

def programName : String := "slop-detector"

def versionText : String := programName ++ " 1.0.0\n"

def usage : String :=
  "usage: " ++ programName ++ " [PATH] [--files F ...] [--config FILE] [--quick] [--apply]\n"
    ++ "       [--compact] [--max N] [--json] [--display] [--language L]\n"
    ++ "       [--severity S ...] [--workers N] [-v] [--version]\n"

def Stop.outcome : Stop → Outcome
  | .help => { status := 0, out := usage }
  | .version => { status := 0, out := versionText }
  | .fault f => { status := 2, err := usage ++ programName ++ ": error: " ++ f.message ++ "\n" }

/-- The value of an option; an empty list when it has none. -/
def valueJson (f : α → Json) : Option α → Json
  | some a => f a
  | none => .arr []

/-- The settings that a command line gives. -/
def Arguments.settings (a : Arguments) : Json.Object :=
  (if a.quick then [("thoroughness", .str "quick")] else [])
    ++ (a.languages.map fun ls => ("languages", .arr (ls.map (valueJson .str)))).toList
    ++ (a.severities.map fun vs => ("severities", Json.strings vs)).toList
    ++ (a.workers.map fun n => ("max_workers", valueJson .whole n)).toList

/-- The report as a command line asks for it. -/
def Arguments.render (a : Arguments) (r : Report) : String :=
  if a.json then Json.indented 0 r.toJson
  else if a.display then r.display
  else r.toHandoff.text (if a.apply then .apply else .report) a.compact a.max

def statusOf (r : Report) : Nat := if r.hasCritical then 2 else 0

/-- A scan with settings that were loaded. -/
def scanWith (t : Tree) (a : Arguments) (s : Settings) : Except Failure Outcome := do
  let (report, _) ← ((Engine.start .builtIn s).scan t a.files (some (.ofText a.path))).mapError .scan
  return { status := statusOf report, out := a.render report ++ "\n" }

def execute (t : Tree) (a : Arguments) : Except Failure Outcome :=
  match Settings.load t a.config (some a.path) a.settings with
  | .ok s => scanWith t a s
  | .error f =>
    if f.isReported then .ok { status := 1, err := "Error loading config: " ++ f.message ++ "\n" }
    else .error (.settings f)

/-- A run in a tree. -/
def run (t : Tree) (words : List String) : Except Failure Outcome :=
  match Arguments.read words with
  | .ok a => execute t a
  | .error s => .ok s.outcome

end CodeHygiene.CommandLine
