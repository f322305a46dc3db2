import CodeHygiene.Json.Read
import CodeHygiene.Repository.Tree
import CodeHygiene.Settings.Basic

/-!
Loading settings: from a file that is named, or else from the usual file of a project if it has one,
with further values put over those of the file. A fault names the file it comes from.
-/

namespace CodeHygiene.Settings

open Repository (Tree Path)

/-- Why there are no settings. -/
inductive Fault where
  | notFound (path : Path)
  | notText (fault : Text.Utf8.Fault)
  /-- A file with a whole number that is not read. -/
  | tooManyDigits (count : Nat)
  | notJson (path : Path) (fault : Json.Fault) (text : List Char)
  | notObject (path : Path)
  /-- Values that are not accepted; the file is that which was read, if one was. -/
  | invalid (path : Option Path) (problems : List Problem)

namespace Fault

/-- The file a fault names. -/
def path? : Fault → Option Path
  | notFound p | notJson p _ _ | notObject p => some p
  | invalid p _ => p
  | notText _ | tooManyDigits _ => none

def countText (n : Nat) : String :=
  Decimal.natText n ++ " validation error" ++ (if n = 1 then "" else "s") ++ " for ScanConfig"

/-- The first line of the report. -/
def message : Fault → String
  | notFound p => "Config file not found: " ++ p.text
  | notText f => f.message
  | tooManyDigits count => (Json.Problem.tooManyDigits count).message
  | notJson p f text => "Invalid JSON in " ++ p.text ++ ": " ++ f.message text
  | notObject p => "Config " ++ p.text ++ " must contain a JSON object"
  | invalid p problems =>
    "Invalid configuration in " ++ (p.map Path.text).getD "overrides" ++ ": "
      ++ countText problems.length

/-- What is wrong with the text of a file. -/
def ofText (path : Path) (text : List Char) (f : Json.Fault) : Fault :=
  match f.problem with
  | .tooManyDigits count => tooManyDigits count
  | _ => notJson path f text

/-- Whether a fault is told as one of the settings. -/
def isReported : Fault → Bool
  | notText _ | tooManyDigits _ => false
  | _ => true

end Fault

/-- The name of the file that a project keeps its settings in. -/
def fileName : String := ".slop-detector.json"

/-- The object that a file holds. -/
def readFile (path : Path) (bytes : List UInt8) : Except Fault Json.Object := do
  let text ← (Tree.textOf bytes).mapError .notText
  match ← (Json.read text).mapError (.ofText path text) with
  | .obj o => return o
  | _ => .error (.notObject path)

/-- The file to read, and what it holds: nothing, when none is named and the project has none. -/
def source (t : Tree) (path project : Option String) : Except Fault (Option Path × Json.Object) :=
  match path, project with
  | some p, _ =>
    let p := Path.ofText p
    match t.bytes? p with
    | some bytes => (readFile p bytes).map (some p, ·)
    | none => .error (.notFound p)
  | none, some p =>
    let p := (Path.ofText p).below fileName
    match t.bytes? p with
    | some bytes => (readFile p bytes).map (some p, ·)
    | none => .ok (none, [])
  | none, none => .ok (none, [])

/-- Settings from a file, with further values over it; nulls among these do not count. -/
def load (t : Tree) (path project : Option String) (more : Json.Object) : Except Fault Settings := do
  let (file, o) ← source t path project
  match read (o.update (more.filter fun (_, v) => !v.isNull)) with
  | .ok s => return s
  | .faulty problems => .error (.invalid file problems)

end CodeHygiene.Settings
