/-!
How much is logged. The program's logger has one handler, which takes what the logger takes, and
setting it up again puts a new handler in the place of the old one.
-/

namespace CodeHygiene.Log

inductive Level where
  | debug
  | warning
  | error
  deriving DecidableEq, Repr

/-- The rank by which messages are let through. -/
def Level.rank : Level → Nat
  | .debug => 10
  | .warning => 30
  | .error => 40

/-- To be quiet counts for more than to be verbose. -/
def Level.wanted (verbose quiet : Bool) : Level :=
  if quiet then .error else if verbose then .debug else .warning

def rootName : String := "slop_detector"

/-- The logger of a part of the program; no name, or an empty one, stands for the whole. -/
def nameOf (part : Option String) : String :=
  match part with
  | none => rootName
  | some p => if p = "" then rootName else rootName ++ "." ++ p

structure Logger where
  name : String := rootName
  level : Level := .warning
  /-- The level of each handler. -/
  handlers : List Level := []
  /-- Whether messages go on to the loggers above. -/
  propagates : Bool := true
  deriving DecidableEq, Repr

def Logger.setUp (l : Logger) (verbose quiet : Bool) : Logger :=
  let level := Level.wanted verbose quiet
  { l with level, handlers := [level], propagates := false }

theorem Logger.setUp_handlers (l : Logger) (verbose quiet : Bool) :
    (l.setUp verbose quiet).handlers = [(l.setUp verbose quiet).level] := rfl

end CodeHygiene.Log
