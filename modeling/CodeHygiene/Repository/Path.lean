/-!
A path by its components. Empty components and single dots are dropped when a path is read; a path
with no component left that starts where it is asked from is written as a dot. Double dots stay, as
they may follow a link. A path that holds a NUL is no name of anything: whether it is there is
answered, but it cannot be opened.
-/

namespace CodeHygiene.Repository

/-- Where a path starts. Two slashes are kept apart from one; more than two are one. -/
inductive Start where
  | here
  | root
  | doubleRoot
  deriving DecidableEq, Repr

namespace Start

def ofText : List Char → Start
  | '/' :: '/' :: '/' :: _ => root
  | '/' :: '/' :: _ => doubleRoot
  | '/' :: _ => root
  | _ => here

def text : Start → String
  | here => ""
  | root => "/"
  | doubleRoot => "//"

end Start

/-- Why a path cannot be opened. -/
inductive Fault where
  | nulInPath
  deriving DecidableEq, Repr

def Fault.message : Fault → String
  | .nulInPath => "embedded null byte"

structure Path where
  start : Start := .here
  parts : List String := []
  deriving DecidableEq, Repr

namespace Path

/-- The parts between slashes. -/
def split : List Char → List (List Char)
  | [] => [[]]
  | c :: rest =>
    if c = '/' then [] :: split rest
    else match split rest with
      | [] => [[c]]
      | part :: more => (c :: part) :: more

def partsOf (s : String) : List String :=
  ((split s.toList).map String.ofList).filter fun p => p ≠ "" && p ≠ "."

def ofText (s : String) : Path := ⟨Start.ofText s.toList, partsOf s⟩

def isAbsolute (p : Path) : Bool := p.start ≠ .here

def text (p : Path) : String :=
  if p.parts.isEmpty && !p.isAbsolute then "." else p.start.text ++ "/".intercalate p.parts

/-- A path below another; an absolute one stands for itself. -/
def join (p q : Path) : Path := if q.isAbsolute then q else ⟨p.start, p.parts ++ q.parts⟩

/-- A path given as text, below another. -/
def below (p : Path) (s : String) : Path := p.join (ofText s)

/-- Whether a path as it is written can only be that of a directory: it ends in a slash, perhaps with a
dot behind it. -/
def endsInSlash (s : String) : Bool :=
  match (split s.toList).reverse with
  | last :: _ :: _ => last.isEmpty || last = ['.']
  | _ => false

def holdsNul (p : Path) : Bool := p.parts.any fun part => part.toList.contains '\x00'

end Path

/-- An answer for which paths are opened. -/
def opening (paths : List Path) (answer : α) : Except Fault α :=
  if paths.any Path.holdsNul then .error .nulInPath else .ok answer

end CodeHygiene.Repository
