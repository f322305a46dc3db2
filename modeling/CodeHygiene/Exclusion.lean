import CodeHygiene.Cache
import CodeHygiene.Glob

/-!
Which files a rule leaves out. A glob is matched against the path, with slashes for backslashes, and
against its last component (`excludes`). The matcher gives the same answer from two caches: one of
globs, one of answers.
-/

namespace CodeHygiene.Exclusion

/-- Slashes for backslashes. -/
def slashed (path : String) : String := path.map fun c => if c = '\\' then '/' else c

/-- What follows the last slash. -/
def lastComponent (path : String) : String :=
  String.ofList (path.toList.reverse.takeWhile (· ≠ '/')).reverse

/-- Whether a glob stands for the path or, when that is shorter, for its last component. -/
def globExcludes (g : Glob) (path : String) : Bool :=
  g.accepts path.toList || (lastComponent path != path && g.accepts (lastComponent path).toList)

/-- Whether some glob leaves a file out. -/
def excludes (path : String) (globs : List String) : Bool :=
  globs.any fun text => globExcludes (Glob.ofText text) (slashed path)

/-- The number of globs and of answers that are kept unless told otherwise. -/
def defaultPatternCapacity : Int := 50

def defaultResultCapacity : Int := 200

/-- Answers are kept by path and list of globs. -/
structure Matcher where
  patterns : Cache String Glob
  results : Cache (String × List String) Bool

namespace Matcher

/-- A matcher that has kept nothing yet. -/
def empty (patterns results : Nat) : Matcher := ⟨{ capacity := patterns }, { capacity := results }⟩

def ofCapacities (patterns results : Int) : Except CapacityFault Matcher := do
  return ⟨← Cache.ofCapacity patterns, ← Cache.ofCapacity results⟩

/-- A glob, from the cache or made and put there. -/
def compiled (m : Matcher) (text : String) : Glob × Matcher :=
  match m.patterns.get text with
  | (some g, patterns) => (g, { m with patterns })
  | (none, patterns) =>
    let g := Glob.ofText text
    (g, { m with patterns := patterns.set text (some g) })

/-- Asks the globs one after the other, up to the first that leaves the file out. -/
def anyExcludes (m : Matcher) (path : String) : List String → Bool × Matcher
  | [] => (false, m)
  | text :: more =>
    let (g, m) := m.compiled text
    if globExcludes g path then (true, m) else anyExcludes m path more

def isExcluded (m : Matcher) (path : String) (globs : List String) : Bool × Matcher :=
  if globs.isEmpty then (false, m)
  else
    let path := slashed path
    match m.results.get (path, globs) with
    | (some answer, results) => (answer, { m with results })
    | (none, results) =>
      let (answer, m) := { m with results }.anyExcludes path globs
      (answer, { m with results := m.results.set (path, globs) (some answer) })

def clear (m : Matcher) : Matcher := ⟨m.patterns.clear, m.results.clear⟩

/-- The items that no glob leaves out, each with its own list of globs. -/
def keep (m : Matcher) (path : String) (globsOf : α → List String) : List α → List α × Matcher
  | [] => ([], m)
  | item :: more =>
    let (excluded, m) := m.isExcluded path (globsOf item)
    let (kept, m) := keep m path globsOf more
    (if excluded then kept else item :: kept, m)

end Matcher

end CodeHygiene.Exclusion
