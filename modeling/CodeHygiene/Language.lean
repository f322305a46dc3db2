import CodeHygiene.Exclusion
import CodeHygiene.Regex.Read

/-!
The languages that are known, how a path shows them, how they mark comments, and which paths are
tests or not source at all. A language is named by its tag; a tag may also name a language that is
not known here.
-/

namespace CodeHygiene

inductive Language where
  | javascript
  | python
  | rust
  | go
  | java
  deriving DecidableEq, Repr

/-- What opens a comment up to the end of the line, and what opens and closes a block. -/
structure CommentMarks where
  line : List Char
  blockStart : List Char
  blockEnd : List Char
  deriving DecidableEq, Repr

namespace Language

def all : List Language := [javascript, python, rust, go, java]

def tag : Language → String
  | javascript => "javascript"
  | python => "python"
  | rust => "rust"
  | go => "go"
  | java => "java"

def ofTag? (tag : String) : Option Language := all.find? (·.tag = tag)

/-- The file extensions of a language, with their dot, in lower case. -/
def extensions : Language → List String
  | javascript => [".js", ".jsx", ".ts", ".tsx", ".mjs", ".cjs"]
  | python => [".py"]
  | rust => [".rs"]
  | go => [".go"]
  | java => [".java"]

def ofExtension? (extension : String) : Option Language :=
  all.find? fun l => l.extensions.contains extension

/-- From the last dot of a name on, unless it begins or ends the name. -/
def suffix (name : List Char) : List Char :=
  let stem := (name.reverse.dropWhile (· ≠ '.')).drop 1
  let tail := (name.reverse.takeWhile (· ≠ '.')).reverse
  if stem.isEmpty || tail.isEmpty then [] else '.' :: tail

/-- The extension that decides the language: a name that is nothing but an extension counts as one. -/
def decisiveSuffix (name : List Char) : List Char :=
  if name.head? = some '.' && name.count '.' = 1 then name else suffix name

/-- The language of a path, by its extension in any case. -/
def ofPath? (path : String) : Option Language :=
  let name := Exclusion.lastComponent (Exclusion.slashed path)
  ofExtension? (String.ofList (Text.lower (decisiveSuffix name.toList)))

/-- The tag to go by: the one that is given and not empty, or that of the path. -/
def tagFor (tag : Option String) (path : Option String) : Option String :=
  match tag with
  | some t => if t = "" then (path.bind ofPath?).map Language.tag else some t
  | none => (path.bind ofPath?).map Language.tag

def cMarks : CommentMarks := ⟨"//".toList, "/*".toList, "*/".toList⟩

def pythonMarks : CommentMarks := ⟨"#".toList, "\"\"\"".toList, "\"\"\"".toList⟩

def marks : Language → CommentMarks
  | python => pythonMarks
  | _ => cMarks

/-- An unknown language is taken to mark comments as most do. -/
def marksOfTag (tag : Option String) : CommentMarks :=
  match tag.bind ofTag? with
  | some l => l.marks
  | none => cMarks

/-! ## Paths -/

/-- Directories and files of these names hold no source of the project. -/
def skippedNames : List String :=
  ["node_modules", "vendor", "dist", "build", "out", "target", ".git", ".svn", ".hg",
   "__pycache__", ".pytest_cache", "coverage", ".nyc_output", ".next", ".nuxt", ".cache"]

def testPatterns : List Regex :=
  [.ofSource "\\.test\\.[jt]sx?$" .plain,
   .ofSource "\\.spec\\.[jt]sx?$" .plain,
   .ofSource "_tests?\\.(go|rs|py)$" .plain,
   .ofSource "(^|/)test_[^/]*\\.py$" .plain,
   .ofSource "Test\\.java$" .plain,
   .ofSource "__tests__" .plain,
   .ofSource "(^|/)tests?/" .anyCase]

def isTestPath (path : String) : Bool :=
  testPatterns.any (·.occursIn (Exclusion.slashed path).toList)

/-- From the last dot of a file name on; dots that begin the name do not count. -/
def fileExtension (name : List Char) : List Char :=
  let tail := (name.reverse.takeWhile (· ≠ '.')).reverse
  let stem := (name.reverse.dropWhile (· ≠ '.')).drop 1
  if stem.all (· = '.') then [] else '.' :: tail

/-- Whether a file name ends in a known extension, letter case included. -/
def isSourceName (name : String) : Bool :=
  (ofExtension? (String.ofList (fileExtension name.toList))).isSome

theorem ofTag?_tag (l : Language) : ofTag? l.tag = some l := by cases l <;> decide

end Language

end CodeHygiene
