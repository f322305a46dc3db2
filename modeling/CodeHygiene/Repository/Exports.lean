import CodeHygiene.Repository.CodeLines
import CodeHygiene.Repository.Walk
import CodeHygiene.Tally

/-!
The public surface of a repository: how many exports it has. The conventional entry points are asked
first; when they export nothing, every source file below `src` is; when there is still nothing, one
export is taken for granted so that every share of it is defined.
-/

namespace CodeHygiene.Repository

def javascriptExports : List Regex :=
  [.ofSource "export\\s+(function|class|const|let|var|default|async\\s+function)" .plain,
   .ofSource "export\\s*\\\x7b[^\x7d]+\\\x7d" .plain,
   .ofSource "export\\s*\\*\\s*(as\\s+\\w+\\s+)?from" .plain,
   .ofSource "module\\.exports\\s*=" .plain,
   .ofSource "exports\\.\\w+\\s*=" .plain]

def rustExports : List Regex :=
  [.ofSource "^pub\\s+(fn|struct|enum|mod|type|trait|const|static)" .byLine]

def goExports : List Regex :=
  [.ofSource "^func\\s+[A-Z]" .byLine,
   .ofSource "^type\\s+[A-Z]\\w*\\s+(struct|interface)" .byLine,
   .ofSource "^var\\s+[A-Z]" .byLine,
   .ofSource "^const\\s+[A-Z]" .byLine]

def pythonExports : List Regex :=
  [.ofSource "__all__\\s*=\\s*\\[" .plain,
   .ofSource "^def\\s+(?!_)\\w+\\s*\\(" .byLine,
   .ofSource "^class\\s+[A-Z]\\w*[\\s:(]" .byLine]

def javaExports : List Regex :=
  [.ofSource "^\\s*public\\s+(?:final\\s+|abstract\\s+)*(class|interface|enum|record)\\s+" .byLine]

def exportPatterns : Language → List Regex
  | .javascript => javascriptExports
  | .rust => rustExports
  | .go => goExports
  | .python => pythonExports
  | .java => javaExports

/-- Export statements of a text; an unknown language exports as JavaScript does. -/
def countExports (content : List Char) (l : Option Language) : Nat :=
  Tally.sum ((exportPatterns (l.getD .javascript)).map fun r => (r.all content).length)

/-- Where a project conventionally begins. -/
def entryPoints : List String :=
  ["index.js", "index.ts", "src/index.js", "src/index.ts", "lib/index.js", "lib/index.ts",
   "main.js", "main.ts", "lib.rs", "src/lib.rs", "main.go", "__init__.py", "src/__init__.py"]

/-- How the exports were counted. -/
inductive ExportMethod where
  | entryPoints
  | sourceScan
  | assumed
  deriving DecidableEq, Repr

def ExportMethod.text : ExportMethod → String
  | .entryPoints => "entry-points"
  | .sourceScan => "src-scan"
  | .assumed => "fallback"

structure ExportCount where
  count : Nat
  method : ExportMethod
  entryPoints : List String := []
  deriving DecidableEq, Repr

/-- The exports of a file below a directory; a file that cannot be read has none. -/
def exportsOf (t : Tree) (root : Path) (relative : String) : Nat :=
  match t.text? (root.below relative) with
  | some content => countExports content (Language.ofPath? relative)
  | none => 0

def exportCount (t : Tree) (root : Path) : ExportCount :=
  let found := entryPoints.filter fun e => 0 < exportsOf t root e
  let count := Tally.sum (found.map (exportsOf t root))
  if 0 < count then ⟨count, .entryPoints, found⟩
  else
    let src := root.below "src"
    let files := sourceFiles t src false defaultMaxFiles defaultDepth
    let scanned := Tally.sum (files.map (exportsOf t src))
    if 0 < scanned then ⟨scanned, .sourceScan, ["src/"]⟩ else ⟨1, .assumed, []⟩

/-- The lines of code of files below a directory; a file that cannot be read has none. -/
def codeLinesOf (t : Tree) (root : Path) (files : List String) : Nat :=
  Tally.sum (files.map fun f => ((t.text? (root.below f)).map countCodeLines).getD 0)

/-- Opens files below a directory for their lines of code. -/
def countLines (t : Tree) (root : Path) (files : List String) : Except Fault Nat :=
  opening (files.map root.below) (codeLinesOf t root files)

/-- An export is always counted. -/
theorem exportCount_pos (t : Tree) (root : Path) : 0 < (exportCount t root).count := by
  unfold exportCount
  simp only
  split
  · assumption
  · split
    · assumption
    · exact Nat.one_pos

end CodeHygiene.Repository
