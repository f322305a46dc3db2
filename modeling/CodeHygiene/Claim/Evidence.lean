import CodeHygiene.Claim.Basic
import CodeHygiene.Repository.Walk
import CodeHygiene.Tally
import CodeHygiene.Violation

/-!
Evidence for claims. Each category has types of evidence, recognised by the path of a file or by its
text; a file counts once for each type. A positive claim whose category has too little evidence in the
source tree, tests included, is a gap.
-/

namespace CodeHygiene.Claim

open Repository (Tree Path)

/-- How a file is recognised as evidence. -/
inductive Trace where
  | onPath (r : Regex)
  | inText (r : Regex)

/-- The types of evidence for each category, with the traces of each type. -/
abbrev EvidenceTable := List (String × List (String × List Trace))

def testPaths : Regex :=
  .ofSource ("\\.test\\.[jt]sx?$|\\.spec\\.[jt]sx?$|__tests__|test_.*\\.py$|" ++
    "_test\\.go$|_test\\.rs$") .plain

def productionEvidence : List (String × List Trace) :=
  [("tests", [.onPath testPaths]),
   ("error_handling",
     [.inText (.ofSource ("try\\s*\\\x7b|catch\\s*\\(|\\.catch\\s*\\(|except\\s*:|" ++
       "if\\s+let\\s+Err|match.*Err\\(") .plain)]),
   ("logging",
     [.inText (.ofSource ("logger\\.|\\.log\\s*\\(|console\\.error|tracing::|slog\\.|" ++
       "log\\.(info|warn|error|debug)") .anyCase)])]

def enterpriseEvidence : List (String × List Trace) :=
  [("auth", [.inText (.ofSource "authenticat|authorization|permission|rbac|acl|role" .anyCase)]),
   ("audit", [.inText (.ofSource "audit|track.*event|event.*log|activity.*log" .anyCase)]),
   ("rate_limit", [.inText (.ofSource "rate.?limit|throttle|limiter" .anyCase)])]

def securityEvidence : List (String × List Trace) :=
  [("validation", [.inText (.ofSource "validat|sanitiz|escape|clean|htmlspecialchars" .anyCase)]),
   ("auth", [.inText (.ofSource "\\bauth\\b|token|jwt|session|login|passport" .anyCase)]),
   ("encryption", [.inText (.ofSource "encrypt|decrypt|hash|bcrypt|argon|crypto\\." .anyCase)])]

def scaleEvidence : List (String × List Trace) :=
  [("async",
     [.inText (.ofSource "async\\s+|await\\s+|Promise|Future|tokio|async_std|goroutine" .plain)]),
   ("cache", [.inText (.ofSource "\\bcache\\b|redis|memcache|lru" .anyCase)]),
   ("pool", [.inText (.ofSource "pool|connection.?pool|thread.?pool" .anyCase)])]

def reliabilityEvidence : List (String × List Trace) :=
  [("tests", [.onPath testPaths]),
   ("coverage", [.inText (.ofSource "coverage|lcov|nyc|istanbul|codecov" .anyCase)]),
   ("error_handling",
     [.inText (.ofSource "try\\s*\\\x7b|catch\\s*\\(|\\.catch\\s*\\(|except\\s*:|if\\s+let\\s+Err" .plain)])]

def completenessEvidence : List (String × List Trace) :=
  [("edge_cases", [.inText (.ofSource "edge.?case|boundary|corner.?case" .anyCase)]),
   ("error_handling",
     [.inText (.ofSource ("\\b(handle|handles|handled|handling)\\s+(all\\s+)?" ++
       "(errors?|exceptions?|failures?)\\b") .anyCase)]),
   ("documentation", [.inText (.ofSource "/\\*\\*|///|\\\"\\\"\\\"|'''" .plain)])]

def defaultEvidence : EvidenceTable :=
  [("production", productionEvidence), ("enterprise", enterpriseEvidence),
   ("security", securityEvidence), ("scale", scaleEvidence),
   ("reliability", reliabilityEvidence), ("completeness", completenessEvidence)]

/-! ## Evidence -/

/-- Files by the type of evidence that they are, in the order in which they were found. -/
abbrev Evidence := List (String × List String)

namespace Evidence

/-- The types with at least one file. -/
def found (e : Evidence) : List String := e.map (·.1)

/-- The number of pairs of a type and a file. -/
def total (e : Evidence) : Nat := Tally.sum (e.map (·.2.length))

/-- A file counts once for a type. -/
def add : Evidence → String → String → Evidence
  | [], type, file => [(type, [file])]
  | (t, files) :: rest, type, file =>
    if t = type then (t, if files.contains file then files else files ++ [file]) :: rest
    else (t, files) :: add rest type file

/-- Adds a file for every type that recognises it. -/
def addFor (e : Evidence) (file : String) (types : List String) : Evidence :=
  types.foldl (fun e type => e.add type file) e

end Evidence

/-- The traces in paths, each with its type. -/
def pathTraces (types : List (String × List Trace)) : List (String × Regex) :=
  types.flatMap fun (type, traces) => traces.filterMap fun
    | .onPath r => some (type, r)
    | .inText _ => none

/-- The traces in texts, each with its type. -/
def textTraces (types : List (String × List Trace)) : List (String × Regex) :=
  types.flatMap fun (type, traces) => traces.filterMap fun
    | .onPath _ => none
    | .inText r => some (type, r)

/-- The types that a text is evidence of. -/
def recognised (traces : List (String × Regex)) (text : List Char) : List String :=
  (traces.filter fun (_, r) => r.occursIn text).map (·.1)

/-- Adds one file: what its path shows, then, if it can be read, what its text shows. -/
def searchFile (t : Tree) (root : Path) (types : List (String × List Trace)) (e : Evidence)
    (file : String) : Evidence :=
  let e := e.addFor file (recognised (pathTraces types) file.toList)
  if (textTraces types).isEmpty then e
  else match t.text? (root.below file) with
    | none => e
    | some text => e.addFor file (recognised (textTraces types) text)

/-- The types of evidence for a category; one that the table does not name has none. -/
def typesOf (table : EvidenceTable) (category : String) : List (String × List Trace) :=
  (table.lookup category).getD []

/-- The evidence for a category in files below a directory. -/
def evidenceIn (t : Tree) (root : Path) (category : String) (table : EvidenceTable)
    (files : List String) : Evidence :=
  files.foldl (searchFile t root (typesOf table category)) []

/-- Searches files for evidence; they are opened when some type is recognised by the text. -/
def search (t : Tree) (root : Path) (category : String) (table : EvidenceTable) (files : List String) :
    Except Repository.Fault Evidence :=
  let opened := if (textTraces (typesOf table category)).isEmpty then [] else files.map root.below
  Repository.opening opened (evidenceIn t root category table files)

/-! ## Where claims are looked for -/

/-- Paths of documents. -/
def documentPatterns : List Regex :=
  [.ofSource "README" .anyCase,
   .ofSource "\\.md$" .plain,
   .ofSource "(^|/)docs?/" .anyCase,
   .ofSource "\\.rst$" .plain,
   .ofSource "CHANGELOG" .anyCase]

def mayClaim (relative : String) : Bool :=
  (Language.ofPath? relative).isSome || documentPatterns.any (·.occursIn relative.toList)

/-- The deepest level below the root that is entered for claims, and the most files. -/
def sourceDepth : Int := 5

def sourceLimit : Int := 500

/-- Documents and source files of a repository, down to a depth and up to a number of files. -/
def sourcesWithin (t : Tree) (root : Path) (maxFiles maxDepth : Int) : List String :=
  Repository.Walk.run ⟨fun relative _ => mayClaim relative, (maxDepth + 1).toNat, maxFiles⟩ t root

def sources (t : Tree) (root : Path) : List String := sourcesWithin t root sourceLimit sourceDepth

def ofTree (t : Tree) (root : Path) (categories : Categories) : List Claim :=
  (sources t root).flatMap fun file =>
    match t.text? (root.below file) with
    | some content => ofContent content file categories
    | none => []

/-! ## Gaps -/

/-- A positive claim with less evidence than is required. -/
structure Gap where
  claim : Claim
  evidence : Evidence
  required : Quantity

namespace Gap

def severity (g : Gap) : Severity := if g.evidence.total = 0 then .high else .medium

def value (g : Gap) : String :=
  "Claim \"" ++ g.claim.word ++ "\" without sufficient evidence (found "
    ++ Decimal.natText g.evidence.total ++ "/" ++ g.required.text ++ " required)"

def toViolation (g : Gap) : Violation :=
  { type := "buzzword_inflation"
    value := g.value
    threshold := g.required.text ++ " evidence matches"
    severity := g.severity
    details := [("buzzword", .str g.claim.word), ("category", .str g.claim.category),
      ("claim", .str g.claim.text), ("evidence_found", Json.strings g.evidence.found),
      ("evidence_count", .nat g.evidence.total), ("evidence_required", Json.ofQuantity g.required)]
    file := some g.claim.file
    line := some g.claim.line }

end Gap

/-- Evidence that was searched for already, by category. -/
abbrev Searched := List (String × Evidence)

/-- The evidence for a category, searched for when it was not yet. -/
def evidenceFor (find : String → Evidence) (seen : Searched) (category : String) : Evidence × Searched :=
  match seen.lookup category with
  | some e => (e, seen)
  | none =>
    let e := find category
    (e, (category, e) :: seen)

/-- The gaps among claims, in their order; each category is searched for once. -/
def gapsFrom (find : String → Evidence) (required : Quantity) (seen : Searched) : List Claim → List Gap
  | [] => []
  | c :: rest =>
    if c.isPositive then
      let (e, seen) := evidenceFor find seen c.category
      if required.reachedBy e.total then gapsFrom find required seen rest
      else ⟨c, e, required⟩ :: gapsFrom find required seen rest
    else gapsFrom find required seen rest

/-- The claims of a repository and the gaps among them. -/
structure Audit where
  claims : List Claim
  gaps : List Gap

/-- How many pieces of evidence a category needs, unless told otherwise. -/
def defaultRequired : Quantity := .whole 2

/-- An empty table of categories or of evidence stands for the usual one. -/
def Audit.ofTree (t : Tree) (root : Path) (categories : Categories) (table : EvidenceTable)
    (required : Quantity) : Audit :=
  let table := if table.isEmpty then defaultEvidence else table
  let claims := Claim.ofTree t root categories
  let files := Repository.sourceFiles t root true Repository.defaultMaxFiles Repository.defaultDepth
  ⟨claims, gapsFrom (fun category => evidenceIn t root category table files) required [] claims⟩

/-- Opens a repository for its claims and their evidence. -/
def audit (t : Tree) (root : Path) (categories : Categories) (table : EvidenceTable) (required : Quantity) :
    Except Repository.Fault Audit :=
  Repository.opening [root] (.ofTree t root categories table required)

end CodeHygiene.Claim
