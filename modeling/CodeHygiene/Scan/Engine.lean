import CodeHygiene.Report.Basic
import CodeHygiene.Rule.Catalog
import CodeHygiene.Rule.Registry
import CodeHygiene.Scan.Measured

/-!
The engine: a table of rules under settings, with the answers it keeps from one text to the next. It
keeps which rules a language selects and which files a rule leaves out; what it answers does not
depend on what it keeps.

A file is judged by the rules for its language that do not leave it out: first those with a pattern,
then, unless the scan is quick or the language is not known, those with an analyzer. A scan judges its
files in order and the repository last.
-/

namespace CodeHygiene

namespace Settings

/-- Whether a rule may report: it is not disabled, and its severity is asked for. -/
def selects (s : Settings) (rule : Rule) : Bool :=
  s.isEnabled rule.name && s.severities.all (·.contains rule.severity)

/-- Whether files of a language are asked for; where languages are named, a file must have one. -/
def admitsLanguage (s : Settings) (language : Option Language) : Bool :=
  s.languages.all fun tags => language.any fun l => tags.contains l.tag

end Settings

/-- The built-in table. -/
def Registry.builtIn : Registry := .indexed Catalog.rules

structure Engine where
  settings : Settings
  registry : Registry
  matcher : Exclusion.Matcher
  /-- The rules that were selected already, by language. -/
  selected : List (String × List Rule) := []

namespace Engine

open Repository (Tree Path)

/-- An engine that has answered nothing yet. A table without rules stands for the built-in one. -/
def start (registry : Registry) (settings : Settings) : Engine :=
  { settings
    registry := if registry.rules.isEmpty then .builtIn else registry
    matcher := .empty settings.caches.patterns.val.toNat settings.caches.results.val.toNat }

/-! ## Rules -/

/-- The tag to look rules up by: that for every language, when none is known. -/
def lookupTag (language : Option String) : String :=
  match language with
  | some l => if l = "" then universalTag else l
  | none => universalTag

/-- The rules that may report in files of a language, in the order of the table. -/
def select (e : Engine) (tag : String) : List Rule :=
  (e.registry.lookup { language := some tag }).filter e.settings.selects

def rulesFor (e : Engine) (language : Option String) : List Rule × Engine :=
  let tag := lookupTag language
  match e.selected.lookup tag with
  | some rules => (rules, e)
  | none =>
    let rules := e.select tag
    (rules, { e with selected := (tag, rules) :: e.selected })

/-! ## Files -/

/-- What the rules say about a text. -/
def judge (s : Settings) (rules : List Rule) (src : Scan.Source) (language : Option String) :
    Except Measure.Fault (List Finding) :=
  let found := Scan.ofPatterns rules src
  match language with
  | none => .ok found
  | some tag =>
    if s.isQuick then .ok found else return found ++ (← Scan.ofAnalyzers s src tag rules)

/-- The findings in a text that is reported under a path. The language is the one that is named, or
else that of the path. -/
def analyze (e : Engine) (content : List Char) (path : String) (language : Option String) :
    Except Measure.Fault (List Finding × Engine) := do
  let language := Language.tagFor language (some path)
  let (rules, e) := e.rulesFor language
  let (rules, matcher) := e.matcher.keep path (·.excludes) rules
  let found ← judge e.settings rules { path, content } language
  return (found, { e with matcher })

/-- Where a file is: below the root, if there is one. -/
def locate (root : Option Path) (file : String) : Path :=
  match root with
  | some root => root.below file
  | none => .ofText file

/-- The findings in a file; none when it is left out or cannot be read as text. -/
def analyzeFile (e : Engine) (t : Tree) (root : Option Path) (file : String) :
    Except Scan.Fault (Option (List Finding) × Engine) :=
  let language := Language.ofPath? file
  if !e.settings.admitsLanguage language then .ok (none, e)
  else match t.openText (locate root file) with
    | .error f => .error (.repository f)
    | .ok none => .ok (none, e)
    | .ok (some content) => do
      let (found, e) ←
        (e.analyze content (Exclusion.slashed file) (language.map Language.tag)).mapError .measure
      return (some found, e)

/-- The findings in each file, in order; none for those that are skipped. -/
def analyzeFiles (e : Engine) (t : Tree) (root : Option Path) :
    List String → Except Scan.Fault (List (Option (List Finding)) × Engine)
  | [] => .ok ([], e)
  | file :: rest => do
    let (here, e) ← e.analyzeFile t root file
    let (more, e) ← e.analyzeFiles t root rest
    return (here :: more, e)

/-! ## Repositories -/

/-- The rules that look at a repository as a whole. -/
def repositoryRules (e : Engine) : List Rule :=
  e.registry.structural.filter fun rule => rule.isProjectLevel && e.settings.selects rule

def judgeRepository (s : Settings) (t : Tree) (root : Path) :
    List Rule → Except Scan.Fault (List Finding × List Violation)
  | [] => .ok ([], [])
  | rule :: rest => do
    let (findings, violations) ← Scan.ofRepository s rule t root
    let (moreFindings, moreViolations) ← judgeRepository s t root rest
    return (findings ++ moreFindings, violations ++ moreViolations)

def analyzeRepository (e : Engine) (t : Tree) (root : Path) :
    Except Scan.Fault (List Finding × List Violation) :=
  judgeRepository e.settings t root e.repositoryRules

/-! ## Scans -/

/-- The files that are named, or else those that are found below the root. -/
def filesToScan (s : Settings) (t : Tree) (files : Option (List String)) (root : Option Path) :
    Except Repository.Fault (List String) :=
  match files, root with
  | some files, _ => .ok files
  | none, some root => Repository.discover t root s.maxFiles.val
  | none, none => .ok []

/-- What is said about the repository: nothing without a root or in a quick scan. -/
def repositoryPart (e : Engine) (t : Tree) (root : Option Path) :
    Except Scan.Fault (List Finding × List Violation) :=
  match root with
  | some root => if e.settings.isQuick then .ok ([], []) else e.analyzeRepository t root
  | none => .ok ([], [])

def scan (e : Engine) (t : Tree) (files : Option (List String)) (root : Option Path) :
    Except Scan.Fault (Report × Engine) := do
  let given ← (filesToScan e.settings t files root).mapError .repository
  let asked := given.filter fun file => e.settings.admitsLanguage (Language.ofPath? file)
  let (perFile, e) ← e.analyzeFiles t root asked
  let (findings, violations) ← e.repositoryPart t root
  let read := perFile.filterMap id
  return ({ findings := read.flatten ++ findings
            violations
            filesRequested := asked.length
            filesAnalyzed := read.length
            filesFiltered := given.length - asked.length }, e)

end Engine

end CodeHygiene
