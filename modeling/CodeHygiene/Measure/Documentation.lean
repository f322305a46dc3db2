import CodeHygiene.Measure.Body

/-!
How much a function is documented for its size. In a brace language the documentation is the comment
before the declaration, and the body stands between the first brace after it and the one that closes
it; in an indented one it is the docstring, and the body follows it. `functions` measures every
documented function; thresholds only choose among them (`violations`).
-/

namespace CodeHygiene.Measure.Documentation

/-- A documented function: where it is declared, its name, and the two counts of lines. -/
structure Documented where
  line : Nat
  name : String
  docLines : Nat
  codeLines : Nat
  deriving DecidableEq, Repr

/-! ## Brace languages -/

/-- A documentation comment and the declaration after it: the groups `doc`, `decl`, and `name` or
`alt`. -/
def javascriptPattern : Regex :=
  .ofSource ("/\\*\\*(?P<doc>[\\s\\S]*?)\\*/\\s*" ++
    "(?P<decl>(?:export\\s+)?(?:async\\s+)?" ++
    "(?:function\\s+(?P<name>\\w+)\\s*\\([^)]*\\)" ++
    "|(?:const|let|var)\\s+(?P<alt>\\w+)\\s*=\\s*(?:async\\s*)?\\([^)]*\\)\\s*=>))") .plain

def javaPattern : Regex :=
  .ofSource ("/\\*\\*(?P<doc>[\\s\\S]*?)\\*/\\s*" ++
    "(?P<decl>(?:@\\w+\\s*)*(?:public|private|protected)?\\s*(?:static\\s+)?" ++
    "(?:final\\s+)?(?:\\w+(?:<[^>]*>)?)\\s+(?P<name>\\w+)\\s*\\([^)]*\\))") .plain

def rustPattern : Regex :=
  .ofSource ("(?P<doc>(?:^[ \\t]*//[/!].*\\n)+)[ \\t]*" ++
    "(?P<decl>(?:pub(?:\\([^)]*\\))?\\s+)?(?:async\\s+)?fn\\s+(?P<name>\\w+))") .byLine

def goPattern : Regex :=
  .ofSource ("(?P<doc>(?:^[ \\t]*//.*\\n)+)[ \\t]*" ++
    "(?P<decl>func\\s+(?:\\([^)]+\\)\\s+)?(?P<name>\\w+))") .byLine

def pattern? : Language → Option Regex
  | .javascript => some javascriptPattern
  | .java => some javaPattern
  | .rust => some rustPattern
  | .go => some goPattern
  | .python => none

/-- What marks a line of a comment. -/
def marker : Regex := .ofSource "^\\s*(?://[/!]?|\\*)" .plain

/-- A line of a comment without its marker. -/
def dropMarker (line : Line) : Line :=
  match marker.atStart? line with
  | some h => line.drop h.stop
  | none => line

/-- Lines that say something besides their marker. -/
def countDocLines (doc : List Char) : Nat :=
  (Text.lines doc).countP fun line => !Text.isBlankLine (dropMarker line)

/-- The braces of the body that follows an offset. Only a signature may stand before it, so a
semicolon there means that there is none. -/
def bodyAfter? (content : List Char) (offset : Nat) : Option (Nat × Nat) := do
  let gap ← Text.find? ['\x7b'] (content.drop offset)
  if ((content.drop offset).take gap).contains ';' then none
  else
    let closing ← closing? content (offset + gap)
    return (offset + gap, closing)

/-- The text of a named group. -/
def groupText? (r : Regex) (content : List Char) (h : Regex.Hit) (name : String) : Option (List Char) :=
  (r.named? name).bind (h.groupText? content)

def documentedAt? (r : Regex) (content : List Char) (h : Regex.Hit) : Option Documented := do
  let (opening, closing) ← bodyAfter? content h.stop
  let doc := (groupText? r content h "doc").getD []
  let name := (groupText? r content h "name").orElse fun _ => groupText? r content h "alt"
  let decl := ((r.named? "decl").bind h.group?).map (·.start)
  return {
    line := Text.lineAt content (decl.getD h.start)
    name := String.ofList (name.getD "unknown".toList)
    docLines := countDocLines doc
    codeLines := Text.countNonBlank (between content opening closing) }

def braceFunctions (r : Regex) (content : List Char) : List Documented :=
  ((r.all content).filterMap (documentedAt? r content)).mergeSort fun a b => a.line ≤ b.line

/-! ## Indented bodies -/

/-- A declaration on one line: its indentation and its name. -/
def defPattern : Regex :=
  .ofSource "^(\\s*)(?:async\\s+)?def\\s+(\\w+)\\s*\\([^)]*\\)\\s*(?:->.*)?:\\s*$" .plain

def tripleQuotes : List (List Char) := ["\"\"\"".toList, "'''".toList]

/-- The number of lines of a docstring that has begun, up to the line that holds its closing quote or
to the end, and what follows it. Blank lines do not count. -/
def docstringRest (quote : List Char) : List Line → Nat × List Line
  | [] => (0, [])
  | line :: rest =>
    let here := if Text.isBlankLine line then 0 else 1
    if Text.holds quote line then (here, rest)
    else
      let (n, after) := docstringRest quote rest
      (here + n, after)

/-- The docstring that the lines begin with, by its number of lines, and the lines after it. -/
def docstring : List Line → Nat × List Line
  | [] => (0, [])
  | line :: rest =>
    let first := Text.trim line
    match tripleQuotes.find? fun q => Text.startsWith q first with
    | none => (0, line :: rest)
    | some quote =>
      if 6 ≤ first.length && Text.endsWith quote first then (1, rest)
      else
        let (n, after) := docstringRest quote rest
        (n + 1, after)

/-- Lines of code of a body: those that are neither blank nor a comment. -/
def countCode (indent : Nat) (body : List Line) : Nat :=
  (body.takeWhile (isInside indent)).countP fun line =>
    !Text.isBlankLine line && (Text.trim line).head? ≠ some '#'

/-- The function that a line declares, when a docstring follows it. -/
def documentedOn? (number : Nat) (line : Line) (rest : List Line) : Option Documented := do
  let h ← defPattern.atStart? line
  let indent ← h.groupText? line 1
  let name ← h.groupText? line 2
  let (docLines, body) := docstring rest
  if docLines = 0 then none
  else
    return {
      line := number
      name := String.ofList name
      docLines
      codeLines := countCode indent.length body }

def indentedFunctions (number : Nat) : List Line → List Documented
  | [] => []
  | line :: rest => (documentedOn? number line rest).toList ++ indentedFunctions (number + 1) rest

/-! ## Violations -/

/-- Every documented function of a text. -/
def functions (l : Language) (content : List Char) : List Documented :=
  match pattern? l with
  | some r => braceFunctions r content
  | none => indentedFunctions 1 (Text.lines content)

def toViolation (limit : Quantity) (d : Documented) : Violation :=
  { type := "doc_code_ratio"
    value := ratioSentence d.docLines "doc" d.codeLines
    threshold := limit.text ++ "x"
    severity := .medium
    details := [("doc_lines", .nat d.docLines), ("code_lines", .nat d.codeLines),
      ("ratio", .real (shownRatio d.docLines d.codeLines)), ("function_name", .str d.name)]
    line := some d.line }

/-- Unless told otherwise, bodies of three lines and more count, and three lines of documentation for
each line of code are allowed. -/
def defaultLeast : Int := 3

def defaultLimit : Quantity := .real 3.0

/-- Functions with at least `least` lines of code that have more than `limit` times as many lines of
documentation. An unknown language has none. -/
def violations (content : List Char) (least : Int) (limit : Quantity) (tag : String) :
    Except Fault (List Violation) :=
  match Language.ofTag? tag with
  | none => .ok []
  | some l => do
    let chosen ← select Documented.docLines Documented.codeLines least limit (functions l content)
    return chosen.map (toViolation limit)

end CodeHygiene.Measure.Documentation
