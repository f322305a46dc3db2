import CodeHygiene.Measure.Body

/-!
How much a function is commented for its size: the comment lines and the code lines of its body.
A function inside a body that was measured is part of that body and is not measured itself.
-/

namespace CodeHygiene.Measure.Commentary

/-- The two counts of a body. -/
structure Counts where
  comment : Nat
  code : Nat
  deriving DecidableEq, Repr

/-- Lines are comment or code by how they begin; a block of comment goes on to the line that holds its
end. Blank lines are neither. -/
def classifyFrom (marks : CommentMarks) (inBlock : Bool) : List Line → Counts
  | [] => ⟨0, 0⟩
  | raw :: rest =>
    let line := Text.trim raw
    if line.isEmpty then classifyFrom marks inBlock rest
    else if inBlock then
      let c := classifyFrom marks (!Text.holds marks.blockEnd line) rest
      { c with comment := c.comment + 1 }
    else
      match Text.after? marks.blockStart line with
      | some opened =>
        let c := classifyFrom marks (!Text.holds marks.blockEnd opened) rest
        { c with comment := c.comment + 1 }
      | none =>
        let c := classifyFrom marks false rest
        if Text.startsWith marks.line line then { c with comment := c.comment + 1 }
        else { c with code := c.code + 1 }

def classify (marks : CommentMarks) (body : List Char) : Counts :=
  classifyFrom marks false (Text.lines body)

/-- A measured body: the line of its function, the part of the text that it takes (offsets in a brace
language, line numbers in an indented one; the end is left out), and its counts. -/
structure Commented where
  line : Nat
  start : Nat
  stop : Nat
  counts : Counts
  deriving DecidableEq, Repr

/-! ## Brace languages -/

def javascriptPattern : Regex :=
  .ofSource ("(?:export\\s+)?(?:async\\s+)?" ++
    "(?:function\\s+\\w+\\s*\\([^)]*\\)" ++
    "|(?:const|let|var)\\s+\\w+\\s*=\\s*(?:async\\s*)?\\([^)]*\\)\\s*=>" ++
    "|(?:const|let|var)\\s+\\w+\\s*=\\s*(?:async\\s+)?function\\s*\\([^)]*\\))") .plain

def javaPattern : Regex :=
  .ofSource ("(?:(?:public|private|protected|static|final|synchronized|abstract)\\s+)*" ++
    "[\\w<>\\[\\],.]+\\s+(?P<name>\\w+)\\s*\\([^)]*\\)" ++
    "(?:\\s*throws\\s+[\\w.]+(?:\\s*,\\s*[\\w.]+)*)?") .plain

def rustPattern : Regex :=
  .ofSource ("(?:pub(?:\\([^)]*\\))?\\s+)?(?:async\\s+)?(?:unsafe\\s+)?fn\\s+\\w+" ++
    "\\s*(?:<[^>]*>)?\\s*\\([^)]*\\)[^\x7b;]*") .plain

def goPattern : Regex :=
  .ofSource "func\\s+(?:\\([^)]+\\)\\s+)?\\w+\\s*\\([^)]*\\)[^\x7b\\n]*" .plain

def pattern? : Language → Option Regex
  | .javascript => some javascriptPattern
  | .java => some javaPattern
  | .rust => some rustPattern
  | .go => some goPattern
  | .python => none

/-- Words that a declaration of a method neither is named by nor begins with. -/
def javaKeywords : List String :=
  ["if", "for", "while", "switch", "catch", "else", "return", "new", "synchronized"]

/-- The first word of a text. -/
def firstWord (text : List Char) : List Char :=
  (Text.trimLeft text).takeWhile fun c => !Text.isBlank c

/-- Whether what looks like a declaration is one. -/
def isDeclaration (l : Language) (r : Regex) (content : List Char) (h : Regex.Hit) : Bool :=
  match l with
  | .java =>
    let name := ((r.named? "name").bind (h.groupText? content)).getD []
    !javaKeywords.contains (String.ofList name) &&
      !javaKeywords.contains (String.ofList (firstWord (h.text content)))
  | _ => true

/-- How far past a signature the opening brace may stand. -/
def braceReach : Nat := 200

/-- The brace that follows an offset after nothing but blanks. -/
def braceAfter? (content : List Char) (offset : Nat) : Option Nat :=
  let after := (content.drop offset).take braceReach
  let gap := Text.indentation after
  if (after.drop gap).head? = some '\x7b' then some (offset + gap) else none

/-- Bodies in the order of their functions; `resume` is where the last measured one ended. -/
def braceBodiesFrom (l : Language) (r : Regex) (content : List Char) (resume : Nat) :
    List Regex.Hit → List Commented
  | [] => []
  | h :: rest =>
    if h.start < resume || !isDeclaration l r content h then
      braceBodiesFrom l r content resume rest
    else
      match braceAfter? content h.stop with
      | none => braceBodiesFrom l r content resume rest
      | some opening =>
        match closing? content opening with
        | none => braceBodiesFrom l r content resume rest
        | some closing =>
          { line := Text.lineAt content h.start
            start := opening + 1
            stop := closing
            counts := classify l.marks (between content opening closing) }
          :: braceBodiesFrom l r content closing rest

/-! ## Indented bodies -/

/-- The start of a declaration: its indentation. -/
def defPattern : Regex := .ofSource "^(\\s*)(?:async\\s+)?def\\s+\\w+\\s*\\(" .plain

/-- The end of a signature, with or without a comment. -/
def signatureEnd : Regex := .ofSource ":\\s*(?:#.*)?$" .plain

/-- A function whose body stands on the line of its declaration. -/
def oneLiner : Regex := .ofSource "\\)\\s*(?:->[^:]*)?:\\s*[^\\s#]" .plain

/-- The most lines a signature may take. -/
def signatureReach : Nat := 20

/-- The lines of a signature before the one that ends it, when one does. -/
def signatureLines? (lines : List Line) : Option Nat :=
  (lines.take signatureReach).findIdx? signatureEnd.occursIn

/-- The indentation of a function whose body stands on lines of its own, and the number of lines of
its signature before the one that ends it. -/
def header? (line : Line) (rest : List Line) : Option (Nat × Nat) := do
  let h ← defPattern.atStart? line
  let indent ← h.groupText? line 1
  if oneLiner.occursIn line then none
  else
    let signature ← signatureLines? (line :: rest)
    return (indent.length, signature)

/-- Bodies from a line number on; the first `covered` lines belong to a body already measured. -/
def indentedBodiesFrom (number covered : Nat) : List Line → List Commented
  | [] => []
  | line :: rest =>
    match covered with
    | more + 1 => indentedBodiesFrom (number + 1) more rest
    | 0 =>
      match header? line rest with
      | none => indentedBodiesFrom (number + 1) 0 rest
      | some (indent, signature) =>
        let body := (rest.drop signature).takeWhile (isInside indent)
        let start := number + signature + 1
        { line := number
          start
          stop := start + body.length
          counts := classifyFrom Language.pythonMarks false body }
        :: indentedBodiesFrom (number + 1) (signature + body.length) rest

/-! ## Violations -/

/-- Every body that is measured. -/
def bodies (l : Language) (content : List Char) : List Commented :=
  match pattern? l with
  | some r => braceBodiesFrom l r content 0 (r.all content)
  | none => indentedBodiesFrom 1 0 (Text.lines content)

def toViolation (limit : Quantity) (b : Commented) : Violation :=
  { type := "verbosity_ratio"
    value := ratioSentence b.counts.comment "comment" b.counts.code
    threshold := limit.text ++ "x"
    severity := .medium
    details := [("comment_lines", .nat b.counts.comment), ("code_lines", .nat b.counts.code),
      ("ratio", .real (shownRatio b.counts.comment b.counts.code))]
    line := some b.line }

/-- Unless told otherwise, bodies of three lines and more count, and two lines of comment for each
line of code are allowed. -/
def defaultLeast : Int := 3

def defaultLimit : Quantity := .real 2.0

/-- Functions with at least `least` lines of code that have more than `limit` times as many lines of
comment. An unknown language has none. -/
def violations (content : List Char) (least : Int) (limit : Quantity) (tag : String) :
    Except Fault (List Violation) :=
  match Language.ofTag? tag with
  | none => .ok []
  | some l => do
    let chosen ← select (·.counts.comment) (·.counts.code) least limit (bodies l content)
    return chosen.map (toViolation limit)

end CodeHygiene.Measure.Commentary
