import CodeHygiene.Measure.Documentation

/-!
Functions that do nothing yet: a body with exactly one line that is neither blank nor a comment, and
that line only gives back a placeholder or says that nothing is implemented.
-/

namespace CodeHygiene.Measure

/-- A stub: the line it is reported at, its name, what it gives back, and whether a marker says that
work is left. -/
structure Stub where
  line : Nat
  name : String
  returned : String
  isMarked : Bool
  deriving DecidableEq, Repr

namespace Stub

/-- A word that says that work is left. -/
def workLeft : Regex := .ofSource "\\b(TODO|FIXME|XXX|HACK|STUB)\\b" .anyCase

/-- What a line that only holds a placeholder looks like, and what such a line is said to return: a
label, or what the pattern's first group matched. -/
structure Placeholder where
  pattern : Regex
  label : Option String

/-- What a line returns, if it is a placeholder. -/
def Placeholder.returned? (p : Placeholder) (line : Line) : Option String :=
  (p.pattern.atStart? line).map fun h =>
    p.label.getD (String.ofList ((h.groupText? line 1).getD []))

/-! ## Brace languages -/

/-- How functions are declared, up to the brace that opens the body; the first group is the name. -/
def declarations : Language → List Regex
  | .javascript =>
    [.ofSource "(?:async\\s+)?function\\s+(\\w+)\\s*\\([^)]*\\)\\s*\\\x7b" .plain,
     .ofSource "(?:const|let|var)\\s+(\\w+)\\s*=\\s*(?:async\\s*)?\\([^)]*\\)\\s*=>\\s*\\\x7b" .plain,
     .ofSource ("(?:const|let|var)\\s+(\\w+)\\s*=\\s*(?:async\\s+)?" ++
       "function\\s*\\([^)]*\\)\\s*\\\x7b") .plain,
     .ofSource ("^[ \\t]*(?:async\\s+)?(?!if\\b|for\\b|while\\b|switch\\b|catch\\b|with\\b|function\\b)" ++
       "(\\w+)\\s*\\([^)]*\\)\\s*\\\x7b") .byLine]
  | .rust =>
    [.ofSource ("(?:pub(?:\\([^)]*\\))?\\s+)?(?:async\\s+)?fn\\s+(\\w+)\\s*(?:<[^>]*>)?\\s*\\([^)]*\\)" ++
       "(?:\\s*->\\s*[^\x7b]+)?\\s*\\\x7b") .plain]
  | .java =>
    [.ofSource ("(?:public|private|protected)?\\s*(?:static\\s+)?(?:final\\s+)?" ++
       "(?:\\w+(?:<[^>]*>)?)\\s+(\\w+)\\s*\\([^)]*\\)\\s*(?:throws\\s+[^\x7b]+)?\\s*\\\x7b") .plain]
  | .go =>
    [.ofSource ("func\\s+(?:\\([^)]+\\)\\s+)?(\\w+)\\s*\\([^)]*\\)" ++
       "(?:\\s*(?:\\([^)]+\\)|[^\x7b\\n]+))?\\s*\\\x7b") .plain]
  | .python => []

def placeholders : Language → List Placeholder
  | .javascript =>
    [⟨.ofSource ("^\\s*return\\s+(0|null|undefined|true|false|\\[\\]|\\\x7b\\\x7d|\\\"\\\"|''|``)" ++
       "\\s*;?\\s*$") .plain, none⟩]
  | .rust =>
    [⟨.ofSource ("^\\s*(?:return\\s+)?(None|0|true|false|String::new\\(\\)|Vec::new\\(\\)|vec!\\[\\]" ++
       "|\\(\\)|\\\"\\\"|Default::default\\(\\))\\s*;?\\s*$") .plain, none⟩,
     ⟨.ofSource "^\\s*(todo!\\(\\)|unimplemented!\\(\\)|panic!\\([^)]*\\))\\s*;?\\s*$" .plain, none⟩]
  | .java =>
    [⟨.ofSource ("^\\s*return\\s+(null|0|0L|0\\.0|0\\.0f|true|false|\\\"\\\"|Collections\\.emptyList\\(\\)" ++
       "|Collections\\.emptyMap\\(\\)|Optional\\.empty\\(\\))\\s*;\\s*$") .plain, none⟩,
     ⟨.ofSource ("^\\s*throw\\s+new\\s+(?:Unsupported(?:Operation)?Exception|NotImplementedException" ++
       "|IllegalStateException)\\s*\\([^)]*\\)\\s*;\\s*$") .plain, some "throw stub"⟩]
  | .go =>
    [⟨.ofSource ("^\\s*return\\s+(nil|0|\\\"\\\"|false|true|\\[\\][a-zA-Z_]\\w*\\\x7b\\\x7d" ++
       "|map\\[[^\\]]+\\][a-zA-Z_]\\w*\\\x7b\\\x7d|&?[A-Z]\\w*\\\x7b\\\x7d)\\s*$") .plain, none⟩,
     ⟨.ofSource "^\\s*panic\\s*\\([^)]*\\)\\s*$" .plain, some "panic"⟩]
  | .python => []

/-- Words that a declaration is never named by. -/
def notNames : List String := ["if", "for", "while", "switch", "catch", "with", "return"]

/-- How a line of comment begins. -/
def commentStart : Regex := .ofSource "^\\s*(?://|/\\*|\\*)" .plain

/-- The lines of a body that are neither blank nor begin as comments, trimmed. -/
def significant (body : List Char) : List Line :=
  ((Text.lines body).filter fun line =>
    !Text.isBlankLine line && (commentStart.atStart? line).isNone).map Text.trim

/-- The stub whose declaration matched, if it is one; its body opens at the end of the match. -/
def stubAt? (l : Language) (content : List Char) (h : Regex.Hit) : Option Stub := do
  let opening := h.stop - 1
  let name := String.ofList ((h.groupText? content 1).getD [])
  if notNames.contains name then none
  else
    let closing ← closing? content opening
    let body := between content opening closing
    match significant body with
    | [line] =>
      let returned ← (placeholders l).findSome? (·.returned? line)
      return { line := Text.lineAt content opening, name, returned, isMarked := workLeft.occursIn body }
    | _ => none

/-- A stub is known by the offset of its brace; the first declaration that finds it names it. -/
def addAt (found : List (Nat × Stub)) (opening : Nat) (s : Stub) : List (Nat × Stub) :=
  if found.any (·.1 == opening) then found else found ++ [(opening, s)]

/-- Stubs in the order of their braces. -/
def braceStubs (l : Language) (content : List Char) : List Stub :=
  let hits := (declarations l).flatMap (·.all content)
  let found := hits.foldl (fun found h =>
    match stubAt? l content h with
    | some s => addAt found (h.stop - 1) s
    | none => found) []
  (found.mergeSort fun a b => a.1 ≤ b.1).map (·.2)

/-! ## Indented bodies -/

def pythonPlaceholders : List Placeholder :=
  [⟨.ofSource "^\\s*return\\s+(None|0|True|False|\\[\\]|\\\x7b\\\x7d|\\\"\\\")\\s*$" .plain, none⟩]

/-- Lines that are placeholders as a whole. -/
def wholeLinePatterns : List Regex :=
  [.ofSource "^\\s*pass\\s*$" .plain,
   .ofSource "^\\s*raise\\s+NotImplementedError(?:\\s*\\([^)]*\\))?\\s*$" .plain,
   .ofSource "^\\s*\\.\\.\\.\\s*$" .plain]

/-- What the only line of an indented body returns, if it is a placeholder. -/
def indentedReturned? (line : Line) : Option String :=
  (pythonPlaceholders.findSome? (·.returned? line)).orElse fun _ =>
    if wholeLinePatterns.any fun r => (r.atStart? line).isSome then some (String.ofList line) else none

/-- The lines of an indented body, trimmed, without blanks, comments and docstrings; `quote` is that
of a docstring that is open. Inside a docstring the indentation does not matter. -/
def indentedBody (indent : Nat) (quote : Option (List Char)) : List Line → List Line
  | [] => []
  | raw :: rest =>
    let line := Text.trim raw
    if line.isEmpty then indentedBody indent quote rest
    else match quote with
      | some q => indentedBody indent (if Text.holds q line then none else some q) rest
      | none =>
        if Text.indentation raw ≤ indent then []
        else if line.head? = some '#' then indentedBody indent none rest
        else match Documentation.tripleQuotes.find? fun q => Text.startsWith q line with
          | some q =>
            indentedBody indent (if Text.holds q (line.drop q.length) then none else some q) rest
          | none => line :: indentedBody indent none rest

/-- How many lines, from the declaration on, may say that work is left. -/
def markerReach : Nat := 10

/-- The stub that a line declares, with what stands for its value. -/
def stubOn? (number : Nat) (line : Line) (rest : List Line) : Option (Stub × String) := do
  let h ← Documentation.defPattern.atStart? line
  let indent ← h.groupText? line 1
  let name ← h.groupText? line 2
  match indentedBody indent.length none rest with
  | [only] =>
    let returned ← indentedReturned? only
    let window := Text.unlines ((line :: rest).take markerReach)
    return ({ line := number, name := String.ofList name, returned,
              isMarked := workLeft.occursIn window }, String.ofList only)
  | _ => none

def indentedStubs (number : Nat) : List Line → List (Stub × String)
  | [] => []
  | line :: rest => (stubOn? number line rest).toList ++ indentedStubs (number + 1) rest

/-! ## Violations -/

def toViolation (s : Stub) (value : String) : Violation :=
  { type := "stub_function"
    value
    threshold := "1 significant line"
    severity := if s.isMarked then .high else .medium
    details := [("function_name", .str s.name), ("return_value", .str s.returned),
      ("has_todo", .bool s.isMarked)]
    line := some s.line }

/-- The stubs of a text in the order of their lines. An unknown language has none. -/
def violations (content : List Char) (tag : String) : List Violation :=
  match Language.ofTag? tag with
  | none => []
  | some .python =>
    (indentedStubs 1 (Text.lines content)).map fun (s, only) =>
      s.toViolation ("def " ++ s.name ++ "(): " ++ only)
  | some l =>
    (braceStubs l content).map fun s => s.toViolation (s.name ++ "() returns " ++ s.returned)

end Stub

end CodeHygiene.Measure
