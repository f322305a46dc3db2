import CodeHygiene.Text.Blank
import CodeHygiene.Text.Find
import CodeHygiene.Text.Lines

/-!
Lines of code of a file: lines that keep something when blanks and comments are taken away. A line
that begins with the mark of a comment or of a docstring is none, whatever the language.
-/

namespace CodeHygiene.Repository

/-- Marks that make a whole line a comment. -/
def lineMarks : List (List Char) :=
  ["//".toList, "#".toList, "///".toList, "\"\"\"".toList, "'''".toList]

def blockOpen : List Char := "/*".toList

def blockClose : List Char := "*/".toList

/-- What stands before the first occurrence of a piece, and what after it. -/
def cutAt? (piece line : List Char) : Option (List Char × List Char) :=
  (Text.find? piece line).map fun n => (line.take n, line.drop (n + piece.length))

/-- What is left of a line that begins outside a block once its first block is taken out, and whether
that block goes on. -/
def withoutBlock (line : List Char) : List Char × Bool :=
  match cutAt? blockOpen line with
  | none => (line, false)
  | some (before, after) =>
    match cutAt? blockClose after with
    | some (_, rest) => (Text.trim (Text.trim before ++ ' ' :: Text.trim rest), false)
    | none => (Text.trim before, true)

/-- What is left of a trimmed line of code, and whether a block is open after it. -/
def codeOf (inBlock : Bool) (line : List Char) : List Char × Bool :=
  if inBlock then
    match cutAt? blockClose line with
    | none => ([], true)
    | some (_, rest) => withoutBlock (Text.trim rest)
  else withoutBlock line

def countCodeFrom (inBlock : Bool) : List (List Char) → Nat
  | [] => 0
  | raw :: rest =>
    let line := Text.trim raw
    if line.isEmpty then countCodeFrom inBlock rest
    else
      let (code, open_) := codeOf inBlock line
      let here := if code.isEmpty || lineMarks.any fun m => Text.startsWith m code then 0 else 1
      here + countCodeFrom open_ rest

def countCodeLines (content : List Char) : Nat := countCodeFrom false (Text.lines content)

end CodeHygiene.Repository
