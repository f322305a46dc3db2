import CodeHygiene.Measure.Body

/-!
String literals that are repeated. Literals stand on one line, between double or single quotes; a
backslash takes the next character with it. Both quotes write the same literal.
-/

namespace CodeHygiene.Measure.Literal

def pattern : Regex := .ofSource "\\\"((?:[^\\\"\\\\\\n]|\\\\.)*)\\\"|'((?:[^'\\\\\\n]|\\\\.)*)'" .plain

/-- The literals of a text from left to right, with their offsets. -/
def literals (content : List Char) : List (Nat × List Char) :=
  (pattern.all content).map fun h =>
    (h.start, ((h.groupText? content 1).orElse fun _ => h.groupText? content 2).getD [])

/-- A literal, where it first stands, and how often it occurs. -/
structure Repeated where
  literal : List Char
  offset : Nat
  count : Nat
  deriving DecidableEq, Repr

/-- Counts a literal that was seen before, or begins to. -/
def count (seen : List Repeated) (offset : Nat) (literal : List Char) : List Repeated :=
  if seen.any (·.literal == literal) then
    seen.map fun r => if r.literal == literal then { r with count := r.count + 1 } else r
  else seen ++ [⟨literal, offset, 1⟩]

/-- The literals of at least a length that are not blank, in the order in which they first occur. -/
def counted (content : List Char) (minLength : Int) : List Repeated :=
  let counting := (literals content).filter fun (_, s) =>
    minLength ≤ s.length && !Text.isBlankLine s
  counting.foldl (fun seen (offset, s) => count seen offset s) []

/-- Unless told otherwise, a literal of four characters and more may occur five times. -/
def defaultMost : Quantity := .whole 5

def defaultMinLength : Int := 4

/-- One violation for each literal that occurs more than `most` times. -/
def violations (content : List Char) (most : Quantity) (minLength : Int) : List Violation :=
  ((counted content minLength).filter fun r => most.exceededByCount r.count).map fun r =>
    { type := "duplicate_strings"
      value := "\"" ++ String.ofList r.literal ++ "\" appears " ++ Decimal.natText r.count ++ " times"
      threshold := most.text ++ " occurrences"
      severity := .low
      details := [("literal", .str (String.ofList r.literal)), ("occurrences", .nat r.count)]
      line := some (Text.lineAt content r.offset) }

end CodeHygiene.Measure.Literal
