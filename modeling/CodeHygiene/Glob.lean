import CodeHygiene.Text.Find

/-!
Globs. A star, or a run of them, stands for any text without a line feed, slashes included; every
other character stands for itself. A glob covers a whole subject, save for one line feed at its end.
A glob with more than ten stars covers nothing.
-/

namespace CodeHygiene

/-- The literal pieces between the runs of stars; one piece more than there are runs. -/
structure Glob where
  text : String
  pieces : List (List Char)
  deriving DecidableEq, Repr

namespace Glob

/-- The most stars a glob may have. -/
def starLimit : Nat := 10

/-- Cuts at every run of stars; `afterStar` says that the character before was one. -/
def piecesFrom (afterStar : Bool) : List Char → List (List Char)
  | [] => [[]]
  | c :: rest =>
    if c = '*' then
      if afterStar then piecesFrom true rest else [] :: piecesFrom true rest
    else match piecesFrom false rest with
      | [] => [[c]]
      | piece :: more => (c :: piece) :: more

def ofText (text : String) : Glob := ⟨text, piecesFrom false text.toList⟩

def isTooWild (g : Glob) : Bool := starLimit < g.text.toList.count '*'

/-- The end of a subject: nothing, or one line feed. -/
def atEnd (rest : List Char) : Bool := rest = [] || rest = ['\n']

/-- Whether a text without a line feed, and then the pieces with such a text between neighbours,
reach the end. `fits` is asked about what follows each number of characters passed over. -/
def afterWild (fits : List Char → Bool) : List Char → Bool
  | [] => fits []
  | c :: rest => fits (c :: rest) || (c != '\n' && afterWild fits rest)

def covers : List (List Char) → List Char → Bool
  | [], _ => false
  | [piece], subject =>
    match Text.after? piece subject with
    | some rest => atEnd rest
    | none => false
  | piece :: more, subject =>
    match Text.after? piece subject with
    | some rest => afterWild (covers more) rest
    | none => false

/-- Whether a glob stands for a whole subject. -/
def accepts (g : Glob) (subject : List Char) : Bool := !g.isTooWild && covers g.pieces subject

/-! ## The pattern a glob is shown as -/

/-- Characters that would mean something else in a pattern. -/
def special : List Char := ".+?^$\x7b\x7d()|[]\\".toList

def escapeChar (c : Char) : List Char := if special.contains c then ['\\', c] else [c]

/-- A glob that covers nothing is shown as a look-ahead that always fails. -/
def pattern (g : Glob) : String :=
  if g.isTooWild then "(?!)"
  else "^" ++ ".*".intercalate (g.pieces.map fun piece => String.ofList (piece.flatMap escapeChar)) ++ "$"

theorem piecesFrom_ne_nil (afterStar : Bool) (text : List Char) : piecesFrom afterStar text ≠ [] := by
  induction text generalizing afterStar with
  | nil => simp [piecesFrom]
  | cons c rest ih =>
    rw [piecesFrom]
    split
    · split
      · exact ih true
      · simp
    · split <;> simp

end Glob

end CodeHygiene
