import CodeHygiene.Text.Blank
import CodeHygiene.Text.Word
import CodeHygiene.Text.Case

/-!
Sets of characters as a regular expression names them. A set that ignores case is folded when it is
made: it holds lower-case letters and their variants, and is asked about the lower case of a
character (`CharSet.contains`).
-/

namespace CodeHygiene.Regex

/-- A class with a name of its own. -/
inductive CharClass where
  | blank
  | digit
  | word
  deriving DecidableEq, Repr

def CharClass.contains : CharClass → Char → Bool
  | .blank, c => Text.isBlank c
  | .digit, c => Text.isDigit c
  | .word, c => Text.isWord c

inductive CharItem where
  | one (c : Char)
  | range (low high : Char)
  | inClass (k : CharClass)
  | notInClass (k : CharClass)
  deriving DecidableEq, Repr

def CharItem.contains : CharItem → Char → Bool
  | .one x, c => c = x
  | .range low high, c => low ≤ c && c ≤ high
  | .inClass k, c => k.contains c
  | .notInClass k, c => !k.contains c

structure CharSet where
  items : List CharItem
  negated : Bool := false
  ignoresCase : Bool := false
  deriving DecidableEq, Repr

namespace CharSet

def contains (s : CharSet) (c : Char) : Bool :=
  let c := if s.ignoresCase then Text.lowerChar c else c
  s.items.any (·.contains c) != s.negated

def one (c : Char) : CharSet := { items := [.one c] }

def ofClass (k : CharClass) : CharSet := { items := [.inClass k] }

/-- Everything but a line feed. -/
def notLineFeed : CharSet := { items := [.one '\n'], negated := true }

/-- Every letter that is the same as a given one when case is ignored, in lower case. -/
def sameLetters (c : Char) : List CharItem :=
  let low := Text.lowerChar c
  .one low :: (Text.variants low).map .one

/-- A range is folded letter by letter. -/
def foldItem : CharItem → List CharItem
  | .one c => sameLetters c
  | .range low high =>
    ((List.range (high.toNat + 1 - low.toNat)).flatMap fun i =>
      sameLetters (Char.ofNat (low.toNat + i))).eraseDups
  | item => [item]

/-- The same set, with case ignored. -/
def folded (s : CharSet) : CharSet :=
  { items := s.items.flatMap foldItem, negated := s.negated, ignoresCase := true }

theorem contains_one (x c : Char) : (one x).contains c = (c = x : Bool) := by
  simp [contains, one, CharItem.contains]

theorem contains_notLineFeed (c : Char) : notLineFeed.contains c = (c ≠ '\n' : Bool) := by
  simp [contains, notLineFeed, CharItem.contains, bne]

end CharSet

end CodeHygiene.Regex
