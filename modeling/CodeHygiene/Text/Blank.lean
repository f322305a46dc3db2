/-!
Blank characters, and what follows from them: trimming, indentation, blank lines.
The class is Unicode's white space together with the four separator controls U+001C to U+001F;
zero-width characters are not blank.
-/

namespace CodeHygiene.Text

/-- The ranges of blank characters, ends included. -/
def blankRanges : List (Nat × Nat) :=
  [(0x09, 0x0D), (0x1C, 0x20), (0x85, 0x85), (0xA0, 0xA0), (0x1680, 0x1680), (0x2000, 0x200A),
   (0x2028, 0x2029), (0x202F, 0x202F), (0x205F, 0x205F), (0x3000, 0x3000)]

def isBlank (c : Char) : Bool :=
  blankRanges.any fun r => r.1 ≤ c.toNat && c.toNat ≤ r.2

def isBlankLine (line : List Char) : Bool := line.all isBlank

def trimLeft (line : List Char) : List Char := line.dropWhile isBlank

def trimRight (line : List Char) : List Char := (line.reverse.dropWhile isBlank).reverse

def trim (line : List Char) : List Char := trimRight (trimLeft line)

/-- The width of the blank start of a line; a blank line is all indentation. -/
def indentation (line : List Char) : Nat := (line.takeWhile isBlank).length

theorem isBlank_of_isWhitespace {c : Char} (h : c.isWhitespace = true) : isBlank c = true := by
  simp only [Char.isWhitespace, Bool.or_eq_true, decide_eq_true_eq] at h
  rcases h with ((rfl | rfl) | rfl) | rfl <;> decide

theorem trimLeft_append_takeWhile (line : List Char) :
    line.takeWhile isBlank ++ trimLeft line = line := List.takeWhile_append_dropWhile

theorem indentation_le_length (line : List Char) : indentation line ≤ line.length :=
  (List.takeWhile_prefix isBlank).length_le

end CodeHygiene.Text
