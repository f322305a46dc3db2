import CodeHygiene.Text.Blank

/-!
Lines of a text. Only a line feed ends a line, so a text has one line more than it has line feeds,
and joining the lines gives the text back (`unlines_lines`).
-/

namespace CodeHygiene.Text

/-- The text cut at every `sep`; there is always at least one part. -/
def splitAt (sep : Char) : List Char → List (List Char)
  | [] => [[]]
  | c :: rest =>
    if c = sep then [] :: splitAt sep rest
    else match splitAt sep rest with
      | [] => [[c]]
      | part :: parts => (c :: part) :: parts

def lines (text : List Char) : List (List Char) := splitAt '\n' text

/-- The lines with a line feed between neighbours. -/
def unlines : List (List Char) → List Char
  | [] => []
  | [line] => line
  | line :: more => line ++ '\n' :: unlines more

def countNonBlank (text : List Char) : Nat := (lines text).countP fun line => !isBlankLine line

/-- The line, counted from one, that holds the character at an offset. -/
def lineAt (text : List Char) (offset : Nat) : Nat := (text.take offset).count '\n' + 1

/-- A signed offset counts from the end when it is negative, and stops at the start. -/
def offsetOf (text : List Char) (offset : Int) : Nat :=
  if offset < 0 then (text.length + offset).toNat else offset.toNat

/-- The trimmed line, cut to a number of characters; a negative number drops from the end. -/
def excerpt (line : List Char) (limit : Int) : List Char :=
  let kept := trim line
  kept.take (offsetOf kept limit)

/-- Findings quote at most this many characters of a line. -/
def excerptLimit : Int := 100

/-- The distance from the last line feed before an offset, or from one before the start. -/
def columnAt (text : List Char) (offset : Nat) : Nat :=
  ((text.take offset).reverse.takeWhile (· ≠ '\n')).length + 1

/-- The line without the carriage returns that end it. -/
def dropReturns (line : List Char) : List Char := (line.reverse.dropWhile (· = '\r')).reverse

/-- Read as text, a carriage return, alone or before a line feed, is a line feed. -/
def normaliseReturns : List Char → List Char
  | [] => []
  | '\r' :: '\n' :: rest => '\n' :: normaliseReturns rest
  | c :: rest => (if c = '\r' then '\n' else c) :: normaliseReturns rest

theorem splitAt_ne_nil (sep : Char) (text : List Char) : splitAt sep text ≠ [] := by
  cases text with
  | nil => simp [splitAt]
  | cons c rest =>
    rw [splitAt]
    split
    · simp
    · split <;> simp

theorem lines_ne_nil (text : List Char) : lines text ≠ [] := splitAt_ne_nil _ _

theorem unlines_cons {line : List Char} {more : List (List Char)} (h : more ≠ []) :
    unlines (line :: more) = line ++ '\n' :: unlines more := by
  cases more with
  | nil => exact absurd rfl h
  | cons => rfl

theorem unlines_lines (text : List Char) : unlines (lines text) = text := by
  unfold lines
  induction text with
  | nil => rfl
  | cons c rest ih =>
    by_cases h : c = '\n'
    · simp [splitAt, h, unlines_cons (splitAt_ne_nil _ _), ih]
    · simp only [splitAt, h, if_false]
      revert ih
      cases hs : splitAt '\n' rest with
      | nil => exact absurd hs (splitAt_ne_nil _ _)
      | cons part parts =>
        intro ih
        cases parts with
        | nil => simp_all [unlines]
        | cons p ps => simp_all [unlines]

theorem length_lines (text : List Char) : (lines text).length = text.count '\n' + 1 := by
  unfold lines
  induction text with
  | nil => rfl
  | cons c rest ih =>
    by_cases h : c = '\n'
    · simp [splitAt, h, ih]
    · simp only [splitAt, h, if_false, List.count_cons, beq_iff_eq]
      cases hs : splitAt '\n' rest with
      | nil => exact absurd hs (splitAt_ne_nil _ _)
      | cons part parts => simpa [hs] using ih

end CodeHygiene.Text
