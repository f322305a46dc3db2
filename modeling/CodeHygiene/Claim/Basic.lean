import CodeHygiene.Language
import CodeHygiene.Text.Lines

/-!
Claims of quality: words such as "secure" or "battle-tested", each of a category, where they stand in
a document or in the comments of a source file. A claim is positive when its line asserts the quality
and does not merely wish for it.
-/

namespace CodeHygiene

/-- A word that claims a quality, where it stands in the text that was searched on its line. -/
structure Claim where
  file : String
  line : Nat
  /-- Counted from zero. -/
  column : Nat
  word : String
  category : String
  text : String
  isPositive : Bool
  deriving DecidableEq, Repr

namespace Claim

/-- Categories of quality with the words that claim it. -/
abbrev Categories := List (String × List String)

def defaultCategories : Categories :=
  [("production", ["production-ready", "production-grade", "prod-ready"]),
   ("enterprise", ["enterprise-grade", "enterprise-ready", "enterprise-class"]),
   ("security", ["secure", "secure by default", "security-focused"]),
   ("scale", ["scalable", "high-performance", "performant", "highly scalable"]),
   ("reliability", ["battle-tested", "robust", "reliable", "rock-solid"]),
   ("completeness", ["comprehensive", "complete", "full-featured", "feature-complete"])]

/-! ## Words -/

/-- What a word stands for: its category, and how the table writes it. -/
structure Meaning where
  category : String
  word : String
  deriving DecidableEq, Repr

/-- Meanings by the lower case of the word, in the order in which the words first come. -/
abbrev Lexicon := List (List Char × Meaning)

/-- A word that is there already keeps its place and takes the new meaning. -/
def Lexicon.set : Lexicon → List Char → Meaning → Lexicon
  | [], key, m => [(key, m)]
  | (k, old) :: rest, key, m => if k = key then (k, m) :: rest else (k, old) :: Lexicon.set rest key m

def lexicon (categories : Categories) : Lexicon :=
  (categories.flatMap fun (category, words) => words.map (Meaning.mk category)).foldl
    (fun lex m => lex.set (Text.lower m.word.toList) m) []

/-- Characters that a pattern would take for something else. -/
def special : List Char := "()[]\x7b\x7d?*+-|^$\\.&~# \t\n\r\x0b\x0c".toList

def escapeChar (c : Char) : List Char := if special.contains c then ['\\', c] else [c]

/-- The words from the longest to the shortest; of one length, in the order of the table. -/
def byLength (lex : Lexicon) : List (List Char) :=
  (lex.map (·.1)).mergeSort fun a b => b.length ≤ a.length

/-- The characters of a word, in any case. -/
def wordNode (word : List Char) : Regex.Node :=
  word.foldr (fun c rest => .seq (Regex.Flags.anyCase.lit c) rest) .empty

def anyOf : List Regex.Node → Regex.Node
  | [] => .empty
  | [n] => n
  | n :: more => .alt n (anyOf more)

/-- Any word of the lexicon, as a whole word and in any case; a longer one is preferred. -/
def pattern (lex : Lexicon) : Regex :=
  let words := byLength lex
  { source := "\\b(" ++ "|".intercalate (words.map fun w => String.ofList (w.flatMap escapeChar)) ++ ")\\b"
    node := .seq (.anchor .wordBoundary)
      (.seq (.group 1 (anyOf (words.map wordNode))) (.anchor .wordBoundary))
    groupCount := 1
    names := [] }

/-! ## Positive claims -/

/-- Phrases that assert a quality. -/
def asserting : List Regex :=
  [.ofSource "\\bis\\s+" .anyCase,
   .ofSource "\\bare\\s+" .anyCase,
   .ofSource "\\bprovides?\\s+" .anyCase,
   .ofSource "\\boffers?\\s+" .anyCase,
   .ofSource "\\bfeatures?\\s+" .anyCase,
   .ofSource "\\bfully\\s+" .anyCase,
   .ofSource "\\b100%\\s+" .anyCase,
   .ofSource "\\bdesigned\\s+(for|to\\s+be)\\s+" .anyCase]

/-- Phrases that wish for one. -/
def wishing : List Regex :=
  [.ofSource "\\bTODO\\b" .anyCase,
   .ofSource "\\bFIXME\\b" .anyCase,
   .ofSource "\\bshould\\s+be\\b" .anyCase,
   .ofSource "\\bwill\\s+be\\b" .anyCase,
   .ofSource "\\bmake\\s+(?:it\\s+(?:more|less|better)|this\\b)" .anyCase,
   .ofSource "\\bneed(s)?\\s+to\\s+be\\b" .anyCase,
   .ofSource "\\bplan(ning)?\\s+to\\b" .anyCase,
   .ofSource "\\bwant(s)?\\s+to\\b" .anyCase]

/-- Whether a line asserts a quality and does not merely wish for it. -/
def isAsserted (line : List Char) : Bool :=
  !wishing.any (·.occursIn line) && asserting.any (·.occursIn line)

/-! ## Comments -/

/-- What opens a comment that may take several lines, with what closes it. -/
def blocks : Language → List (List Char × List Char)
  | .python => [("'''".toList, "'''".toList), ("\"\"\"".toList, "\"\"\"".toList)]
  | l => [(l.marks.blockStart, l.marks.blockEnd)]

/-- What follows the opening of a block at the start of a line, and what closes the block. -/
def opening? (l : Language) (line : List Char) : Option (List Char × List Char) :=
  (blocks l).findSome? fun (start, stop) => (Text.after? start line).map (·, stop)

/-- The comment on each line that has one, with the number of the line: the whole line, or what
follows the mark behind code. `inside` is what closes a block that is open. -/
def commentsFrom (l : Language) (number : Nat) (inside : Option (List Char)) :
    List (List Char) → List (Nat × List Char)
  | [] => []
  | line :: rest =>
    let stripped := Text.trim line
    match inside with
    | some stop =>
      (number, line) :: commentsFrom l (number + 1) (if Text.holds stop stripped then none else some stop) rest
    | none =>
      if Text.startsWith l.marks.line stripped then
        (number, line) :: commentsFrom l (number + 1) none rest
      else match opening? l stripped with
        | some (after, stop) =>
          (number, line) :: commentsFrom l (number + 1) (if Text.holds stop after then none else some stop) rest
        | none =>
          match Text.find? l.marks.line line with
          | some n => (number, line.drop n) :: commentsFrom l (number + 1) none rest
          | none => commentsFrom l (number + 1) none rest

/-- Lines with their numbers, counted from one. -/
def numbered (number : Nat) : List (List Char) → List (Nat × List Char)
  | [] => []
  | line :: rest => (number, line) :: numbered (number + 1) rest

/-! ## Claims -/

/-- The claims on a line. -/
def claimsOn (lex : Lexicon) (p : Regex) (file : String) (number : Nat) (line : List Char) : List Claim :=
  (p.all line).filterMap fun h => do
    let word ← h.groupText? line 1
    let m ← lex.lookup (Text.lower word)
    return {
      file, line := number, column := h.start, word := m.word, category := m.category
      text := String.ofList (Text.trim line), isPositive := isAsserted line }

/-- The lines of a file in which claims are looked for: its comments, or all of a file that is not
source. -/
def searched (file : String) (content : List Char) : List (Nat × List Char) :=
  match Language.ofPath? file with
  | none => numbered 1 (Text.lines content)
  | some l => commentsFrom l 1 none (Text.lines content)

/-- The claims of a file, line by line. No categories at all stand for the usual ones. -/
def ofContent (content : List Char) (file : String) (categories : Categories) : List Claim :=
  let lex := lexicon (if categories.isEmpty then defaultCategories else categories)
  let p := pattern lex
  (searched file content).flatMap fun (number, line) => claimsOn lex p file number line

end Claim

end CodeHygiene
