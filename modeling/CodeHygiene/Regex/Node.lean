import CodeHygiene.Regex.CharSet

/-!
Regular expressions and what they match. `ends` lists the places where a match that starts at a
place can end, the preferred one first: an alternative before the next, a greedy repetition from the
longest run to the shortest, a lazy one the other way round. A search takes the first.
-/

namespace CodeHygiene.Regex

/-- A condition on a place between two characters. -/
inductive Anchor where
  | textStart
  | lineStart
  /-- The end of the text, or the place before a line feed that ends it. -/
  | textEnd
  | lineEnd
  | wordBoundary
  deriving DecidableEq, Repr

inductive Node where
  | empty
  | set (s : CharSet)
  | seq (first second : Node)
  | alt (first second : Node)
  /-- Characters of a set, at least `least` and at most `most` of them. -/
  | run (s : CharSet) (least : Nat) (most : Option Nat) (isLazy : Bool)
  /-- A part repeated; every repetition but those required takes at least one character. -/
  | many (part : Node) (least : Nat) (most : Option Nat) (isLazy : Bool)
  | group (number : Nat) (part : Node)
  | anchor (a : Anchor)
  /-- The part does not match here. -/
  | notAhead (part : Node)
  /-- The character before is not in the set. -/
  | notBehind (s : CharSet)
  deriving DecidableEq, Repr

/-- A part of the text by its offsets. -/
structure Span where
  start : Nat
  stop : Nat
  deriving DecidableEq, Repr

/-- A place in a text: the character before it, its offset, and what follows; with the groups matched
on the way to it, the latest first. -/
structure Place where
  before : Option Char
  offset : Nat
  rest : List Char
  groups : List (Nat × Span)
  deriving DecidableEq, Repr

def Anchor.holds (a : Anchor) (p : Place) : Bool :=
  match a with
  | .textStart => p.before.isNone
  | .lineStart => p.before.all (· = '\n')
  | .textEnd => p.rest = [] || p.rest = ['\n']
  | .lineEnd => p.rest.head?.all (· = '\n')
  | .wordBoundary => p.before.any Text.isWord != p.rest.head?.any Text.isWord

/-- The places after each admissible number of characters of a set, the nearest first. -/
def runEnds (s : CharSet) (groups : List (Nat × Span)) :
    Nat → Option Nat → Option Char → Nat → List Char → List Place
  | least, most, before, offset, rest =>
    let here := if least = 0 then [⟨before, offset, rest, groups⟩] else []
    match rest with
    | [] => here
    | c :: more =>
      if most ≠ some 0 && s.contains c then
        here ++ runEnds s groups (least - 1) (most.map (· - 1)) (some c) (offset + 1) more
      else here

/-- The places after each admissible number of repetitions. Each takes a character, so the text
itself (`clock`) bounds their number. -/
def manyEnds (part : Place → List Place) (isLazy : Bool) :
    List Char → Nat → Option Nat → Place → List Place
  | [], least, _, p => if least = 0 then [p] else []
  | _ :: clock, least, most, p =>
    let further :=
      if most = some 0 then []
      else (part p).flatMap fun q =>
        if p.offset < q.offset then manyEnds part isLazy clock (least - 1) (most.map (· - 1)) q else []
    if least ≠ 0 then further else if isLazy then p :: further else further ++ [p]

/-- Where a match that starts at a place can end. -/
def ends : Node → Place → List Place
  | .empty, p => [p]
  | .set s, p =>
    match p.rest with
    | [] => []
    | c :: rest => if s.contains c then [⟨some c, p.offset + 1, rest, p.groups⟩] else []
  | .seq first second, p => (ends first p).flatMap (ends second)
  | .alt first second, p => ends first p ++ ends second p
  | .run s least most isLazy, p =>
    let places := runEnds s p.groups least most p.before p.offset p.rest
    if isLazy then places else places.reverse
  | .many part least most isLazy, p => manyEnds (ends part) isLazy p.rest least most p
  | .group n part, p =>
    (ends part p).map fun q => { q with groups := (n, ⟨p.offset, q.offset⟩) :: q.groups }
  | .anchor a, p => if a.holds p then [p] else []
  | .notAhead part, p => if (ends part p).isEmpty then [p] else []
  | .notBehind s, p => if p.before.any s.contains then [] else [p]

end CodeHygiene.Regex
