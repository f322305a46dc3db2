import CodeHygiene.Regex.Search

/-!
Reading a regular expression from its written form: literals, sets, classes, anchors, groups (plain,
numbered, named), look-around for what must not be there, and repetitions with bounds, greedy or
lazy. `ofSource` makes an expression that cannot be read one that matches nothing.
-/

namespace CodeHygiene.Regex

/-- How a text is matched: with case ignored; with every line having a start and an end. -/
structure Flags where
  ignoreCase : Bool := false
  multiline : Bool := false
  deriving DecidableEq, Repr

/-- Case counts, and a text has one start and one end. -/
def Flags.plain : Flags := {}

def Flags.anyCase : Flags := { ignoreCase := true }

def Flags.byLine : Flags := { multiline := true }

/-- What is left to read, the groups opened so far, and their names. -/
structure Source where
  rest : List Char
  groups : Nat
  names : List (String × Nat)

def Flags.set (f : Flags) (s : CharSet) : CharSet := if f.ignoreCase then s.folded else s

def Flags.lit (f : Flags) (c : Char) : Node := .set (f.set (.one c))

/-- The character that an escape other than a class stands for. -/
def escaped : Char → Char
  | 'n' => '\n'
  | 't' => '\t'
  | 'r' => '\r'
  | c => c

/-- The class that an escape names. -/
def class? : Char → Option CharItem
  | 's' => some (.inClass .blank)
  | 'd' => some (.inClass .digit)
  | 'w' => some (.inClass .word)
  | 'S' => some (.notInClass .blank)
  | 'D' => some (.notInClass .digit)
  | 'W' => some (.notInClass .word)
  | _ => none

/-- The items of a set up to its closing bracket. -/
def setItems : Nat → List Char → Option (List CharItem × List Char)
  | 0, _ => none
  | fuel + 1, chars =>
    let add (item : CharItem) (rest : List Char) :=
      (setItems fuel rest).map fun (items, rest) => (item :: items, rest)
    let oneOrRange (c : Char) (rest : List Char) :=
      match rest with
      | '-' :: ']' :: _ => add (.one c) rest
      | '-' :: '\\' :: high :: rest => add (.range c (escaped high)) rest
      | '-' :: high :: rest => add (.range c high) rest
      | _ => add (.one c) rest
    match chars with
    | [] => none
    | ']' :: rest => some ([], rest)
    | '\\' :: e :: rest =>
      match class? e with
      | some item => add item rest
      | none => oneOrRange (escaped e) rest
    | c :: rest => oneOrRange c rest

def setFrom (chars : List Char) : Option (CharSet × List Char) :=
  let (negated, chars) := match chars with
    | '^' :: rest => (true, rest)
    | _ => (false, chars)
  (setItems (chars.length + 1) chars).map fun (items, rest) => ({ items, negated }, rest)

def digitsFrom (chars : List Char) : Option Nat × List Char :=
  let ds := chars.takeWhile Char.isDigit
  (if ds.isEmpty then none else some (ds.foldl (fun n d => n * 10 + (d.toNat - 48)) 0),
    chars.dropWhile Char.isDigit)

/-- The bounds of a repetition, if one follows. -/
def bounds? : List Char → Option (Nat × Option Nat × List Char)
  | '*' :: rest => some (0, none, rest)
  | '+' :: rest => some (1, none, rest)
  | '?' :: rest => some (0, some 1, rest)
  | '\x7b' :: rest =>
    match digitsFrom rest with
    | (some n, '\x7d' :: rest) => some (n, some n, rest)
    | (some n, ',' :: rest) =>
      match digitsFrom rest with
      | (most, '\x7d' :: rest) => some (n, most, rest)
      | _ => none
    | _ => none
  | _ => none

/-- A part with the repetition that follows it. -/
def repeated (part : Node) (chars : List Char) : Node × List Char :=
  match bounds? chars with
  | none => (part, chars)
  | some (least, most, rest) =>
    let (isLazy, rest) := match rest with
      | '?' :: rest => (true, rest)
      | _ => (false, rest)
    match part with
    | .set s => (.run s least most isLazy, rest)
    | _ => (.many part least most isLazy, rest)

/-- What follows the closing bracket of a group. -/
def Source.close? (s : Source) : Option Source :=
  match s.rest with
  | ')' :: rest => some { s with rest }
  | _ => none

mutual

/-- Alternatives up to a closing bracket or the end. -/
def alternatives (f : Flags) : Nat → Source → Option (Node × Source)
  | 0, _ => none
  | fuel + 1, s => do
    let (first, s) ← parts f fuel s
    match s.rest with
    | '|' :: rest =>
      let (second, s) ← alternatives f fuel { s with rest }
      return (.alt first second, s)
    | _ => return (first, s)

/-- Parts one after the other, up to the end of the alternative. -/
def parts (f : Flags) : Nat → Source → Option (Node × Source)
  | 0, _ => none
  | fuel + 1, s =>
    match s.rest with
    | [] => some (.empty, s)
    | '|' :: _ => some (.empty, s)
    | ')' :: _ => some (.empty, s)
    | _ => do
      let (first, s) ← part f fuel s
      let (first, rest) := repeated first s.rest
      let (second, s) ← parts f fuel { s with rest }
      return (if second = .empty then first else .seq first second, s)

/-- A single part, without the repetition that may follow it. -/
def part (f : Flags) : Nat → Source → Option (Node × Source)
  | 0, _ => none
  | fuel + 1, s =>
    let inside (s : Source) (make : Node → Option Node) : Option (Node × Source) := do
      let (node, s) ← alternatives f fuel s
      let s ← s.close?
      return (← make node, s)
    match s.rest with
    | [] => none
    | '(' :: '?' :: ':' :: rest => inside { s with rest } some
    | '(' :: '?' :: '!' :: rest => inside { s with rest } fun node => some (.notAhead node)
    | '(' :: '?' :: '<' :: '!' :: rest => inside { s with rest } fun
      | .set c => some (.notBehind c)
      | _ => none
    | '(' :: '?' :: 'P' :: '<' :: rest =>
      let name := String.ofList (rest.takeWhile (· ≠ '>'))
      let n := s.groups + 1
      inside ⟨(rest.dropWhile (· ≠ '>')).drop 1, n, s.names ++ [(name, n)]⟩ fun node => some (.group n node)
    | '(' :: rest =>
      let n := s.groups + 1
      inside { s with rest, groups := n } fun node => some (.group n node)
    | '[' :: rest => do
      let (set, rest) ← setFrom rest
      return (.set (f.set set), { s with rest })
    | '.' :: rest => some (.set .notLineFeed, { s with rest })
    | '^' :: rest => some (.anchor (if f.multiline then .lineStart else .textStart), { s with rest })
    | '$' :: rest => some (.anchor (if f.multiline then .lineEnd else .textEnd), { s with rest })
    | '\\' :: 'b' :: rest => some (.anchor .wordBoundary, { s with rest })
    | '\\' :: e :: rest =>
      match class? e with
      | some item => some (.set { items := [item] }, { s with rest })
      | none => some (f.lit (escaped e), { s with rest })
    | c :: rest => some (f.lit c, { s with rest })

end

/-- Every part takes a character, and so does every step down into one. -/
def read? (source : String) (f : Flags) : Option Regex := do
  let chars := source.toList
  let (node, s) ← alternatives f (3 * chars.length + 3) ⟨chars, 0, []⟩
  if s.rest.isEmpty then return ⟨source, node, s.groups, s.names⟩ else none

/-- An expression that matches nothing, not even the empty text. -/
def never (source : String) : Regex := ⟨source, .notAhead .empty, 0, []⟩

def ofSource (source : String) (f : Flags) : Regex := (read? source f).getD (never source)

end CodeHygiene.Regex
