import CodeHygiene.CommandLine.Word
import CodeHygiene.Decimal.Read
import CodeHygiene.Grades
import CodeHygiene.Report.Compact

/-!
What a command line asks for. Its words are taken from left to right: an option takes the values it
needs from its own word or from the words that follow it, the first word that is no option is the
path, and what is left over is refused in the end. An option that comes again replaces what it said
before; only languages are collected. A separator in the place of a value leaves the option without
one.
-/

namespace CodeHygiene.CommandLine

structure Arguments where
  path : String := "."
  files : Option (List String) := none
  config : Option String := none
  quick : Bool := false
  apply : Bool := false
  compact : Bool := false
  max : Int := Report.defaultMaxRows
  json : Bool := false
  display : Bool := false
  /-- What each language option names, which is nothing when it has no value. -/
  languages : Option (List (Option String)) := none
  severities : Option (List String) := none
  /-- What the option gives, which is nothing when it has no value. -/
  workers : Option (Option Int) := none
  verbose : Bool := false

/-- Why there is nothing to run. -/
inductive Stop where
  | help
  | version
  | fault (f : Fault)

/-- What the words so far ask for; the path is not known before its word. -/
structure Progress where
  arguments : Arguments := {}
  path : Option String := none
  leftOver : List String := []

namespace Progress

def whole (w : Wish) (value : String) : Except Stop Int :=
  match Decimal.wholeOfText? value.toList with
  | some n => .ok n
  | none => .error (.fault (.notWhole w value))

/-- The names of the severities, from the worst down. -/
def severityNames : List String := Severity.all.map Severity.text

/-- Values that are all names of severities. -/
def severities (w : Wish) (values : List String) : Except Stop (List String) :=
  match values.find? fun v => !severityNames.contains v with
  | some v => .error (.fault (.notChoice w v severityNames))
  | none => .ok values

/-- An option with its values; one that needs a value may be left without. -/
def take (a : Arguments) (w : Wish) (values : List String) : Except Stop Arguments :=
  match w with
  | .help => .error .help
  | .version => .error .version
  | .files => .ok { a with files := some values }
  | .config => .ok { a with config := values.head? }
  | .quick => .ok { a with quick := true }
  | .apply => .ok { a with apply := true }
  | .compact => .ok { a with compact := true }
  | .max => do return { a with max := (← values.head?.mapM (whole w)).getD a.max }
  | .json => .ok { a with json := true }
  | .display => .ok { a with display := true }
  | .language => .ok { a with languages := some (a.languages.getD [] ++ [values.head?]) }
  | .severity => do return { a with severities := some (← severities w values) }
  | .workers => do return { a with workers := some (← values.head?.mapM (whole w)) }
  | .verbose => .ok { a with verbose := true }

/-- The options that are written together: the first, and one for each letter. A letter that is none is
held against the option before it, with all that follows. -/
def together (w : Wish) : List Char → Except Stop (List Wish)
  | [] => .ok [w]
  | c :: rest =>
    match Wish.ofSpelling? (String.ofList ['-', c]) with
    | some next => do return w :: (← together next rest)
    | none => .error (.fault (.unexpectedValue w (String.ofList (c :: rest))))

def takeFlags (a : Arguments) : List Wish → Except Stop Arguments
  | [] => .ok a
  | w :: rest => do takeFlags (← take a w []) rest

/-- An option whose word goes on: with its value when it needs one, and with letters of other options
when it has one dash and needs none. -/
def takeAttached (a : Arguments) (w : Wish) (spelling attached : String) : Except Stop Arguments :=
  if w.arity ≠ .none then take a w (if attached = "--" then [] else [attached])
  else if Word.isLong spelling.toList || attached = "" then
    .error (.fault (.unexpectedValue w attached))
  else do takeFlags a (← together w attached.toList)

def isPlain (word : String × Word) : Bool := word.2 = .plain

/-- The values of an option among the words that follow it. -/
def valuesOf (w : Wish) (rest : List (String × Word)) : List String :=
  let plain := (rest.takeWhile isPlain).map (·.1)
  match w.arity with
  | .none => []
  | .one => plain.take 1
  | .many => plain

/-- An option whose values follow it. -/
def takeFollowing (a : Arguments) (w : Wish) (values : List String) : Except Stop Arguments :=
  if w.arity ≠ .none && values.isEmpty then .error (.fault (.missingValue w)) else take a w values

/-- The words without a separator at the start. -/
def skipSeparator : List (String × Word) → List (String × Word)
  | (_, .separator) :: rest => rest
  | words => words

theorem skipSeparator_length (words : List (String × Word)) :
    (skipSeparator words).length ≤ words.length := by
  unfold skipSeparator; split <;> simp

/-- Takes the words one after the other. A separator next to the path belongs to it. -/
def run (p : Progress) (words : List (String × Word)) : Except Stop Progress :=
  match words with
  | [] => .ok p
  | (s, .plain) :: rest =>
    if p.path.isNone then run { p with path := some s } (skipSeparator rest)
    else run { p with leftOver := p.leftOver ++ [s] } rest
  | (s, .separator) :: rest =>
    if p.path.isNone then
      run { p with path := (rest.head?).map (·.1) } (rest.drop 1)
    else run { p with leftOver := p.leftOver ++ [s] } rest
  | (s, .unknown) :: rest => run { p with leftOver := p.leftOver ++ [s] } rest
  | (_, .option w spelling (some attached)) :: rest => do
    let a ← takeAttached p.arguments w spelling attached
    run { p with arguments := a } rest
  | (_, .option w _ none) :: rest => do
    let values := valuesOf w rest
    let a ← takeFollowing p.arguments w values
    run { p with arguments := a } (rest.drop values.length)
termination_by words.length
decreasing_by
  all_goals
    have := skipSeparator_length rest
    simp only [List.length_cons, List.length_drop]
    omega

end Progress

/-- What a command line asks for, or why there is nothing to run. -/
def Arguments.read (words : List String) : Except Stop Arguments := do
  let words ← (Word.classifyAll words).mapError .fault
  let p ← Progress.run {} words
  if p.leftOver.isEmpty then return { p.arguments with path := p.path.getD "." }
  else .error (.fault (.unrecognized p.leftOver))

end CodeHygiene.CommandLine
