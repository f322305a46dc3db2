import CodeHygiene.Regex.Read
import CodeHygiene.Text.Quoted

/-!
The words of a command line: options, which begin with a dash, and all others. An option with two
dashes may be cut short as long as only one begins that way, and may carry its value after an equals
sign. Behind an option with one dash, with or without an equals sign, its word goes on with a value or
with the letters of other options. After a word of two dashes nothing is an option.
-/

namespace CodeHygiene.CommandLine

/-- What can be asked for. -/
inductive Wish where
  | help
  | files
  | config
  | quick
  | apply
  | compact
  | max
  | json
  | display
  | language
  | severity
  | workers
  | verbose
  | version
  deriving DecidableEq, Repr

/-- How many values follow an option. -/
inductive Arity where
  | none
  | one
  | many
  deriving DecidableEq, Repr

/-- The spellings of the options. -/
def spellings : List (String × Wish) :=
  [("-h", .help), ("--help", .help), ("--files", .files), ("--config", .config), ("--quick", .quick),
   ("--apply", .apply), ("--compact", .compact), ("--max", .max), ("--json", .json),
   ("--display", .display), ("--language", .language), ("--severity", .severity),
   ("--workers", .workers), ("-v", .verbose), ("--verbose", .verbose), ("--version", .version)]

namespace Wish

def ofSpelling? (spelling : String) : Option Wish := spellings.lookup spelling

def arity : Wish → Arity
  | config | max | language | workers => .one
  | files | severity => .many
  | _ => .none

/-- All spellings of an option. -/
def title (w : Wish) : String := "/".intercalate ((spellings.filter (·.2 = w)).map (·.1))

end Wish

/-- Why a command line is not understood. -/
inductive Fault where
  | ambiguous (word : String) (spellings : List String)
  /-- An option that takes no value has one. -/
  | unexpectedValue (w : Wish) (value : String)
  | missingValue (w : Wish)
  | notWhole (w : Wish) (value : String)
  | notChoice (w : Wish) (value : String) (choices : List String)
  | unrecognized (words : List String)
  deriving DecidableEq, Repr

namespace Fault

def quote (s : String) : String := String.ofList (Text.quoted s.toList)

def about (w : Wish) (what : String) : String := "argument " ++ w.title ++ ": " ++ what

def message : Fault → String
  | ambiguous word spellings =>
    "ambiguous option: " ++ word ++ " could match " ++ ", ".intercalate spellings
  | unexpectedValue w value => about w ("ignored explicit argument " ++ quote value)
  | missingValue w =>
    about w (if w.arity = .many then "expected at least one argument" else "expected one argument")
  | notWhole w value => about w ("invalid int value: " ++ quote value)
  | notChoice w value choices =>
    about w ("invalid choice: " ++ quote value ++ " (choose from "
      ++ ", ".intercalate (choices.map quote) ++ ")")
  | unrecognized words => "unrecognized arguments: " ++ " ".intercalate words

end Fault

/-- What a word is taken for. -/
inductive Word where
  | plain
  /-- An option, with what its word goes on with if there is something. -/
  | option (w : Wish) (spelling : String) (attached : Option String)
  /-- It looks like an option and is none. -/
  | unknown
  /-- Nothing after it is an option. -/
  | separator
  deriving DecidableEq, Repr

namespace Word

/-- What stands before and after the first equals sign. -/
def cut? (word : List Char) : Option (List Char × List Char) :=
  if word.contains '=' then
    some (word.takeWhile (· ≠ '='), (word.dropWhile (· ≠ '=')).drop 1)
  else none

/-- Whether a word begins with two dashes. -/
def isLong : List Char → Bool
  | '-' :: '-' :: _ => true
  | _ => false

/-- The options that a word with two dashes may be short for. -/
def longMatches (word : List Char) : List Word :=
  let (start, value) := match cut? word with
    | some (start, value) => (start, some (String.ofList value))
    | none => (word, none)
  spellings.filterMap fun (s, w) =>
    if start.isPrefixOf s.toList then some (.option w s value) else none

/-- The option that a word with one dash begins with. -/
def shortMatches (word : List Char) : List Word :=
  spellings.filterMap fun (s, w) =>
    if s.toList = word.take 2 then some (.option w s (some (String.ofList (word.drop 2)))) else none

def negativeNumber : Regex := .ofSource "^-\\d+$|^-\\d*\\.\\d+$" .plain

def spelling? : Word → Option String
  | option _ s _ => some s
  | _ => none

/-- An option that is spelled out, with the value after the equals sign if there is one. -/
def spelledOut? (word : List Char) : Option Word :=
  match Wish.ofSpelling? (String.ofList word) with
  | some w => some (.option w (String.ofList word) none)
  | none => match cut? word with
    | some (start, value) => (Wish.ofSpelling? (String.ofList start)).map fun w =>
      .option w (String.ofList start) (some (String.ofList value))
    | none => none

/-- A word that is no separator. -/
def classify (word : List Char) : Except Fault Word :=
  if word.head? ≠ some '-' || word.length = 1 then .ok plain
  else match spelledOut? word with
    | some o => .ok o
    | none => match if isLong word then longMatches word else shortMatches word with
      | [o] => .ok o
      | [] =>
        .ok (if (negativeNumber.atStart? word).isSome || word.contains ' ' then plain else unknown)
      | several => .error (.ambiguous (String.ofList word) (several.filterMap spelling?))

/-- Every word with what it is taken for. -/
def classifyAll : List String → Except Fault (List (String × Word))
  | [] => .ok []
  | s :: rest =>
    if s = "--" then .ok ((s, separator) :: rest.map fun s => (s, plain))
    else do
      let w ← classify s.toList
      return (s, w) :: (← classifyAll rest)

end Word

end CodeHygiene.CommandLine
