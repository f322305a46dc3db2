import CodeHygiene.Decimal.Text

/-!
What is wrong with a value that was given as a setting, and where. Problems are collected, not
stopped at: checking two values gives the problems of both, those of the first one first.
-/

namespace CodeHygiene.Settings

/-- A step into a value. -/
inductive Step where
  | field (name : String)
  | item (index : Nat)
  deriving DecidableEq, Repr

/-- Why a value is not accepted. -/
inductive Cause where
  | noText
  | noList
  | noObject
  /-- A section that is no object. -/
  | noSection (title : String)
  | noWhole
  | noWholeText
  | tooManyDigits
  | fractional
  | notFinite
  | noReal
  | noRealText
  | notAbove (bound : Int)
  | tooSmall (least : Int)
  | tooLarge (most : Int)
  | unknownThoroughness
  | unknownSeverity (name : String)
  deriving DecidableEq, Repr

namespace Cause

def kind : Cause → String
  | noText => "string_type"
  | noList => "list_type"
  | noObject => "dict_type"
  | noSection _ => "model_type"
  | noWhole => "int_type"
  | noWholeText => "int_parsing"
  | tooManyDigits => "int_parsing_size"
  | fractional => "int_from_float"
  | notFinite => "finite_number"
  | noReal => "float_type"
  | noRealText => "float_parsing"
  | notAbove _ => "greater_than"
  | tooSmall _ => "greater_than_equal"
  | tooLarge _ => "less_than_equal"
  | unknownThoroughness | unknownSeverity _ => "value_error"

def message : Cause → String
  | noText => "Input should be a valid string"
  | noList => "Input should be a valid list"
  | noObject => "Input should be a valid dictionary"
  | noSection title => "Input should be a valid dictionary or instance of " ++ title
  | noWhole => "Input should be a valid integer"
  | noWholeText => "Input should be a valid integer, unable to parse string as an integer"
  | tooManyDigits => "Unable to parse input string as an integer, exceeded maximum size"
  | fractional => "Input should be a valid integer, got a number with a fractional part"
  | notFinite => "Input should be a finite number"
  | noReal => "Input should be a valid number"
  | noRealText => "Input should be a valid number, unable to parse string as a number"
  | notAbove bound => "Input should be greater than " ++ Decimal.intText bound
  | tooSmall least => "Input should be greater than or equal to " ++ Decimal.intText least
  | tooLarge most => "Input should be less than or equal to " ++ Decimal.intText most
  | unknownThoroughness => "Value error, thoroughness must be one of quick, normal"
  | unknownSeverity name => "Value error, Unknown severity: " ++ name

end Cause

/-- A cause, and the way to the value. -/
structure Problem where
  location : List Step
  cause : Cause
  deriving DecidableEq, Repr

/-- A value that was accepted, or all that is wrong with it. -/
inductive Checked (α : Type) where
  | ok (value : α)
  | faulty (problems : List Problem)

namespace Checked

def map (f : α → β) : Checked α → Checked β
  | ok a => ok (f a)
  | faulty ps => faulty ps

/-- Applies what was accepted to what was accepted, or joins the problems. -/
def apply : Checked (α → β) → Checked α → Checked β
  | ok f, x => x.map f
  | faulty ps, ok _ => faulty ps
  | faulty ps, faulty qs => faulty (ps ++ qs)

instance : Applicative Checked where
  pure := ok
  seq f x := f.apply (x ())

def problems : Checked α → List Problem
  | ok _ => []
  | faulty ps => ps

def fail (cause : Cause) : Checked α := faulty [⟨[], cause⟩]

/-- The problems of a part, seen from the whole. -/
def inside (step : Step) : Checked α → Checked α
  | ok a => ok a
  | faulty ps => faulty (ps.map fun p => { p with location := step :: p.location })

/-- All of them, or the problems of all. -/
def all : List (Checked α) → Checked (List α)
  | [] => ok []
  | c :: rest => apply (c.map List.cons) (all rest)

/-- A further condition on what was accepted. -/
def andThen (c : Checked α) (f : α → Checked β) : Checked β :=
  match c with
  | ok a => f a
  | faulty ps => faulty ps

end Checked

end CodeHygiene.Settings
