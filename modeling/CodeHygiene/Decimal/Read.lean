import CodeHygiene.Decimal.Text
import CodeHygiene.Text.Blank
import CodeHygiene.Text.Find
import CodeHygiene.Text.Word

/-!
Reading numbers: the pieces that a number is made of, and the numbers that a text spells as a whole,
with blanks around it, a sign before it and underscores between its digits. A whole number has a
limited number of digits.
-/

namespace CodeHygiene.Decimal

/-- The most digits of a whole number that are read. -/
def digitLimit : Nat := 4300

/-! ## Pieces -/

def digitsValue (ds : List Char) : Nat := ds.foldl (fun n d => n * 10 + (d.toNat - 48)) 0

/-- The real number of a sign, the digits on both sides of the point, and a power of ten. Powers
beyond every finite number are cut short. -/
def realOf (negative : Bool) (whole fraction : List Char) (power : Int) : Float :=
  let mantissa := digitsValue (whole ++ fraction)
  let exponent := power - fraction.length
  let size :=
    if mantissa = 0 then 0.0
    else if 400 < exponent + (Nat.toDigits 10 mantissa).length then (1.0 : Float) / 0.0
    else if exponent + (Nat.toDigits 10 mantissa).length < -400 then 0.0
    else if exponent < 0 then Float.ofScientific mantissa true (-exponent).toNat
    else Float.ofScientific mantissa false exponent.toNat
  if negative then -size else size

/-- The point and the digits after it, if there is at least one. -/
def fraction? : List Char → Option (List Char × List Char)
  | '.' :: rest =>
    let ds := rest.takeWhile Char.isDigit
    if ds.isEmpty then none else some (ds, rest.dropWhile Char.isDigit)
  | _ => none

/-- The mark, the sign and the digits of a power of ten, if there is at least one digit. -/
def power? : List Char → Option (Int × Nat × List Char)
  | e :: rest =>
    if e = 'e' || e = 'E' then
      let (negative, signs, rest) := match rest with
        | '-' :: more => (true, 1, more)
        | '+' :: more => (false, 1, more)
        | more => (false, 0, more)
      let ds := rest.takeWhile Char.isDigit
      if ds.isEmpty then none
      else
        let n : Int := digitsValue ds
        some (if negative then -n else n, 1 + signs + ds.length, rest.dropWhile Char.isDigit)
    else none
  | [] => none

/-! ## Whole numbers -/

/-- White space as Unicode has it: the separator controls are blank but no white space. -/
def isSpace (c : Char) : Bool := Text.isBlank c && !(0x1C ≤ c.toNat && c.toNat ≤ 0x1F)

def trimSpace (text : List Char) : List Char :=
  ((text.dropWhile isSpace).reverse.dropWhile isSpace).reverse

/-- Without underscores, which may stand one by one and not at the ends. -/
def ungrouped? (text : List Char) : Option (List Char) :=
  if text.head? = some '_' || text.getLast? = some '_' || Text.holds "__".toList text then none
  else some (text.filter (· ≠ '_'))

/-- A sign at the start, and what follows. -/
def signed : List Char → Bool × List Char
  | '-' :: rest => (true, rest)
  | '+' :: rest => (false, rest)
  | rest => (false, rest)

/-- The value of digits of any script, if there is at least one. -/
def valueOfDigits? (ds : List Char) : Option Nat :=
  if ds.isEmpty || digitLimit < ds.length then none
  else ds.foldlM (fun n d => (Text.digitValue? d).map fun v => n * 10 + v) 0

/-- The whole number that a text spells in digits of any script, perhaps grouped by underscores,
after a sign and with blanks around it. -/
def wholeOfText? (text : List Char) : Option Int := do
  let (negative, rest) := signed (trimSpace text)
  let n : Int ← valueOfDigits? (← ungrouped? rest)
  return if negative then -n else n

/-! ## Padded whole numbers -/

/-- A whole number, or that there are more digits than are read. -/
inductive Whole where
  | number (n : Int)
  | tooLong
  deriving DecidableEq, Repr

/-- What follows zeros at the start, before which `last` was read: a number from its first other digit
or its sign on; a zero is kept before a point and at the end. -/
def afterZeros (last : Char) : List Char → Option (List Char)
  | [] => some [last]
  | c :: rest =>
    if c = '0' || c = '_' then afterZeros c rest
    else if c = '-' || c.isDigit then some (c :: rest)
    else if c = '.' then some (last :: c :: rest)
    else none

/-- Without zeros at the start, which may be grouped by any number of underscores. -/
def dropZeros? : List Char → Option (List Char)
  | [] => none
  | c :: rest =>
    if c = '0' then afterZeros c rest
    else if c = '-' || c.isDigit then some (c :: rest)
    else none

/-- Without a plus sign, which no other sign may follow. -/
def dropPlus? : List Char → Option (List Char)
  | '+' :: '-' :: _ => none
  | '+' :: rest => some rest
  | text => some text

/-- Without a point that zeros follow, at least one and nothing else. -/
def dropZeroTail (text : List Char) : List Char :=
  let tail := (text.dropWhile (· ≠ '.')).drop 1
  if !tail.isEmpty && tail.all (· = '0') then text.takeWhile (· ≠ '.') else text

/-- The whole number that ASCII digits spell, without a zero before others, perhaps after a minus
sign. The sign counts among the digits when their number is limited. -/
def strictWhole? (text : List Char) : Option Whole :=
  let (negative, rest) := match text with
    | '-' :: rest => (true, rest)
    | rest => (false, rest)
  match rest with
  | ['0'] => some (.number 0)
  | [] => none
  | '0' :: _ => none
  | ds =>
    if digitLimit < text.length - (ds.dropWhile Char.isDigit).length then some .tooLong
    else if ds.all Char.isDigit then
      let n : Int := digitsValue ds
      some (.number (if negative then -n else n))
    else none

/-- The whole number that a text spells with zeros before it, a point and zeros behind it, underscores
between its digits and blanks around it. -/
def paddedWhole? (text : List Char) : Option Whole := do
  let digits := dropZeroTail (← dropZeros? (← dropPlus? (trimSpace text)))
  strictWhole? ((ungrouped? digits).getD digits)

/-! ## Real numbers -/

/-- Digits around a point, at least one of them, and a power of ten. -/
def decimalOf? (negative : Bool) (text : List Char) : Option Float :=
  let whole := text.takeWhile Char.isDigit
  let rest := text.drop whole.length
  let (fraction, rest) := match rest with
    | '.' :: more => (more.takeWhile Char.isDigit, more.dropWhile Char.isDigit)
    | _ => ([], rest)
  if whole.isEmpty && fraction.isEmpty then none
  else if rest.isEmpty then some (realOf negative whole fraction 0)
  else match power? rest with
    | some (power, _, []) => some (realOf negative whole fraction power)
    | _ => none

/-- A real number as digits, or as one of the names of those that are not finite. -/
def realOfPlain? (text : List Char) : Option Float :=
  let (negative, rest) := signed text
  let name := String.ofList (rest.map Char.toLower)
  if name = "inf" || name = "infinity" then some (if negative then -1.0 / 0.0 else 1.0 / 0.0)
  else if name = "nan" then some (0.0 / 0.0)
  else decimalOf? negative rest

/-- The real number that a text spells, with blanks around it or else with underscores in it. -/
def realOfText? (text : List Char) : Option Float :=
  match realOfPlain? (trimSpace text) with
  | some x => some x
  | none => if text.contains '_' then (ungrouped? text).bind realOfPlain? else none

end CodeHygiene.Decimal
