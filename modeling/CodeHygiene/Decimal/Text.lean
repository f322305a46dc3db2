import CodeHygiene.Decimal.Shortest

/-!
How a number is written. A binary number is written by its shortest decimal: in positional notation
while its first digit stands at most sixteen places before the point and at most four after it, always
with a digit on both sides of the point; else with an exponent of a sign and at least two digits.
-/

namespace CodeHygiene.Decimal

/-- A decimal digit as a character. -/
def digitChar (d : Nat) : Char := Char.ofNat (48 + d % 10)

def natText (n : Nat) : String := String.ofList ((Nat.toDigits 10 n))

def intText (n : Int) : String :=
  match n with
  | .ofNat n => natText n
  | .negSucc n => "-" ++ natText (n + 1)

def zeros (n : Nat) : List Char := List.replicate n '0'

/-- A decimal written with a point, or with an exponent when it is very large or very small. -/
def Scientific.text (s : Scientific) : String :=
  let ds := Nat.toDigits 10 s.digits
  -- the number of digits before the point
  let whole : Int := ds.length + s.exponent
  if -4 < whole && whole ≤ 16 then
    if whole ≤ 0 then String.ofList ("0.".toList ++ zeros (-whole).toNat ++ ds)
    else if (ds.length : Int) ≤ whole then String.ofList (ds ++ zeros (whole - ds.length).toNat ++ ".0".toList)
    else String.ofList (ds.take whole.toNat ++ '.' :: ds.drop whole.toNat)
  else
    let power := whole - 1
    let size := Nat.toDigits 10 power.natAbs
    let head := match ds with
      | [] => []
      | [d] => [d]
      | d :: more => d :: '.' :: more
    String.ofList (head ++ ['e', if power < 0 then '-' else '+'] ++ zeros (2 - size.length) ++ size)

def Binary.text (b : Binary) : String :=
  let size := if b.mantissa = 0 then "0.0" else (shortest b).text
  if b.negative then "-" ++ size else size

/-- A number that is no finite one is written by its name. -/
def floatText (x : Float) : String :=
  match Binary.ofFloat? x with
  | some b => b.text
  | none => if x.isNaN then "nan" else if x < 0 then "-inf" else "inf"

/-! ## A fixed number of places -/

/-- The number's size in units of the last of `places` decimal places. -/
def Binary.rounded (b : Binary) (places : Nat) : Nat :=
  roundDiv (b.ratio.1 * tenTo places) b.ratio.2

/-- A whole number of units of the last place, written with its point. -/
def placesText (units places : Nat) : String :=
  let ds := Nat.toDigits 10 units
  let ds := zeros (places + 1 - ds.length) ++ ds
  let whole := ds.length - places
  String.ofList (ds.take whole ++ if places = 0 then [] else '.' :: ds.drop whole)

/-- A number rounded to a fixed number of places; the sign stays, also before zero. -/
def fixedText (x : Float) (places : Nat) : String :=
  match Binary.ofFloat? x with
  | some b => (if b.negative then "-" else "") ++ placesText (b.rounded places) places
  | none => floatText x

/-- The binary number nearest to a number rounded to decimal places. -/
def roundTo (x : Float) (places : Nat) : Float :=
  match Binary.ofFloat? x with
  | some b =>
    let size := Float.ofScientific (b.rounded places) true places
    if b.negative then -size else size
  | none => x

/-- The nearest whole number, a tie going to the even one. -/
def roundToInt (x : Float) : Int :=
  match Binary.ofFloat? x with
  | some b => if b.negative then -(b.rounded 0 : Int) else b.rounded 0
  | none => 0

/-- A number cut off at the point. -/
def truncate (x : Float) : Int :=
  match Binary.ofFloat? x with
  | some b =>
    let size : Int := (b.ratio.1 / b.ratio.2 : Nat)
    if b.negative then -size else size
  | none => 0

end CodeHygiene.Decimal
