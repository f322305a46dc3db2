import CodeHygiene.Decimal.Text

/-!
A configured number: whole or real. The two compare and divide alike, but a whole number is written
without a point, so the distinction that its author made is kept.
-/

namespace CodeHygiene

inductive Quantity where
  | whole (n : Int)
  | real (x : Float)
  deriving BEq

namespace Quantity

def toFloat : Quantity → Float
  | .whole n => Float.ofInt n
  | .real x => x

/-- The whole part, toward zero. -/
def toInt : Quantity → Int
  | .whole n => n
  | .real x => Decimal.truncate x

def text : Quantity → String
  | .whole n => Decimal.intText n
  | .real x => Decimal.floatText x

/-- Whether a measured value is strictly greater. -/
def exceededBy (limit : Quantity) (value : Float) : Bool := limit.toFloat < value

/-- Whether a count is strictly greater. -/
def exceededByCount (limit : Quantity) (count : Nat) : Bool :=
  match limit with
  | .whole n => n < count
  | .real x => x < Float.ofNat count

/-- Whether a count is no smaller. -/
def reachedBy (least : Quantity) (count : Nat) : Bool :=
  match least with
  | .whole n => n ≤ count
  | .real x => x ≤ Float.ofNat count

def twice : Quantity → Quantity
  | .whole n => .whole (n * 2)
  | .real x => .real (x * 2.0)

end Quantity

end CodeHygiene
