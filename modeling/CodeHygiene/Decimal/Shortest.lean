import CodeHygiene.Decimal.Binary

/-!
The shortest decimal that reads back as a given binary number. A decimal reads back when it lies in
the interval of reals that round to the number; the ends belong to it when the mantissa is even. The
grids of ever finer powers of ten are tried, and on each the number's two neighbours.
-/

namespace CodeHygiene.Decimal

/-- The number `digits · 10 ^ exponent`. -/
structure Scientific where
  digits : Nat
  exponent : Int
  deriving DecidableEq, Repr

/-- The mantissa is the least of its power of two, so the number below is only half as far away. -/
def Binary.isLeastOfPower (b : Binary) : Bool := b.mantissa = twoTo 52 && -1074 < b.exponent

/-- The neighbour of the number on the grid of multiples of `10 ^ grid` that reads back, the nearer
if both do. Everything is counted in quarters of the last binary place. -/
def onGrid? (b : Binary) (grid : Int) : Option Nat :=
  let place := b.exponent - 2
  let scale := twoTo place.toNat * tenTo (-grid).toNat
  let unit := twoTo (-place).toNat * tenTo grid.toNat
  let value := 4 * b.mantissa * scale
  let low := (4 * b.mantissa - if b.isLeastOfPower then 1 else 2) * scale
  let high := (4 * b.mantissa + 2) * scale
  let readsBack (k : Nat) : Bool :=
    if b.mantissa % 2 = 0 then low ≤ k * unit && k * unit ≤ high
    else low < k * unit && k * unit < high
  let below := value / unit
  let fromBelow := value - below * unit
  let fromAbove := (below + 1) * unit - value
  let nearer := if fromBelow < fromAbove || (fromBelow = fromAbove && below % 2 = 0) then below else below + 1
  let farther := if nearer = below then below + 1 else below
  if readsBack nearer then some nearer else if readsBack farther then some farther else none

/-- The first grid from `grid` down that holds a decimal which reads back. -/
def shortestFrom (b : Binary) : Nat → Int → Scientific
  | 0, grid => ⟨0, grid⟩
  | tries + 1, grid =>
    match onGrid? b grid with
    | some k => ⟨k, grid⟩
    | none => shortestFrom b tries (grid - 1)

/-- The shortest decimal of a number's size; zero is no digits at all. Seventeen digits always read
back, so a few more grids than that are enough. -/
def shortest (b : Binary) : Scientific :=
  if b.mantissa = 0 then ⟨0, 0⟩
  else
    let bits : Int := Nat.log2 b.mantissa + 1 + b.exponent
    shortestFrom b 24 (bits * 1233 / 4096 + 2)

end CodeHygiene.Decimal
