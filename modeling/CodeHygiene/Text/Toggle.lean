/-!
A class of characters as the sorted code points where membership changes: a character is in the
class when an odd number of them is at or below it.
-/

namespace CodeHygiene.Text

/-- The number of entries of a sorted array, from `lo` on and below `hi`, that are at most `x`,
plus `lo`; found by halving. -/
def rankFrom (entries : Array Nat) (x lo hi : Nat) : Nat :=
  if lo < hi then
    let mid := (lo + hi) / 2
    if entries.getD mid 0 ≤ x then rankFrom entries x (mid + 1) hi else rankFrom entries x lo mid
  else lo
termination_by hi - lo

def isToggledOn (entries : Array Nat) (x : Nat) : Bool := rankFrom entries x 0 entries.size % 2 = 1

end CodeHygiene.Text
