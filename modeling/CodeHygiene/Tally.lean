/-!
Counting items: each item with the number of times it occurs, in the order in which the items first
come.
-/

namespace CodeHygiene

namespace Tally

/-- Counts an item that was seen before, or begins to. -/
def add [BEq α] (counts : List (α × Nat)) (x : α) : List (α × Nat) :=
  if counts.any (·.1 == x) then counts.map fun e => if e.1 == x then (e.1, e.2 + 1) else e
  else counts ++ [(x, 1)]

/-- Counts taken together. -/
def sum : List Nat → Nat
  | [] => 0
  | n :: rest => n + sum rest

end Tally

/-- Every item with the number of times it occurs. -/
def tally [BEq α] (items : List α) : List (α × Nat) := items.foldl Tally.add []

end CodeHygiene
