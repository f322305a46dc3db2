import CodeHygiene.Tally

/-!
The Shannon entropy of a text in bits per character.
-/

namespace CodeHygiene.Text

/-- The terms are summed in the order of first occurrence; the sum of one repeated character is the
negative zero, and only the empty text has the positive one. -/
def entropy (text : List Char) : Float :=
  if text.isEmpty then 0.0
  else
    let size := Float.ofNat text.length
    let shares := (tally text).map fun e => Float.ofNat e.2 / size
    Float.neg (shares.foldl (fun sum share => sum + share * share.log2) 0.0)

end CodeHygiene.Text
