/-!
Looking for one text in another: what a text starts with, ends with, and where a piece first occurs.
-/

namespace CodeHygiene.Text

/-- What follows a piece at the start of a text. -/
def after? : List Char → List Char → Option (List Char)
  | [], text => some text
  | _ :: _, [] => none
  | p :: piece, c :: text => if p = c then after? piece text else none

def startsWith (piece text : List Char) : Bool := (after? piece text).isSome

def endsWith (piece text : List Char) : Bool := startsWith piece.reverse text.reverse

/-- The offset of the first occurrence of a piece. -/
def find? (piece : List Char) : List Char → Option Nat
  | [] => if piece = [] then some 0 else none
  | c :: text =>
    if startsWith piece (c :: text) then some 0 else (find? piece text).map (· + 1)

def holds (piece text : List Char) : Bool := (find? piece text).isSome

/-- The part of a text between two offsets. -/
def slice (text : List Char) (start stop : Nat) : List Char := (text.drop start).take (stop - start)

theorem after?_eq_some_iff {piece text rest : List Char} :
    after? piece text = some rest ↔ text = piece ++ rest := by
  induction piece generalizing text with
  | nil => simp [after?, eq_comm]
  | cons p piece ih =>
    cases text with
    | nil => simp [after?]
    | cons c text =>
      by_cases h : p = c
      · simp [after?, h, ih]
      · simp [after?, h, Ne.symm h]

theorem startsWith_iff {piece text : List Char} : startsWith piece text = true ↔ piece <+: text := by
  rw [startsWith, Option.isSome_iff_exists]
  constructor
  · rintro ⟨rest, h⟩
    exact ⟨rest, (after?_eq_some_iff.1 h).symm⟩
  · rintro ⟨rest, h⟩
    exact ⟨rest, after?_eq_some_iff.2 h.symm⟩

end CodeHygiene.Text
