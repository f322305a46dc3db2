import CodeHygiene.Regex.Node
import CodeHygiene.Text.Find

/-!
Searching a text for matches: at the start (`atStart?`), the first one (`search?`), and all of them
from left to right without overlap (`all`). Where a match was empty, the next one that starts at the
same place takes at least one character.
-/

namespace CodeHygiene

/-- A regular expression with the text it was written as and the names of its groups. -/
structure Regex where
  source : String
  node : Regex.Node
  groupCount : Nat
  names : List (String × Nat)

namespace Regex

/-- A match in a text. -/
structure Hit where
  start : Nat
  stop : Nat
  groups : List (Nat × Span)
  deriving DecidableEq, Repr

namespace Hit

/-- A group that took part in the match. -/
def group? (h : Hit) (n : Nat) : Option Span := h.groups.lookup n

def groupText? (h : Hit) (text : List Char) (n : Nat) : Option (List Char) :=
  (h.group? n).map fun s => Text.slice text s.start s.stop

/-- The matched text. -/
def text (h : Hit) (content : List Char) : List Char := Text.slice content h.start h.stop

end Hit

/-- The preferred match that starts at a place; `nonEmpty` asks for one that takes a character. -/
def matchAt? (node : Node) (nonEmpty : Bool) (p : Place) : Option Hit :=
  ((ends node p).find? fun q => !nonEmpty || q.offset != p.offset).map fun q =>
    ⟨p.offset, q.offset, q.groups⟩

/-- The first match from a place on, and the place where it starts; only at that place itself may
it be asked to take a character. -/
def firstFrom (node : Node) (nonEmpty : Bool) (before : Option Char) (offset : Nat) :
    List Char → Option (Hit × Place)
  | [] =>
    let p : Place := ⟨before, offset, [], []⟩
    (matchAt? node nonEmpty p).map (·, p)
  | c :: rest =>
    let p : Place := ⟨before, offset, c :: rest, []⟩
    match matchAt? node nonEmpty p with
    | some h => some (h, p)
    | none => firstFrom node false (some c) (offset + 1) rest

/-- The place a number of characters further on. -/
def Place.skip : Nat → Place → Place
  | n + 1, ⟨_, offset, c :: rest, groups⟩ => skip n ⟨some c, offset + 1, rest, groups⟩
  | _, p => p

/-- All matches from a place on. Every second step at least takes a character, so twice the length of
the text bounds their number. -/
def allFrom (node : Node) : Nat → Bool → Place → List Hit
  | 0, _, _ => []
  | steps + 1, nonEmpty, p =>
    match firstFrom node nonEmpty p.before p.offset p.rest with
    | none => []
    | some (h, q) => h :: allFrom node steps (h.stop = h.start) (q.skip (h.stop - h.start))

def startOf (text : List Char) : Place := ⟨none, 0, text, []⟩

/-- The match at the start of a text. -/
def atStart? (r : Regex) (text : List Char) : Option Hit := matchAt? r.node false (startOf text)

def search? (r : Regex) (text : List Char) : Option Hit :=
  (firstFrom r.node false none 0 text).map (·.1)

def occursIn (r : Regex) (text : List Char) : Bool := (r.search? text).isSome

def all (r : Regex) (text : List Char) : List Hit :=
  allFrom r.node (2 * text.length + 2) false (startOf text)

/-- The group with a name. -/
def named? (r : Regex) (name : String) : Option Nat := r.names.lookup name

end Regex

end CodeHygiene
