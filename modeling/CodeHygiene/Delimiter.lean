/-!
The delimiter that closes an opening brace, bracket or parenthesis. Comments, string literals and the
interpolations of template literals are passed over, so delimiters in them do not count. The scan is
an automaton that reads a character at a time with one character of look-ahead (`Mode.step`).
-/

namespace CodeHygiene.Delimiter

/-- How far past the opening delimiter to look unless told otherwise. -/
def defaultWindow : Int := 5000

def closerOf? : Char → Option Char
  | '\x7b' => some '\x7d'
  | '(' => some ')'
  | '[' => some ']'
  | _ => none

def templateQuote : Char := '\x60'

def isQuote (c : Char) : Bool := c = '"' || c = '\'' || c = templateQuote

/-- Where the scan stands. Braces and quotes inside an interpolation are counted apart. -/
inductive Mode where
  | code
  | lineComment
  /-- Before the second character that opens a block comment. -/
  | blockOpening
  | block
  /-- Before the second character that closes a block comment. -/
  | blockClosing
  | quoted (quote : Char)
  /-- After a backslash in a literal: the next character is passed over. -/
  | escape (quote : Char)
  /-- Before the brace that opens an interpolation. -/
  | holeOpening
  | hole (braces : Nat)
  | holeQuoted (braces : Nat) (quote : Char)
  | holeEscape (braces : Nat) (quote : Char)
  deriving DecidableEq, Repr

/-- The mode after a character of a template's interpolation. -/
def holeStep (braces : Nat) (c : Char) : Mode :=
  if isQuote c then .holeQuoted braces c
  else if c = '\x7b' then .hole (braces + 1)
  else if c = '\x7d' then (if braces ≤ 1 then .quoted templateQuote else .hole (braces - 1))
  else .hole braces

/-- The mode after a character of a literal. A plain literal ends with its line: a quote that is not
closed there was none. -/
def quotedStep (quote c : Char) (next : Option Char) : Mode :=
  if c = '\\' then .escape quote
  else if c = quote then .code
  else if c = '$' && next = some '\x7b' && quote = templateQuote then .holeOpening
  else if c = '\n' && quote ≠ templateQuote then .code
  else .quoted quote

/-- The mode after a character outside code. -/
def Mode.step (m : Mode) (c : Char) (next : Option Char) : Mode :=
  match m with
  | .code => .code
  | .lineComment => if c = '\n' then .code else .lineComment
  | .blockOpening => .block
  | .block => if c = '*' && next = some '/' then .blockClosing else .block
  | .blockClosing => .code
  | .quoted q => quotedStep q c next
  | .escape q => .quoted q
  | .holeOpening => .hole 1
  | .hole braces => holeStep braces c
  | .holeQuoted braces q =>
    if c = '\\' then .holeEscape braces q
    else if c = q then .hole braces
    else .holeQuoted braces q
  | .holeEscape braces q => .holeQuoted braces q

/-- The offset of the closing delimiter from the start of a text; `depth` further ones are open. -/
def scan (opener closer : Char) : Mode → Nat → Nat → List Char → Option Nat
  | _, _, _, [] => none
  | .code, depth, offset, c :: rest =>
    if c = '/' && rest.head? = some '/' then scan opener closer .lineComment depth (offset + 1) rest
    else if c = '/' && rest.head? = some '*' then
      scan opener closer .blockOpening depth (offset + 1) rest
    else if isQuote c then scan opener closer (.quoted c) depth (offset + 1) rest
    else if c = opener then scan opener closer .code (depth + 1) (offset + 1) rest
    else if c = closer then
      match depth with
      | 0 => some offset
      | depth + 1 => scan opener closer .code depth (offset + 1) rest
    else scan opener closer .code depth (offset + 1) rest
  | m, depth, offset, c :: rest =>
    scan opener closer (m.step c rest.head?) depth (offset + 1) rest

/-- The offset of the delimiter that closes the one at `opening`, when it stands at most `window`
characters past it. -/
def closing? (content : List Char) (opening : Nat) (window : Int) : Option Nat :=
  match content.drop opening with
  | [] => none
  | opener :: rest =>
    match closerOf? opener with
    | none => none
    | some closer => scan opener closer .code 0 (opening + 1) (rest.take window.toNat)

/-- The same for an offset that may lie outside the text, on either side. -/
def closingFrom? (content : List Char) (opening : Int) (window : Int) : Option Nat :=
  if opening < 0 then none else closing? content opening.toNat window

end CodeHygiene.Delimiter
