import CodeHygiene.Decimal.Read
import CodeHygiene.Json.Basic

/-!
Reading JSON. A fault names what was expected and where: the offset of the character that is wrong,
or of the quote that opens an unfinished string. The three names of numbers that are not finite are
accepted, and of two members with one key the later one counts. A whole number with too many digits is
a fault of its own, which names no place.
-/

namespace CodeHygiene.Json

/-- What is wrong with a text that is no JSON. -/
inductive Problem where
  | byteOrderMark
  | noValue
  | noPropertyName
  | noColon
  | noComma
  | controlCharacter
  | unterminatedString
  | badEscape
  | badUnicodeEscape
  | extraData
  /-- A whole number with more digits than are read. -/
  | tooManyDigits (count : Nat)
  deriving DecidableEq, Repr

def Problem.message : Problem → String
  | .byteOrderMark => "Unexpected UTF-8 BOM (decode using utf-8-sig)"
  | .noValue => "Expecting value"
  | .noPropertyName => "Expecting property name enclosed in double quotes"
  | .noColon => "Expecting ':' delimiter"
  | .noComma => "Expecting ',' delimiter"
  | .controlCharacter => "Invalid control character at"
  | .unterminatedString => "Unterminated string starting at"
  | .badEscape => "Invalid \\escape"
  | .badUnicodeEscape => "Invalid \\uXXXX escape"
  | .extraData => "Extra data"
  | .tooManyDigits count =>
    "Exceeds the limit (" ++ Decimal.natText Decimal.digitLimit
      ++ " digits) for integer string conversion: value has " ++ Decimal.natText count
      ++ " digits; use sys.set_int_max_str_digits() to increase the limit"

structure Fault where
  problem : Problem
  offset : Nat
  deriving DecidableEq, Repr

/-- The place of an offset in a text; lines and columns count from one. -/
def placeText (text : List Char) (offset : Nat) : String :=
  let before := text.take offset
  let line := before.count '\n' + 1
  let column := (before.reverse.takeWhile (· ≠ '\n')).length + 1
  "line " ++ Decimal.natText line ++ " column " ++ Decimal.natText column
    ++ " (char " ++ Decimal.natText offset ++ ")"

def Fault.message (f : Fault) (text : List Char) : String :=
  match f.problem with
  | .tooManyDigits _ => f.problem.message
  | _ => f.problem.message ++ ": " ++ placeText text f.offset

/-- What is left to read, and how much has been read. -/
structure Rest where
  offset : Nat
  chars : List Char

def fault (problem : Problem) (offset : Nat) : Except Fault α := .error ⟨problem, offset⟩

def isSpace (c : Char) : Bool := c = ' ' || c = '\t' || c = '\n' || c = '\r'

def Rest.skipSpace : Rest → Rest
  | ⟨n, chars⟩ => ⟨n + (chars.takeWhile isSpace).length, chars.dropWhile isSpace⟩

/-! ## Strings -/

def hexValue? (c : Char) : Option Nat :=
  if '0' ≤ c ∧ c ≤ '9' then some (c.toNat - 48)
  else if 'a' ≤ c ∧ c ≤ 'f' then some (c.toNat - 87)
  else if 'A' ≤ c ∧ c ≤ 'F' then some (c.toNat - 55)
  else none

/-- The unit that four hexadecimal digits spell. -/
def unit? (a b c d : Char) : Option Nat := do
  return ((← hexValue? a) * 16 + (← hexValue? b)) * 256 + (← hexValue? c) * 16 + (← hexValue? d)

def simpleEscape? : Char → Option Char
  | '"' => some '"'
  | '\\' => some '\\'
  | '/' => some '/'
  | 'b' => some '\x08'
  | 'f' => some '\x0c'
  | 'n' => some '\n'
  | 'r' => some '\r'
  | 't' => some '\t'
  | _ => none

/-- The character of a unit; half of a pair on its own is the replacement character. -/
def unitChar (n : Nat) : Char := if 0xD800 ≤ n ∧ n < 0xE000 then '\uFFFD' else Char.ofNat n

/-- The rest of a string that was opened at `opened`; `here` is the offset of the next character and
`done` holds the characters so far, last first. -/
def stringFrom (opened : Nat) (here : Nat) (done : List Char) : List Char → Except Fault (String × Rest)
  | [] => fault .unterminatedString opened
  | '"' :: rest => .ok (String.ofList done.reverse, ⟨here + 1, rest⟩)
  | '\\' :: 'u' :: a :: b :: c :: d :: '\\' :: 'u' :: a' :: b' :: c' :: d' :: rest =>
    match unit? a b c d with
    | none => fault .badUnicodeEscape (here + 1)
    | some high =>
      if 0xD800 ≤ high ∧ high < 0xDC00 then
        if rest = [] then fault .badUnicodeEscape (here + 7)
        else match unit? a' b' c' d' with
        | none => fault .badUnicodeEscape (here + 7)
        | some low =>
          if 0xDC00 ≤ low ∧ low < 0xE000 then
            stringFrom opened (here + 12)
              (Char.ofNat (0x10000 + (high - 0xD800) * 1024 + (low - 0xDC00)) :: done) rest
          else stringFrom opened (here + 6) ('\uFFFD' :: done) ('\\' :: 'u' :: a' :: b' :: c' :: d' :: rest)
      else stringFrom opened (here + 6) (unitChar high :: done) ('\\' :: 'u' :: a' :: b' :: c' :: d' :: rest)
  | '\\' :: 'u' :: a :: b :: c :: d :: rest =>
    if rest = [] then fault .badUnicodeEscape (here + 1)
    else match unit? a b c d with
      | none => fault .badUnicodeEscape (here + 1)
      | some n => stringFrom opened (here + 6) (unitChar n :: done) rest
  | '\\' :: 'u' :: _ => fault .badUnicodeEscape (here + 1)
  | '\\' :: e :: rest =>
    match simpleEscape? e with
    | some c => stringFrom opened (here + 2) (c :: done) rest
    | none => fault .badEscape here
  | ['\\'] => fault .unterminatedString opened
  | c :: rest =>
    if c.toNat < 0x20 then fault .controlCharacter here
    else stringFrom opened (here + 1) (c :: done) rest

/-! ## Numbers -/

open Decimal (digitLimit digitsValue realOf fraction? power?)

/-- A number at the start of a text. A zero ends the whole part. -/
def number (r : Rest) : Except Fault (Json × Rest) :=
  let (negative, signs, chars) := match r.chars with
    | '-' :: more => (true, 1, more)
    | chars => (false, 0, chars)
  let whole := match chars with
    | '0' :: _ => ['0']
    | _ => chars.takeWhile Char.isDigit
  if whole.isEmpty then fault .noValue r.offset
  else
    let after := chars.drop whole.length
    let used := r.offset + signs + whole.length
    match fraction? after, power? after with
    | none, none =>
      if digitLimit < whole.length then fault (.tooManyDigits whole.length) r.offset
      else
        let n : Int := digitsValue whole
        .ok (.whole (if negative then -n else n), ⟨used, after⟩)
    | none, some (p, n, rest) => .ok (.real (realOf negative whole [] p), ⟨used + n, rest⟩)
    | some (ds, rest), _ =>
      match power? rest with
      | none => .ok (.real (realOf negative whole ds 0), ⟨used + 1 + ds.length, rest⟩)
      | some (p, n, rest) => .ok (.real (realOf negative whole ds p), ⟨used + 1 + ds.length + n, rest⟩)

/-! ## Values -/

/-- The words that stand for values. -/
def words : List (String × Json) :=
  [("null", .null), ("true", .bool true), ("false", .bool false), ("NaN", .real (0.0 / 0.0)),
   ("Infinity", .real (1.0 / 0.0)), ("-Infinity", .real (-1.0 / 0.0))]

def word? (r : Rest) : Option (Json × Rest) :=
  words.findSome? fun (w, value) =>
    if w.toList.isPrefixOf r.chars then
      some (value, ⟨r.offset + w.length, r.chars.drop w.length⟩)
    else none

mutual

/-- A value; `depth` bounds the number of values still to be read. -/
def value : Nat → Rest → Except Fault (Json × Rest)
  | 0, r => fault .noValue r.offset
  | depth + 1, r =>
    match r.chars with
    | '"' :: rest => do
      let (s, r) ← stringFrom r.offset (r.offset + 1) [] rest
      return (.str s, r)
    | '[' :: rest => do
      let r := Rest.skipSpace ⟨r.offset + 1, rest⟩
      match r.chars with
      | ']' :: rest => return (.arr [], ⟨r.offset + 1, rest⟩)
      | _ =>
        let (items, r) ← items depth r
        return (.arr items, r)
    | '\x7b' :: rest => do
      let r := Rest.skipSpace ⟨r.offset + 1, rest⟩
      match r.chars with
      | '\x7d' :: rest => return (.obj [], ⟨r.offset + 1, rest⟩)
      | _ =>
        let (o, r) ← members depth [] r
        return (.obj o, r)
    | _ =>
      match word? r with
      | some answer => .ok answer
      | none => number r

/-- The items from one on, up to the closing bracket. -/
def items : Nat → Rest → Except Fault (List Json × Rest)
  | 0, r => fault .noValue r.offset
  | depth + 1, r => do
    let (item, r) ← value depth r
    let r := r.skipSpace
    match r.chars with
    | ']' :: rest => return ([item], ⟨r.offset + 1, rest⟩)
    | ',' :: rest =>
      let (more, r) ← items depth (Rest.skipSpace ⟨r.offset + 1, rest⟩)
      return (item :: more, r)
    | _ => fault .noComma r.offset

/-- The members from one on, up to the closing brace, added to those before. -/
def members : Nat → Object → Rest → Except Fault (Object × Rest)
  | 0, _, r => fault .noPropertyName r.offset
  | depth + 1, o, r => do
    match r.chars with
    | '"' :: rest =>
      let (key, r) ← stringFrom r.offset (r.offset + 1) [] rest
      let r := r.skipSpace
      match r.chars with
      | ':' :: rest =>
        let (item, r) ← value depth (Rest.skipSpace ⟨r.offset + 1, rest⟩)
        let r := r.skipSpace
        match r.chars with
        | '\x7d' :: rest => return (o.set key item, ⟨r.offset + 1, rest⟩)
        | ',' :: rest => members depth (o.set key item) (Rest.skipSpace ⟨r.offset + 1, rest⟩)
        | _ => fault .noComma r.offset
      | _ => fault .noColon r.offset
    | _ => fault .noPropertyName r.offset

end

/-- The value that a whole text spells. Each value, item and member has a character of its own, so
the length of the text bounds their number. -/
def read (text : List Char) : Except Fault Json := do
  if text.head? = some '\uFEFF' then fault .byteOrderMark 0
  let (answer, r) ← value (2 * text.length + 2) (Rest.skipSpace ⟨0, text⟩)
  let r := r.skipSpace
  if r.chars.isEmpty then return answer
  fault .extraData r.offset

end CodeHygiene.Json
