/-!
Reading bytes as UTF-8, strictly. A lead byte owes continuation bytes, each within a range; a fault
names the bytes from the lead byte on that were read before the byte that does not fit.
-/

namespace CodeHygiene.Text.Utf8

inductive Reason where
  | invalidStart
  | invalidContinuation
  | unexpectedEnd
  deriving DecidableEq, Repr

def Reason.text : Reason → String
  | .invalidStart => "invalid start byte"
  | .invalidContinuation => "invalid continuation byte"
  | .unexpectedEnd => "unexpected end of data"

/-- The bytes from `start` on, `count` of them, that are no character; `lead` is the first. -/
structure Fault where
  lead : UInt8
  start : Nat
  count : Nat
  reason : Reason
  deriving DecidableEq, Repr

def hexText (b : UInt8) : String :=
  let digit (n : Nat) : Char := Char.ofNat (if n < 10 then 48 + n else 87 + n)
  String.ofList [digit (b.toNat / 16), digit (b.toNat % 16)]

def Fault.message (f : Fault) : String :=
  let place :=
    if f.count = 1 then "byte 0x" ++ hexText f.lead ++ " in position " ++ toString f.start
    else "bytes in position " ++ toString f.start ++ "-" ++ toString (f.start + f.count - 1)
  "'utf-8' codec can't decode " ++ place ++ ": " ++ f.reason.text

/-- The bits of a lead byte that count, and the ranges of the bytes it owes. The ranges leave out what
a shorter form would say, surrogates, and what lies beyond Unicode. -/
def lead? (b : Nat) : Option (Nat × List (Nat × Nat)) :=
  if b < 0x80 then some (b, [])
  else if b < 0xC2 then none
  else if b < 0xE0 then some (b - 0xC0, [(0x80, 0xBF)])
  else if b = 0xE0 then some (0, [(0xA0, 0xBF), (0x80, 0xBF)])
  else if b = 0xED then some (0xD, [(0x80, 0x9F), (0x80, 0xBF)])
  else if b < 0xF0 then some (b - 0xE0, [(0x80, 0xBF), (0x80, 0xBF)])
  else if b = 0xF0 then some (0, [(0x90, 0xBF), (0x80, 0xBF), (0x80, 0xBF)])
  else if b < 0xF4 then some (b - 0xF0, [(0x80, 0xBF), (0x80, 0xBF), (0x80, 0xBF)])
  else if b = 0xF4 then some (4, [(0x80, 0x8F), (0x80, 0xBF), (0x80, 0xBF)])
  else none

/-- A character that has begun. -/
structure Open where
  lead : UInt8
  count : Nat
  value : Nat
  owed : List (Nat × Nat)

/-- The characters of the bytes from an offset on, after those read so far (last first). -/
def decodeFrom (offset : Nat) (done : List Char) : Option Open → List UInt8 → Except Fault (List Char)
  | none, [] => .ok done.reverse
  | some o, [] => .error ⟨o.lead, offset - o.count, o.count, .unexpectedEnd⟩
  | none, b :: rest =>
    match lead? b.toNat with
    | none => .error ⟨b, offset, 1, .invalidStart⟩
    | some (value, []) => decodeFrom (offset + 1) (Char.ofNat value :: done) none rest
    | some (value, owed) => decodeFrom (offset + 1) done (some ⟨b, 1, value, owed⟩) rest
  | some o, b :: rest =>
    match o.owed with
    | [] => .error ⟨o.lead, offset - o.count, o.count, .invalidContinuation⟩
    | (low, high) :: owed =>
      if low ≤ b.toNat ∧ b.toNat ≤ high then
        let value := o.value * 64 + (b.toNat - 0x80)
        match owed with
        | [] => decodeFrom (offset + 1) (Char.ofNat value :: done) none rest
        | _ :: _ => decodeFrom (offset + 1) done (some ⟨o.lead, o.count + 1, value, owed⟩) rest
      else .error ⟨o.lead, offset - o.count, o.count, .invalidContinuation⟩

def decode (bytes : List UInt8) : Except Fault (List Char) := decodeFrom 0 [] none bytes

def encode (s : String) : List UInt8 := s.toUTF8.toList

end CodeHygiene.Text.Utf8
