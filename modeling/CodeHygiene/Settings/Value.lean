import CodeHygiene.Decimal.Read
import CodeHygiene.Grades
import CodeHygiene.Json.Basic
import CodeHygiene.Settings.Problem
import CodeHygiene.Text.Case

/-!
Reading one value of a setting. Numbers are taken generously: a truth value counts as one or zero, a
real number without fraction as a whole one, and a text as the number it spells.
-/

namespace CodeHygiene.Settings

/-! ## Values -/

/-- A whole number that is not below a bound. -/
abbrev AtLeast (least : Int) := { n : Int // least ≤ n }

/-- A whole number between two bounds, which belong to it. -/
abbrev Within (least most : Int) := { n : Int // least ≤ n ∧ n ≤ most }

/-- How much is looked at: patterns only, or everything. -/
inductive Thoroughness where
  | quick
  | normal
  deriving DecidableEq, Repr

def Thoroughness.text : Thoroughness → String
  | .quick => "quick"
  | .normal => "normal"

namespace Value

/-- Null stands for no value. -/
def orNull (read : Json → Checked α) : Json → Checked (Option α)
  | .null => .ok none
  | v => (read v).map some

def text : Json → Checked String
  | .str s => .ok s
  | _ => .fail .noText

def list (read : Json → Checked α) : Json → Checked (List α)
  | .arr items => .all (items.mapIdx fun i v => (read v).inside (.item i))
  | _ => .fail .noList

/-- An object whose members are all read alike. -/
def table (read : Json → Checked α) : Json → Checked (List (String × α))
  | .obj members =>
    .all (members.map fun (key, v) => ((read v).map fun a => (key, a)).inside (.field key))
  | _ => .fail .noObject

/-- The size that a real number must stay below to be taken for a whole one. -/
def realLimit : Float := 9223372036854775808.0

/-- A real number as a whole one. -/
def wholeOfReal (x : Float) : Checked Int :=
  match Decimal.Binary.ofFloat? x with
  | none => .fail .notFinite
  | some b =>
    if b.ratio.1 % b.ratio.2 ≠ 0 then .fail .fractional
    else if -realLimit < x && x < realLimit then .ok (Decimal.truncate x)
    else .fail .tooManyDigits

def whole : Json → Checked Int
  | .whole n => .ok n
  | .bool b => .ok (if b then 1 else 0)
  | .real x => wholeOfReal x
  | .str s => match Decimal.paddedWhole? s.toList with
    | some (.number n) => .ok n
    | some .tooLong => .fail .tooManyDigits
    | none => .fail .noWholeText
  | _ => .fail .noWhole

def atLeast (least : Int) (v : Json) : Checked (AtLeast least) :=
  (whole v).andThen fun n => if h : least ≤ n then .ok ⟨n, h⟩ else .fail (.tooSmall least)

def within (least most : Int) (v : Json) : Checked (Within least most) :=
  (whole v).andThen fun n =>
    if h : n ≤ most then
      if h' : least ≤ n then .ok ⟨n, h', h⟩ else .fail (.tooSmall least)
    else .fail (.tooLarge most)

/-- A whole number as a real one; beyond all of them it is none. -/
def realOfWhole (n : Int) : Checked Float :=
  match Decimal.Binary.ofFloat? (Float.ofInt n) with
  | some _ => .ok (Float.ofInt n)
  | none => .fail .noReal

def real : Json → Checked Float
  | .whole n => realOfWhole n
  | .bool b => .ok (if b then 1.0 else 0.0)
  | .real x => .ok x
  | .str s => match Decimal.realOfText? s.toList with
    | some x => .ok x
    | none => .fail .noRealText
  | _ => .fail .noReal

/-- A real number above zero. -/
def positive (v : Json) : Checked Float :=
  (real v).andThen fun x => if x ≤ 0 then .fail (.notAbove 0) else .ok x

/-- A name in any case. -/
def lowered (s : String) : String := String.ofList (Text.lower s.toList)

def thoroughness (v : Json) : Checked Thoroughness :=
  (text v).andThen fun s =>
    if lowered s = "quick" then .ok .quick
    else if lowered s = "normal" then .ok .normal
    else .fail .unknownThoroughness

/-- Severities by name, up to the first that is unknown. -/
def severitiesOf : List String → Checked (List Severity)
  | [] => .ok []
  | s :: rest => match Severity.ofText? (lowered s) with
    | some v => (severitiesOf rest).map (v :: ·)
    | none => .fail (.unknownSeverity (lowered s))

def severities (v : Json) : Checked (List Severity) := (list text v).andThen severitiesOf

/-- A member of an object; what stands for it when it is not there. -/
def member (o : Json.Object) (key : String) (read : Json → Checked α) (usual : α) : Checked α :=
  match o.get? key with
  | some v => (read v).inside (.field key)
  | none => .ok usual

/-- The members that have no meaning here; they are kept as they are. -/
def others (o : Json.Object) (keys : List String) : Json.Object :=
  o.filter fun (key, _) => !keys.contains key

/-- An object that is a section of its own. -/
def ofSection (title : String) (read : Json.Object → Checked α) : Json → Checked α
  | .obj o => read o
  | _ => .fail (.noSection title)

end Value

end CodeHygiene.Settings
