import CodeHygiene.Delimiter
import CodeHygiene.Language
import CodeHygiene.Text.Lines
import CodeHygiene.Violation

/-!
What the measures of functions share: the text of a brace body, the lines of an indented body, the
ratio of two counts of lines, and what can go wrong with a measure.
-/

namespace CodeHygiene.Measure

abbrev Line := List Char

/-- Why a measure has no answer. -/
inductive Fault where
  /-- A body without a line of code has no ratio. -/
  | emptyBody
  /-- The rule gives no such threshold. -/
  | noThreshold (key : String)
  deriving DecidableEq, Repr

def Fault.message : Fault → String
  | .emptyBody => "division by zero"
  | .noThreshold key => "'" ++ key ++ "'"

/-- The text between two delimiters. -/
def between (content : List Char) (opening closing : Nat) : List Char :=
  Text.slice content (opening + 1) closing

/-- The offset of the delimiter that closes the one at an offset, within the usual window. -/
def closing? (content : List Char) (opening : Nat) : Option Nat :=
  Delimiter.closing? content opening Delimiter.defaultWindow

/-- Whether a line belongs to a body that is indented deeper than `indent`; blank lines do. -/
def isInside (indent : Nat) (line : Line) : Bool :=
  Text.isBlankLine line || indent < Text.indentation line

/-- Lines of one kind for each line of another, as a number. -/
def ratio (part whole : Nat) : Float := Float.ofNat part / Float.ofNat whole

/-- The ratio to two decimal places, as it is reported. -/
def shownRatio (part whole : Nat) : Float := Decimal.roundTo (ratio part whole) 2

/-- A sentence such as "12 doc lines / 3 code lines = 4.0x". -/
def ratioSentence (part : Nat) (kind : String) (code : Nat) : String :=
  Decimal.natText part ++ " " ++ kind ++ " lines / " ++ Decimal.natText code ++ " code lines = "
    ++ Decimal.floatText (shownRatio part code) ++ "x"

/-- The bodies whose count of code lines reaches the least number and whose ratio exceeds the limit.
A body without code that reaches the least number has no ratio. -/
def select {α : Type} (part code : α → Nat) (least : Int) (limit : Quantity) (bodies : List α) :
    Except Fault (List α) :=
  let reaching := bodies.filter fun b => least ≤ code b
  if reaching.any fun b => code b = 0 then .error .emptyBody
  else .ok (reaching.filter fun b => limit.exceededBy (ratio (part b) (code b)))

/-- Where a body counts only with a line of code, there is always something to divide by. -/
theorem select_eq_ok {α : Type} (part code : α → Nat) {least : Int} (pos : 1 ≤ least) (limit : Quantity)
    (bodies : List α) : select part code least limit bodies =
      .ok ((bodies.filter fun b => least ≤ code b).filter fun b => limit.exceededBy (ratio (part b) (code b))) := by
  have divided : (bodies.filter fun b => least ≤ code b).any (fun b => code b = 0) = false := by
    simp only [List.any_eq_false, List.mem_filter, decide_eq_true_eq, and_imp]
    intro b _ reaching empty
    omega
  rw [select, divided]
  rfl

/-- What has the same counts is selected alike. -/
theorem select_map {α : Type} (part code : α → Nat) {f : α → α} (same : ∀ b, part (f b) = part b ∧ code (f b) = code b)
    (least : Int) (limit : Quantity) (bodies : List α) :
    select part code least limit (bodies.map f) = (select part code least limit bodies).map (List.map f) := by
  simp only [select, List.filter_map, List.any_map, Function.comp_def, fun b => (same b).1, fun b => (same b).2]
  split <;> rfl

end CodeHygiene.Measure
