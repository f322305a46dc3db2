import CodeHygiene.Measure.Commentary
import CodeHygiene.Measure.Documentation
import CodeHygiene.Proofs.Real

/-!
What the thresholds of the two measures of functions do. Proved:

(1) Thresholds only choose (`Gauge.selects`): the report under any thresholds is the report under the widest,
    one line of code and a limit of nothing, with those left out that the thresholds do not admit; there is
    always a report, a ratio that equals the limit is not in it, and tighter thresholds report no more.
(2) It makes no difference that the decision is taken body by body, while the loops over a text skip, resume and
    sort (`Documentation.loop_eq`, `Commentary.loop_eq`): which bodies are measured, and their measurements, never
    depend on the thresholds, and a stable sort leaves the order of those that remain (`filter_mergeSort`).

Together, for both measures and every language: `thresholds_only_select`.
-/

namespace CodeHygiene.Measure

/-! ## Stable sorts -/

section Sorting

variable {α : Type} {le : α → α → Bool}

/-- A list is split in one way between those that pass a test and, behind them, those that do not. -/
theorem split_unique (test : α → Bool) {front back front' back' : List α} (eq : front ++ back = front' ++ back')
    (pass : ∀ b ∈ front, test b = true) (fail : ∀ b ∈ back, ¬ test b = true)
    (pass' : ∀ b ∈ front', test b = true) (fail' : ∀ b ∈ back', ¬ test b = true) :
    front = front' ∧ back = back' := by
  have passing : front = front' := by
    simpa only [List.filter_append, List.filter_eq_self.mpr pass, List.filter_eq_self.mpr pass',
      List.filter_eq_nil_iff.mpr fail, List.filter_eq_nil_iff.mpr fail', List.append_nil]
      using congrArg (List.filter test) eq
  subst passing
  exact ⟨rfl, List.append_cancel_left eq⟩

theorem le_of_mergeSort_eq (trans : ∀ a b c, le a b → le b c → le a c) (total : ∀ a b, le a b || le b a)
    {l front back : List α} {a : α} (eq : l.mergeSort le = front ++ a :: back) : ∀ b ∈ back, le a b = true := by
  have sorted := List.pairwise_mergeSort trans total l
  rw [eq] at sorted
  exact (List.pairwise_cons.mp (List.pairwise_append.mp sorted).2.1).1

/-- What is left of a sorted list is what is left, sorted. -/
theorem filter_mergeSort (trans : ∀ a b c, le a b → le b c → le a c) (total : ∀ a b, le a b || le b a)
    (p : α → Bool) (l : List α) : (l.mergeSort le).filter p = (l.filter p).mergeSort le := by
  induction l with
  | nil => simp
  | cons a l ih =>
    -- Sorting puts `a` before the first that is not below it, whether or not some of the others are gone.
    obtain ⟨front, back, eq, rest, below⟩ := List.mergeSort_cons trans total a l
    rw [rest, List.filter_append] at ih
    rw [eq, List.filter_append, List.filter_cons, List.filter_cons]
    split
    next kept =>
      obtain ⟨front', back', eq', rest', below'⟩ := List.mergeSort_cons trans total a (l.filter p)
      have same : front.filter p = front' ∧ back.filter p = back' := by
        refine split_unique (fun b => !le a b) (ih.trans rest') (fun b mem => below b (List.mem_filter.mp mem).1)
          (fun b mem => ?_) below' fun b mem => ?_
        · simp [le_of_mergeSort_eq trans total eq b (List.mem_filter.mp mem).1]
        · simp [le_of_mergeSort_eq trans total eq' b mem]
      rw [eq', same.1, same.2]
    next => exact ih

end Sorting

/-! ## (1) Choosing among measured bodies -/

/-- The two counts that a violation states: of the lines under a key, and of the lines of code. -/
def counts? (key : String) (v : Violation) : Option (Nat × Nat) :=
  match v.details.lookup key, v.details.lookup "code_lines" with
  | some (.whole part), some (.whole code) => some (part.toNat, code.toNat)
  | _, _ => none

/-- Whether the counts of a violation are admitted by thresholds. -/
def admits (key : String) (least : Int) (limit : Quantity) (v : Violation) : Bool :=
  match counts? key v with
  | some (part, code) => least ≤ code && limit.exceededBy (ratio part code)
  | none => false

/-- A violation with the text of another limit. -/
def relabelled (limit : Quantity) (v : Violation) : Violation := { v with threshold := limit.text ++ "x" }

/-- Two thresholds only choose among what a report has under the widest ones. -/
structure OnlySelects (key : String) (report : Int → Quantity → Except Fault (List Violation)) (least : Int)
    (limit : Quantity) : Prop where
  /-- The report is the widest one restricted, in order; nothing is ever divided by zero. -/
  restricts : ∃ widest, report 1 (.whole 0) = .ok widest ∧
    report least limit = .ok ((widest.filter (admits key least limit)).map (relabelled limit))
  /-- A shorter body is not reported, nor a ratio equal to the limit. -/
  strict : ∀ found, report least limit = .ok found → ∀ v ∈ found, ∃ part code,
    counts? key v = some (part, code) ∧ least ≤ code ∧ ¬ (limit.toFloat == ratio part code) = true
  /-- Tighter thresholds report no more; limits compare as the reals that a ratio is compared with. -/
  shrinks : ∀ least' limit', least ≤ least' → limit.toFloat ≤ limit'.toFloat → ∃ wider tighter,
    report least limit = .ok wider ∧ report least' limit' = .ok tighter ∧
      (tighter.map (relabelled limit)).Sublist wider

/-- What is counted of a body besides its code, and how a body is reported. -/
structure Gauge (α : Type) where
  key : String
  part : α → Nat
  code : α → Nat
  report : Quantity → α → Violation
  counts_report : ∀ limit b, counts? key (report limit b) = some (part b, code b)
  relabelled_report : ∀ limit limit' b, relabelled limit' (report limit b) = report limit' b

namespace Gauge

variable {α : Type} (g : Gauge α) (least : Int) (limit : Quantity)

/-- The report on bodies that are measured first and chosen afterwards. -/
def chosen (bodies : List α) : Except Fault (List Violation) :=
  (select g.part g.code least limit bodies).map (List.map (g.report limit))

/-- Whether a body is reported, where there is something to divide by. -/
def isFlagged (b : α) : Bool := least ≤ g.code b && limit.exceededBy (ratio (g.part b) (g.code b))

theorem admits_report (limit' : Quantity) (b : α) :
    admits g.key least limit (g.report limit' b) = g.isFlagged least limit b := by
  rw [admits, g.counts_report]
  rfl

variable {least limit}

theorem chosen_eq (pos : 1 ≤ least) (bodies : List α) :
    g.chosen least limit bodies = .ok ((bodies.filter (g.isFlagged least limit)).map (g.report limit)) := by
  have both : (bodies.filter fun b => least ≤ g.code b).filter
      (fun b => limit.exceededBy (ratio (g.part b) (g.code b))) = bodies.filter (g.isFlagged least limit) := by
    rw [List.filter_filter]
    exact List.filter_congr fun b _ => Bool.and_comm ..
  rw [chosen, select_eq_ok _ _ pos, both]
  rfl

/-- A body that is flagged is flagged under wider thresholds. -/
theorem isFlagged_of_le {least' : Int} {limit' : Quantity} (fewer : least ≤ least')
    (lower : limit.toFloat ≤ limit'.toFloat) {b : α} (flagged : g.isFlagged least' limit' b = true) :
    g.isFlagged least limit b = true := by
  rw [isFlagged, Bool.and_eq_true, decide_eq_true_eq] at flagged ⊢
  exact ⟨fewer.trans flagged.1, decide_eq_true (Real.lt_of_le_of_lt lower (of_decide_eq_true flagged.2))⟩

theorem filter_isFlagged {least' : Int} {limit' : Quantity} (fewer : least ≤ least')
    (lower : limit.toFloat ≤ limit'.toFloat) (bodies : List α) :
    (bodies.filter (g.isFlagged least limit)).filter (g.isFlagged least' limit') =
      bodies.filter (g.isFlagged least' limit') := by
  rw [List.filter_filter]
  refine List.filter_congr fun b _ => ?_
  cases flagged : g.isFlagged least' limit' b with
  | false => rfl
  | true => rw [Bool.true_and, g.isFlagged_of_le fewer lower flagged]

/-- The text of a limit is all that a report has of it besides the bodies that are chosen. -/
theorem map_relabelled_report (limit' : Quantity) (bodies : List α) :
    (bodies.map (g.report limit')).map (relabelled limit) = bodies.map (g.report limit) := by
  rw [List.map_map]
  exact List.map_congr_left fun b _ => g.relabelled_report limit' limit b

theorem selects (pos : 1 ≤ least) (nonneg : limit.IsNonnegative) (bodies : List α) :
    OnlySelects g.key (fun least limit => g.chosen least limit bodies) least limit where
  restricts := by
    refine ⟨_, g.chosen_eq (Int.le_refl 1) bodies, ?_⟩
    have admitted : admits g.key least limit ∘ g.report (.whole 0) = g.isFlagged least limit :=
      funext (g.admits_report least limit (.whole 0))
    rw [List.filter_map, admitted, g.map_relabelled_report,
      g.filter_isFlagged pos (Quantity.zero_toFloat_le nonneg)]
    exact g.chosen_eq pos bodies
  strict := by
    intro found reported v mem
    cases (g.chosen_eq pos bodies).symm.trans reported
    obtain ⟨b, inside, rfl⟩ := List.mem_map.mp mem
    have flagged := (List.mem_filter.mp inside).2
    rw [isFlagged, Bool.and_eq_true, decide_eq_true_eq] at flagged
    have exceeded : limit.toFloat < ratio (g.part b) (g.code b) := of_decide_eq_true flagged.2
    exact ⟨g.part b, g.code b, g.counts_report limit b, flagged.1, fun tie => Real.not_lt_of_beq tie exceeded⟩
  shrinks := by
    intro least' limit' fewer lower
    refine ⟨_, _, g.chosen_eq pos bodies, g.chosen_eq (pos.trans fewer) bodies, ?_⟩
    rw [g.map_relabelled_report, ← g.filter_isFlagged fewer lower]
    exact List.filter_sublist.map _

/-! ## (2) Deciding body by body -/

variable (least limit)

/-- What is decided of a body once it is measured. -/
def flags (b : α) : Except Fault Bool :=
  if g.code b < least then .ok false
  else if g.code b = 0 then .error .emptyBody
  else .ok (limit.exceededBy (ratio (g.part b) (g.code b)))

/-- A turn of a loop: a body is measured, reported when it is flagged, and the other turns follow. -/
def turn (b : α) (others : Except Fault (List Violation)) : Except Fault (List Violation) := do
  let flagged ← g.flags least limit b
  let found ← others
  return if flagged then g.report limit b :: found else found

theorem chosen_cons (b : α) (bodies : List α) :
    g.chosen least limit (b :: bodies) = g.turn least limit b (g.chosen least limit bodies) := by
  by_cases short : g.code b < least
  case pos =>
    have passed : g.chosen least limit (b :: bodies) = g.chosen least limit bodies := by
      rw [chosen, select, List.filter_cons_of_neg (by simpa using short)]
      rfl
    rw [passed, turn, flags, if_pos short]
    cases g.chosen least limit bodies <;> rfl
  case neg =>
    have reaching : (b :: bodies).filter (fun b => least ≤ g.code b) =
        b :: bodies.filter fun b => least ≤ g.code b :=
      List.filter_cons_of_pos (by simpa using short)
    by_cases empty : g.code b = 0
    case pos =>
      rw [turn, flags, if_neg short, if_pos empty, chosen, select, reaching]
      simp only [List.any_cons, empty, decide_true, Bool.true_or, if_true]
      rfl
    case neg =>
      rw [turn, flags, if_neg short, if_neg empty, chosen, chosen, select, select, reaching]
      simp only [List.any_cons, empty, decide_false, Bool.false_or, List.filter_cons]
      split
      · rfl
      · cases limit.exceededBy (ratio (g.part b) (g.code b)) <;> rfl

theorem turn_eq_chosen (b : α) {bodies : List α} {others : Except Fault (List Violation)}
    (eq : others = g.chosen least limit bodies) :
    g.turn least limit b others = g.chosen least limit (b :: bodies) := by
  rw [eq, chosen_cons]

/-- Bodies in another order are chosen in that order. -/
theorem chosen_mergeSort {le : α → α → Bool} (trans : ∀ a b c, le a b → le b c → le a c)
    (total : ∀ a b, le a b || le b a) (bodies : List α) {before : Violation → Violation → Bool}
    (same : ∀ a b, le a b = before (g.report limit a) (g.report limit b)) :
    g.chosen least limit (bodies.mergeSort le) = (g.chosen least limit bodies).map (List.mergeSort · before) := by
  have divided : ∀ p : α → Bool, ((bodies.filter fun b => least ≤ g.code b).mergeSort le).any p =
      (bodies.filter fun b => least ≤ g.code b).any p := fun p => (List.mergeSort_perm _ _).any_eq
  rw [chosen, chosen, select, select, filter_mergeSort trans total, divided]
  split
  · rfl
  · rw [filter_mergeSort trans total]
    exact congrArg Except.ok (List.map_mergeSort fun a _ b _ => same a b)

end Gauge

/-- What is reported in the language of a tag; an unknown language has nothing. -/
def inLanguage (tag : String) (report : Language → Except Fault (List Violation)) : Except Fault (List Violation) :=
  match Language.ofTag? tag with
  | none => .ok []
  | some l => report l

theorem Gauge.selects_inLanguage {α : Type} (g : Gauge α) {least : Int} {limit : Quantity} (pos : 1 ≤ least)
    (nonneg : limit.IsNonnegative) (tag : String) (found : Language → List α) :
    OnlySelects g.key (fun least limit => inLanguage tag fun l => g.chosen least limit (found l)) least limit := by
  simp only [inLanguage]
  cases Language.ofTag? tag with
  | none => exact g.selects pos nonneg []
  | some l => exact g.selects pos nonneg (found l)

/-- Reports in the order of their lines; those of one line stay in the order they came in. -/
def sortedByLine (found : List Violation) : List Violation :=
  found.mergeSort fun v w => v.line.getD 0 ≤ w.line.getD 0

namespace Documentation

variable (least : Int) (limit : Quantity)

def gauge : Gauge Documented where
  key := "doc_lines"
  part := Documented.docLines
  code := Documented.codeLines
  report := toViolation
  counts_report _ _ := rfl
  relabelled_report _ _ _ := rfl

/-- The loop over declarations with a comment before them; the report is sorted afterwards. -/
def braceLoop (r : Regex) (content : List Char) : List Regex.Hit → Except Fault (List Violation)
  | [] => .ok []
  | h :: rest =>
    match documentedAt? r content h with
    | none => braceLoop r content rest
    | some d => gauge.turn least limit d (braceLoop r content rest)

/-- The loop over the lines of a text, each with the lines after it. -/
def indentedLoop (number : Nat) : List Line → Except Fault (List Violation)
  | [] => .ok []
  | line :: rest =>
    match documentedOn? number line rest with
    | none => indentedLoop (number + 1) rest
    | some d => gauge.turn least limit d (indentedLoop (number + 1) rest)

def loop (l : Language) (content : List Char) : Except Fault (List Violation) :=
  match pattern? l with
  | some r => (braceLoop least limit r content (r.all content)).map sortedByLine
  | none => indentedLoop least limit 1 (Text.lines content)

theorem braceLoop_eq (r : Regex) (content : List Char) (hits : List Regex.Hit) :
    braceLoop least limit r content hits = gauge.chosen least limit (hits.filterMap (documentedAt? r content)) := by
  induction hits with
  | nil => rfl
  | cons h rest ih =>
    rw [braceLoop, List.filterMap_cons]
    cases documentedAt? r content h with
    | none => exact ih
    | some d => exact gauge.turn_eq_chosen least limit d ih

theorem indentedLoop_eq (number : Nat) (lines : List Line) :
    indentedLoop least limit number lines = gauge.chosen least limit (indentedFunctions number lines) := by
  induction lines generalizing number with
  | nil => rfl
  | cons line rest ih =>
    rw [indentedLoop, indentedFunctions]
    cases documentedOn? number line rest with
    | none => exact ih (number + 1)
    | some d => exact gauge.turn_eq_chosen least limit d (ih (number + 1))

theorem loop_eq (l : Language) (content : List Char) :
    loop least limit l content = gauge.chosen least limit (functions l content) := by
  rw [loop, functions]
  cases pattern? l with
  | none => exact indentedLoop_eq least limit 1 (Text.lines content)
  | some r =>
    refine (congrArg (Except.map sortedByLine) (braceLoop_eq least limit r content (r.all content))).trans ?_
    refine (gauge.chosen_mergeSort least limit ?_ ?_ _ ?_).symm
    · simp only [decide_eq_true_eq]
      exact fun _ _ _ => Nat.le_trans
    · simp only [Bool.or_eq_true, decide_eq_true_eq]
      exact fun a b => Nat.le_total a.line b.line
    · intro a b
      exact decide_eq_decide.mpr Int.ofNat_le.symm

theorem violations_eq (content : List Char) (tag : String) :
    violations content least limit tag =
      inLanguage tag fun l => gauge.chosen least limit (functions l content) := by
  rw [violations, inLanguage]
  cases Language.ofTag? tag <;> rfl

end Documentation

namespace Commentary

variable (least : Int) (limit : Quantity)

def gauge : Gauge Commented where
  key := "comment_lines"
  part b := b.counts.comment
  code b := b.counts.code
  report := toViolation
  counts_report _ _ := rfl
  relabelled_report _ _ _ := rfl

/-- The loop over declarations; `resume` is where the last measured body ended, reported or not. -/
def braceLoop (l : Language) (r : Regex) (content : List Char) (resume : Nat) :
    List Regex.Hit → Except Fault (List Violation)
  | [] => .ok []
  | h :: rest =>
    if h.start < resume || !isDeclaration l r content h then braceLoop l r content resume rest
    else
      match braceAfter? content h.stop with
      | none => braceLoop l r content resume rest
      | some opening =>
        match closing? content opening with
        | none => braceLoop l r content resume rest
        | some closing =>
          gauge.turn least limit
            { line := Text.lineAt content h.start
              start := opening + 1
              stop := closing
              counts := classify l.marks (between content opening closing) }
            (braceLoop l r content closing rest)

/-- The loop over lines; the first `covered` of them belong to a body already measured, reported or not. -/
def indentedLoop (number covered : Nat) : List Line → Except Fault (List Violation)
  | [] => .ok []
  | line :: rest =>
    match covered with
    | more + 1 => indentedLoop (number + 1) more rest
    | 0 =>
      match header? line rest with
      | none => indentedLoop (number + 1) 0 rest
      | some (indent, signature) =>
        let body := (rest.drop signature).takeWhile (isInside indent)
        let start := number + signature + 1
        gauge.turn least limit
          { line := number
            start
            stop := start + body.length
            counts := classifyFrom Language.pythonMarks false body }
          (indentedLoop (number + 1) (signature + body.length) rest)

def loop (l : Language) (content : List Char) : Except Fault (List Violation) :=
  match pattern? l with
  | some r => braceLoop least limit l r content 0 (r.all content)
  | none => indentedLoop least limit 1 0 (Text.lines content)

theorem braceLoop_eq (l : Language) (r : Regex) (content : List Char) (resume : Nat) (hits : List Regex.Hit) :
    braceLoop least limit l r content resume hits =
      gauge.chosen least limit (braceBodiesFrom l r content resume hits) := by
  induction hits generalizing resume with
  | nil => rfl
  | cons h rest ih =>
    rw [braceLoop, braceBodiesFrom]
    split
    next => exact ih resume
    next =>
      cases braceAfter? content h.stop with
      | none => exact ih resume
      | some opening =>
        dsimp only
        cases closing? content opening with
        | none => exact ih resume
        -- The next turn resumes behind this body, whatever was decided of it.
        | some closing => exact gauge.turn_eq_chosen least limit _ (ih closing)

theorem indentedLoop_eq (number covered : Nat) (lines : List Line) :
    indentedLoop least limit number covered lines =
      gauge.chosen least limit (indentedBodiesFrom number covered lines) := by
  induction lines generalizing number covered with
  | nil => rfl
  | cons line rest ih =>
    rw [indentedLoop.eq_def, indentedBodiesFrom.eq_def]
    dsimp only
    cases covered with
    | succ more => exact ih (number + 1) more
    | zero =>
      dsimp only
      cases header? line rest with
      | none => exact ih (number + 1) 0
      | some found => exact gauge.turn_eq_chosen least limit _ (ih (number + 1) _)

theorem loop_eq (l : Language) (content : List Char) :
    loop least limit l content = gauge.chosen least limit (bodies l content) := by
  rw [loop, bodies]
  cases pattern? l with
  | none => exact indentedLoop_eq least limit 1 0 (Text.lines content)
  | some r => exact braceLoop_eq least limit l r content 0 (r.all content)

theorem violations_eq (content : List Char) (tag : String) :
    violations content least limit tag =
      inLanguage tag fun l => gauge.chosen least limit (bodies l content) := by
  rw [violations, inLanguage]
  cases Language.ofTag? tag <;> rfl

end Commentary

/-! ## Both measures -/

/-- Whatever the text and its language, thresholds only choose what either measure reports, although each decides
while it goes over the text. -/
theorem thresholds_only_select (content : List Char) (tag : String) {least : Int} {limit : Quantity}
    (pos : 1 ≤ least) (nonneg : limit.IsNonnegative) :
    OnlySelects "doc_lines" (fun least limit => Documentation.violations content least limit tag) least limit ∧
      OnlySelects "comment_lines" (fun least limit => Commentary.violations content least limit tag) least limit ∧
      ∀ least limit,
        Documentation.violations content least limit tag =
            inLanguage tag (fun l => Documentation.loop least limit l content) ∧
          Commentary.violations content least limit tag =
            inLanguage tag fun l => Commentary.loop least limit l content := by
  refine ⟨?_, ?_, fun least limit => ⟨?_, ?_⟩⟩
  · simp only [Documentation.violations_eq]
    exact Documentation.gauge.selects_inLanguage pos nonneg tag _
  · simp only [Commentary.violations_eq]
    exact Commentary.gauge.selects_inLanguage pos nonneg tag _
  · simp only [Documentation.violations_eq, Documentation.loop_eq]
  · simp only [Commentary.violations_eq, Commentary.loop_eq]

/-- Two functions with one line of code, documented by three lines and by two. -/
def documentedText : List Char :=
  "def f():\n  '''a\n  b\n  c'''\n  x\ndef g():\n  '''a\n  b'''\n  x".toList

theorem functions_documentedText :
    Documentation.functions .python documentedText = [⟨1, "f", 3, 1⟩, ⟨6, "g", 2, 1⟩] := by
  decide +kernel

/-- Where two lines are allowed only the first of the two functions is reported. -/
theorem thresholds_only_select_documentedText :
    1 ≤ (1 : Int) ∧ (Quantity.whole 2).IsNonnegative ∧
      (Documentation.violations documentedText 1 (.whole 2) "python").toOption.map (List.map (·.line)) =
        some [some 1] ∧
      OnlySelects "doc_lines" (fun least limit => Documentation.violations documentedText least limit "python") 1
        (.whole 2) := by
  have pos : 1 ≤ (1 : Int) := by decide
  have nonneg : (Quantity.whole 2).IsNonnegative := show (0 : Int) ≤ 2 by decide
  refine ⟨pos, nonneg, ?_, (thresholds_only_select documentedText "python" pos nonneg).1⟩
  have python : Language.ofTag? "python" = some .python := by decide
  simp only [Documentation.violations_eq, inLanguage, python, functions_documentedText]
  rfl

end CodeHygiene.Measure
