import CodeHygiene.Proofs.Declarations
import CodeHygiene.Proofs.Position
import CodeHygiene.Proofs.Returns
import CodeHygiene.Proofs.Thresholds

/-!
How far a docstring reaches.

A docstring opens on the line below a declaration. It goes on to the first line that holds its quote again, the opening
line included, or to the end where there is none; what stands below is the body.

Proved:
(1) What is told of a declaration is all that is found on its line (`mem_functions_iff`) and all that is reported there
    (`exists_told_of_mem`).
(2) A docstring that is open is read up to the first line that holds its quote (`docstringRest_eq`).
(3) On the opening line only a quote at the very end is taken for the closing one. So a docstring is measured as far as
    it reaches unless text follows its closing quote there, and there are more lines of text to run on into
    (`docstring_extent`). With a comment behind it a docstring of one line takes the body with it
    (`body_behind_docstring_is_documentation`).
-/

namespace CodeHygiene.Measure.Documentation

/-! ## Functions of a line -/

/-- The functions of a line are what is told of it. -/
theorem mem_functions_iff {content : List Char} {above rest : List Line} {line : Line}
    (lines : Text.lines content = above ++ line :: rest) (d : Documented) :
    d ∈ functions .python content ∧ d.line = above.length + 1 ↔
      ∃ t, told counted? line rest = some t ∧ d = .ofTold (above.length + 1, t) := by
  rw [functions_eq_of_lines lines, List.mem_map, Nat.add_comm above.length 1]
  constructor
  · rintro ⟨⟨⟨number, t⟩, mem, rfl⟩, here⟩
    obtain rfl : number = 1 + above.length := here
    exact ⟨t, (mem_numbered_iff 1 above line rest t).mp mem, rfl⟩
  · rintro ⟨t, told, rfl⟩
    exact ⟨⟨_, (mem_numbered_iff 1 above line rest t).mpr told, rfl⟩, rfl⟩

/-- What is reported on a line is what is told of it. -/
theorem exists_told_of_mem {content : List Char} {above rest : List Line} {line : Line}
    (lines : Text.lines content = above ++ line :: rest) {least : Int} {limit : Quantity} {found : List Violation}
    (run : violations content least limit Language.python.tag = .ok found) {v : Violation} (mem : v ∈ found)
    (here : v.line = some (Int.ofNat (above.length + 1))) :
    ∃ t, told counted? line rest = some t ∧ v = toViolation limit (.ofTold (above.length + 1, t)) := by
  rw [violations, Language.ofTag?_tag] at run
  obtain ⟨chosen, chose, told⟩ := bind_eq_ok_iff.mp run
  cases pure_eq_ok_iff.mp told
  obtain ⟨d, inside, rfl⟩ := List.mem_map.mp mem
  obtain ⟨t, told, rfl⟩ := (mem_functions_iff lines d).mp
    ⟨mem_of_mem_select chose inside, Int.ofNat.inj (Option.some.inj here)⟩
  exact ⟨t, told, rfl⟩

/-! ## Docstrings -/

/-- How many lines there are up to the first one that holds a quote; all of them where none does. -/
def linesTo (quote : List Char) (lines : List Line) : Nat :=
  ((lines.findIdx? (Text.holds quote)).map (· + 1)).getD lines.length

theorem linesTo_cons (quote : List Char) (line : Line) (rest : List Line) :
    linesTo quote (line :: rest) = if Text.holds quote line then 1 else linesTo quote rest + 1 := by
  rw [linesTo, linesTo, List.findIdx?_cons]
  split
  · rfl
  · cases rest.findIdx? (Text.holds quote) <;> rfl

def countText (lines : List Line) : Nat := lines.countP fun line => !Text.isBlankLine line

theorem isBlankLine_of_holds {quote : List Char} (among : quote ∈ tripleQuotes) {line : Line}
    (holds : Text.holds quote line = true) : Text.isBlankLine line = false := by
  have visible : ∀ quote ∈ tripleQuotes, quote.any (fun c => !Text.isBlank c) = true := by decide
  obtain ⟨c, mem, visible⟩ := List.any_eq_true.mp (visible quote among)
  by_contra blank
  have all := List.all_eq_true.mp (Bool.not_eq_false _ ▸ blank) c ((Text.holds_iff.mp holds).subset mem)
  rw [all] at visible
  cases visible

/-- A docstring that is open is read up to the first line that holds its quote. -/
theorem docstringRest_eq (quote : List Char) (rest : List Line) :
    docstringRest quote rest = (countText (rest.take (linesTo quote rest)), rest.drop (linesTo quote rest)) := by
  induction rest with
  | nil => rfl
  | cons line rest ih =>
    rw [docstringRest, linesTo_cons]
    cases closes : Text.holds quote line with
    | true => cases blank : Text.isBlankLine line <;> simp [countText, blank]
    | false => cases blank : Text.isBlankLine line <;> simp [ih, countText, blank, Nat.add_comm 1]

/-- All lines that a docstring has left are blank where none of those up to its quote counts. -/
theorem countText_take_linesTo {quote : List Char} (among : quote ∈ tripleQuotes) (rest : List Line) :
    countText (rest.take (linesTo quote rest)) = 0 ↔ ∀ line ∈ rest, Text.isBlankLine line = true := by
  induction rest with
  | nil => simp [countText]
  | cons line rest ih =>
    rw [linesTo_cons]
    cases closes : Text.holds quote line with
    | true =>
      have text := isBlankLine_of_holds among closes
      simp [countText, text]
    | false =>
      cases blank : Text.isBlankLine line with
      | false => simp [countText, blank]
      | true => simpa [countText, blank] using ih

/-- What stands behind an opening quote on its line. -/
def behindQuote (opening : Line) : Line := (Text.trim opening).drop 3

/-- Whether a docstring is taken for closed where it opens. -/
def closesAtOnce (quote : List Char) (opening : Line) : Bool :=
  6 ≤ (Text.trim opening).length && Text.endsWith quote (Text.trim opening)

theorem endsWith_iff {piece text : List Char} : Text.endsWith piece text = true ↔ piece <:+ text := by
  rw [Text.endsWith, Text.startsWith_iff, List.reverse_prefix]

variable {quote : List Char} {opening : Line} {rest : List Line}

theorem length_of_mem_tripleQuotes (among : quote ∈ tripleQuotes) : quote.length = 3 := by
  have lengths : ∀ quote ∈ tripleQuotes, quote.length = 3 := by decide
  exact lengths quote among

theorem find?_tripleQuotes (among : quote ∈ tripleQuotes) {text : List Char} (opens : Text.startsWith quote text = true) :
    tripleQuotes.find? (fun q => Text.startsWith q text) = some quote := by
  obtain ⟨rest, rfl⟩ := Text.startsWith_iff.mp opens
  rcases List.mem_cons.mp among with rfl | among
  · exact List.find?_cons_of_pos opens
  · obtain rfl := List.mem_singleton.mp among
    rfl

/-- It is taken for closed there only where its quote stands on the line again, and ends it. -/
theorem closesAtOnce_iff (among : quote ∈ tripleQuotes) (opens : Text.startsWith quote (Text.trim opening) = true) :
    closesAtOnce quote opening = true ↔
      Text.holds quote (behindQuote opening) = true ∧ Text.endsWith quote (Text.trim opening) = true := by
  have length := length_of_mem_tripleQuotes among
  obtain ⟨behind, eq⟩ := Text.startsWith_iff.mp opens
  have drop : behindQuote opening = behind := by
    rw [behindQuote, ← eq, ← length]
    exact List.drop_left
  rw [closesAtOnce, Bool.and_eq_true, decide_eq_true_eq, endsWith_iff, drop, Text.holds_iff, ← eq, List.length_append, length]
  refine and_congr_left fun ends => ⟨fun long => ?_, fun holds => ?_⟩
  · exact (List.suffix_of_suffix_length_le ends (List.suffix_append quote behind) (by omega)).isInfix
  · have := holds.length_le
    omega

theorem docstring_of_none (opens : tripleQuotes.find? (fun q => Text.startsWith q (Text.trim opening)) = none) :
    docstring (opening :: rest) = (0, opening :: rest) := by
  rw [docstring, opens]

theorem docstring_of_some (opens : tripleQuotes.find? (fun q => Text.startsWith q (Text.trim opening)) = some quote) :
    docstring (opening :: rest) =
      if closesAtOnce quote opening then (1, rest) else ((docstringRest quote rest).1 + 1, (docstringRest quote rest).2) := by
  rw [docstring]
  simp only [opens]
  rfl

theorem isBlankLine_of_opens (among : quote ∈ tripleQuotes) (opens : Text.startsWith quote (Text.trim opening) = true) :
    Text.isBlankLine opening = false := by
  refine Text.isBlankLine_of_trim fun empty => ?_
  have short := (Text.startsWith_iff.mp opens).length_le
  rw [length_of_mem_tripleQuotes among, empty] at short
  exact absurd short (by decide)

theorem countCode_of_blank {indent : Nat} {body : List Line} (blank : ∀ line ∈ body, Text.isBlankLine line = true) :
    countCode indent body = 0 := by
  refine List.countP_eq_zero.mpr fun line mem => ?_
  simp [blank line (List.takeWhile_subset _ mem)]

/-! ## Extent -/

/-- How many lines a docstring takes: up to the first one on which its quote stands behind the opening one. -/
def extent (quote : List Char) (opening : Line) (rest : List Line) : Nat := linesTo quote (behindQuote opening :: rest)

/-- The lines of a docstring that are not blank, and the code below them. -/
def extentCounts (indent : Nat) (quote : List Char) (opening : Line) (rest : List Line) : Nat × Nat :=
  (countText ((opening :: rest).take (extent quote opening rest)),
    countCode indent ((opening :: rest).drop (extent quote opening rest)))

/-- Where the quote stands on the opening line again, it ends it. -/
def QuoteEndsLine (quote : List Char) (opening : Line) : Prop :=
  Text.holds quote (behindQuote opening) = true → Text.endsWith quote (Text.trim opening) = true

/-- The counts go as far as the docstring reaches unless text follows the closing quote on the opening line, and not all
lines below are blank. -/
theorem exists_counts (among : quote ∈ tripleQuotes) (opens : Text.startsWith quote (Text.trim opening) = true)
    (indent : Nat) (rest : List Line) : ∃ counts, counted? indent (opening :: rest) = some counts ∧
      (counts = extentCounts indent quote opening rest ↔
        QuoteEndsLine quote opening ∨ ∀ line ∈ rest, Text.isBlankLine line = true) := by
  have text : countText [opening] = 1 := by simp [countText, isBlankLine_of_opens among opens]
  have once := closesAtOnce_iff among opens
  rw [counted?, docstring_of_some (find?_tripleQuotes among opens), docstringRest_eq, extentCounts, extent, linesTo_cons,
    QuoteEndsLine]
  cases again : Text.holds quote (behindQuote opening) with
  | false =>
    have goesOn : closesAtOnce quote opening = false := by
      rw [again] at once
      simpa using once
    refine ⟨_, by rw [goesOn]; rfl, iff_of_true ?_ (.inl fun again => absurd again (by decide))⟩
    simp [countText, isBlankLine_of_opens among opens]
  | true =>
    cases ends : Text.endsWith quote (Text.trim opening) with
    | true =>
      have closes : closesAtOnce quote opening = true := once.mpr ⟨again, ends⟩
      refine ⟨_, by rw [closes]; rfl, iff_of_true ?_ (.inl fun _ => rfl)⟩
      simp [text]
    | false =>
      have goesOn : closesAtOnce quote opening = false := by
        rw [ends] at once
        simpa using once
      refine ⟨_, by rw [goesOn]; rfl, ?_⟩
      -- One line is counted too many for every line of text up to the next quote.
      have same := countText_take_linesTo among rest
      simp only [if_true, List.take_succ_cons, List.take_zero, text, List.drop_succ_cons, List.drop_zero,
        Prod.mk.injEq, true_implies, Bool.false_eq_true, if_false, false_or, ← same]
      refine ⟨fun h => by have := h.1; omega, fun none => ⟨by rw [none], ?_⟩⟩
      have blank := same.mp none
      rw [countCode_of_blank blank, countCode_of_blank fun line mem => blank line (List.mem_of_mem_drop mem)]

/-- Of a function whose docstring opens on the line below its declaration, the lines of the docstring that are not blank
and the lines of code below it are counted, and no others, unless text follows the closing quote on the opening line and
not all lines below are blank; exactly then. One function is found on the line of the declaration, and that is what is
reported there under any thresholds. -/
theorem docstring_extent {content : List Char} {above rest : List Line} {line opening : Line} {quote : List Char}
    (lines : Text.lines content = above ++ line :: opening :: rest) (declares : (defPattern.atStart? line).isSome = true)
    (among : quote ∈ tripleQuotes) (opens : Text.startsWith quote (Text.trim opening) = true) :
    ∃ indent name counts, declared? line = some (indent, name) ∧
      (∀ d, d ∈ functions .python content ∧ d.line = above.length + 1 ↔ d = .ofTold (above.length + 1, name, counts)) ∧
      (∀ least limit found, violations content least limit "python" = .ok found →
        ∀ v ∈ found, v.line = some (Int.ofNat (above.length + 1)) →
          v = toViolation limit (.ofTold (above.length + 1, name, counts))) ∧
      (counts = extentCounts indent quote opening rest ↔
        QuoteEndsLine quote opening ∨ ∀ line ∈ rest, Text.isBlankLine line = true) := by
  obtain ⟨indent, name, declared⟩ := exists_declared declares
  obtain ⟨counts, counted, reaches⟩ := exists_counts among opens indent rest
  have here : told counted? line (opening :: rest) = some (name, counts) := by
    rw [told, declared, Option.bind_some, counted]
    rfl
  refine ⟨indent, name, counts, declared, fun d => ?_, fun least limit found run v mem on => ?_, reaches⟩
  · rw [mem_functions_iff lines, here]
    simp
  · obtain ⟨t, told, rfl⟩ := exists_told_of_mem lines run mem on
    rw [Option.some.inj (here.symm.trans told)]

/-- A docstring with a blank line, and a line of code. -/
def blankInside : List Char := "def f():\n  '''a\n\n  b'''\n  x".toList

/-- The blank line does not count. -/
theorem docstring_extent_blankInside :
    Text.lines blankInside = [] ++ "def f():".toList :: "  '''a".toList :: ["".toList, "  b'''".toList, "  x".toList] ∧
      (defPattern.atStart? "def f():".toList).isSome = true ∧ "'''".toList ∈ tripleQuotes ∧
      Text.startsWith "'''".toList (Text.trim "  '''a".toList) = true ∧
      ⟨1, "f", 2, 1⟩ ∈ functions .python blankInside := by
  have lines : Text.lines blankInside =
      [] ++ "def f():".toList :: "  '''a".toList :: ["".toList, "  b'''".toList, "  x".toList] := by decide
  have declares : (defPattern.atStart? "def f():".toList).isSome = true := by decide +kernel
  have among : "'''".toList ∈ tripleQuotes := by decide
  have opens : Text.startsWith "'''".toList (Text.trim "  '''a".toList) = true := by decide
  obtain ⟨indent, name, counts, declared, on, -, same⟩ := docstring_extent lines declares among opens
  have function : declared? "def f():".toList = some (0, "f") := by decide +kernel
  cases function.symm.trans declared
  have ends : QuoteEndsLine "'''".toList "  '''a".toList := by
    rw [QuoteEndsLine]
    decide
  have counted : extentCounts 0 "'''".toList "  '''a".toList ["".toList, "  b'''".toList, "  x".toList] = (2, 1) := by decide
  have reaches := (same.mpr (.inl ends)).trans counted
  exact ⟨lines, declares, among, opens, ((on _).mpr (by rw [reaches]; rfl)).1⟩

/-- A docstring of one line with a comment behind it, and another string in the body. -/
def commentBehind : List Char := "def f():\n  '''a''' # b\n  x\n  '''c'''\n  y".toList

theorem functions_commentBehind : functions .python commentBehind = [⟨1, "f", 3, 1⟩] := by decide +kernel

/-- The docstring takes one line and leaves three of code. Measured are three lines and one, and they are reported. -/
theorem body_behind_docstring_is_documentation :
    Text.lines commentBehind = [] ++ "def f():".toList :: "  '''a''' # b".toList ::
        ["  x".toList, "  '''c'''".toList, "  y".toList] ∧
      declared? "def f():".toList = some (0, "f") ∧ "'''".toList ∈ tripleQuotes ∧
      Text.startsWith "'''".toList (Text.trim "  '''a''' # b".toList) = true ∧
      extentCounts 0 "'''".toList "  '''a''' # b".toList ["  x".toList, "  '''c'''".toList, "  y".toList] = (1, 3) ∧
      violations commentBehind 1 (.whole 1) "python" = .ok [toViolation (.whole 1) ⟨1, "f", 3, 1⟩] := by
  have python : Language.ofTag? "python" = some .python := by decide
  refine ⟨by decide, by decide +kernel, by decide, by decide, by decide, ?_⟩
  rw [violations_eq, inLanguage, python]
  simp only [functions_commentBehind]
  rfl

end CodeHygiene.Measure.Documentation
