import CodeHygiene.Text.Lines
import Mathlib.Data.List.TakeWhile
import Mathlib.Tactic.Conv

/-!
Where the lines of a text stand.

Proved:
(1) No line holds a line feed (`not_mem_of_mem_lines`), and a text that is cut in two has its lines in the
    two parts, with the line that was cut in both (`lines_append`).
(2) A line stands in the text at the offset where it begins (`drop_lineStart`).
(3) Every offset is in one line, at its column (`exists_line_of_offset`); so line and column lead back to
    the offset (`lineStart_add_columnAt`), and the line is one of the text whatever the offset
    (`lineAt_le`).
(4) What is quoted of a line does not depend on the carriage returns that end it (`trim_dropReturns`). What is trimmed are
    the blanks on both sides (`exists_eq_trim`), and nothing is left of a blank line only (`trim_isEmpty`).
-/

namespace CodeHygiene.Text

/-- The offset at which a line begins, by its number counted from one. -/
def lineStart (text : List Char) (number : Nat) : Nat :=
  (((lines text).take (number - 1)).flatMap (· ++ ['\n'])).length

/-! ## Lines and texts -/

theorem lines_cons_lineFeed (text : List Char) : lines ('\n' :: text) = [] :: lines text := by
  simp [lines, splitAt]

theorem lines_cons {c : Char} (ne : c ≠ '\n') {text first : List Char} {more : List (List Char)}
    (eq : lines text = first :: more) : lines (c :: text) = (c :: first) :: more := by
  rw [lines] at eq ⊢
  rw [splitAt, if_neg ne, eq]

/-- A text without a line feed is one line. -/
theorem lines_of_clean {line : List Char} (clean : '\n' ∉ line) : lines line = [line] := by
  induction line with
  | nil => rfl
  | cons c line ih =>
    obtain ⟨ne, others⟩ : '\n' ≠ c ∧ '\n' ∉ line := by simpa using clean
    exact lines_cons (Ne.symm ne) (ih others)

theorem exists_lines_eq_cons (text : List Char) : ∃ first more, lines text = first :: more :=
  List.exists_cons_of_ne_nil (lines_ne_nil text)

theorem not_mem_of_mem_lines {text line : List Char} (mem : line ∈ lines text) : '\n' ∉ line := by
  induction text generalizing line with
  | nil =>
    obtain rfl : line = [] := List.mem_singleton.mp mem
    exact List.not_mem_nil
  | cons c rest ih =>
    by_cases h : c = '\n'
    · subst h
      rw [lines_cons_lineFeed] at mem
      rcases List.mem_cons.mp mem with rfl | later
      · exact List.not_mem_nil
      · exact ih later
    · obtain ⟨first, more, eq⟩ := exists_lines_eq_cons rest
      rw [lines_cons h eq] at mem
      rcases List.mem_cons.mp mem with rfl | later
      · have clean : '\n' ∉ first := ih (by rw [eq]; exact List.mem_cons_self)
        simp [Ne.symm h, clean]
      · exact ih (by rw [eq]; exact List.mem_cons_of_mem first later)

/-- Where a text is cut in two, the line that is cut has its end in the first part and the rest in the second. -/
theorem lines_append (a b : List Char) : ∃ init last first more,
    lines a = init ++ [last] ∧ lines b = first :: more ∧ lines (a ++ b) = init ++ (last ++ first) :: more := by
  induction a with
  | nil =>
    obtain ⟨first, more, eq⟩ := exists_lines_eq_cons b
    exact ⟨[], [], first, more, rfl, eq, eq⟩
  | cons c rest ih =>
    obtain ⟨init, last, first, more, ofFront, ofBack, ofBoth⟩ := ih
    by_cases h : c = '\n'
    · subst h
      refine ⟨[] :: init, last, first, more, ?_, ofBack, ?_⟩
      · rw [lines_cons_lineFeed, ofFront, List.cons_append]
      · rw [List.cons_append, lines_cons_lineFeed, ofBoth, List.cons_append]
    · cases init with
      | nil => exact ⟨[], c :: last, first, more, lines_cons h ofFront, ofBack, lines_cons h ofBoth⟩
      | cons line init =>
        exact ⟨(c :: line) :: init, last, first, more, lines_cons h ofFront, ofBack, lines_cons h ofBoth⟩

theorem unlines_append_cons (init : List (List Char)) (line : List Char) (more : List (List Char)) :
    unlines (init ++ line :: more) = init.flatMap (· ++ ['\n']) ++ unlines (line :: more) := by
  induction init with
  | nil => rfl
  | cons first init ih =>
    rw [List.cons_append, unlines_cons (by simp), ih, List.flatMap_cons, List.append_assoc, List.append_assoc]
    rfl

theorem eq_of_lines_eq {text line : List Char} {init more : List (List Char)} (eq : lines text = init ++ line :: more) :
    text = init.flatMap (· ++ ['\n']) ++ unlines (line :: more) := by
  rw [← unlines_append_cons, ← eq, unlines_lines]

theorem lineStart_of_lines_eq {text line : List Char} {init more : List (List Char)}
    (eq : lines text = init ++ line :: more) :
    lineStart text (init.length + 1) = (init.flatMap (· ++ ['\n'])).length := by
  rw [lineStart, eq, Nat.add_sub_cancel, List.take_left]

/-! ## Lines by number -/

theorem exists_lines_eq_of_getElem? {text line : List Char} {n : Nat} (there : (lines text)[n]? = some line) :
    ∃ init more, lines text = init ++ line :: more ∧ init.length = n := by
  obtain ⟨lt, eq⟩ := List.getElem?_eq_some_iff.mp there
  refine ⟨(lines text).take n, (lines text).drop (n + 1), ?_, List.length_take_of_le (Nat.le_of_lt lt)⟩
  rw [← eq, List.getElem_cons_drop, List.take_append_drop]

/-- A line is what stands in the text where it begins. -/
theorem drop_lineStart {text line : List Char} {n : Nat} (there : (lines text)[n]? = some line) :
    line <+: text.drop (lineStart text (n + 1)) := by
  obtain ⟨init, more, eq, rfl⟩ := exists_lines_eq_of_getElem? there
  have begins : line <+: unlines (line :: more) := by
    cases more with
    | nil => exact List.prefix_refl line
    | cons next more => exact List.prefix_append line _
  have rest : text.drop (lineStart text (init.length + 1)) = unlines (line :: more) := by
    conv_lhs => rw [lineStart_of_lines_eq eq, eq_of_lines_eq eq]
    exact List.drop_left
  rwa [rest]

/-! ## Offsets -/

/-- What stands before an offset on its line is the end of the text up to it. -/
theorem takeWhile_reverse_of_lines_eq {front last : List Char} {init : List (List Char)}
    (eq : lines front = init ++ [last]) : front.reverse.takeWhile (· ≠ '\n') = last.reverse := by
  have clean : '\n' ∉ last := not_mem_of_mem_lines (by rw [eq]; simp)
  have whole : ∀ c ∈ last.reverse, decide (c ≠ '\n') = true := by
    intro c mem
    have ne : c ≠ '\n' := fun h => clean (h ▸ List.mem_reverse.mp mem)
    exact decide_eq_true ne
  have before : (init.flatMap (· ++ ['\n'])).reverse.takeWhile (· ≠ '\n') = [] := by
    rcases List.eq_nil_or_concat init with rfl | ⟨others, line, rfl⟩
    · rfl
    · simp
  rw [eq_of_lines_eq eq, List.reverse_append, unlines, List.takeWhile_append_of_pos whole, before, List.append_nil]

/-- An offset is in a line, after some of its characters. -/
theorem exists_line_of_offset {text : List Char} {offset : Nat} (le : offset ≤ text.length) :
    ∃ init last first more, lines text = init ++ (last ++ first) :: more ∧
      lineAt text offset = init.length + 1 ∧ columnAt text offset = last.length + 1 ∧
      lineStart text (init.length + 1) + last.length = offset := by
  obtain ⟨init, last, first, more, ofFront, -, ofBoth⟩ := lines_append (text.take offset) (text.drop offset)
  rw [List.take_append_drop] at ofBoth
  have long : (text.take offset).length = offset := List.length_take_of_le le
  refine ⟨init, last, first, more, ofBoth, ?_, ?_, ?_⟩
  · have count := length_lines (text.take offset)
    rw [ofFront, List.length_append, List.length_singleton] at count
    rw [lineAt]
    omega
  · rw [columnAt, takeWhile_reverse_of_lines_eq ofFront, List.length_reverse]
  · have split := congrArg List.length (eq_of_lines_eq ofFront)
    rw [List.length_append, long] at split
    rw [lineStart_of_lines_eq ofBoth]
    exact split.symm

/-- Line and column lead back to the offset, and the column is one of the line or right behind it. -/
theorem lineStart_add_columnAt {text : List Char} {offset : Nat} (le : offset ≤ text.length) :
    ∃ line, (lines text)[lineAt text offset - 1]? = some line ∧ columnAt text offset ≤ line.length + 1 ∧
      lineStart text (lineAt text offset) + columnAt text offset = offset + 1 := by
  obtain ⟨init, last, first, more, eq, line, column, start⟩ := exists_line_of_offset le
  refine ⟨last ++ first, ?_, ?_, ?_⟩
  · rw [line, eq, Nat.add_sub_cancel, List.getElem?_append_right (Nat.le_refl _), Nat.sub_self, List.getElem?_cons_zero]
  · rw [column, List.length_append]
    omega
  · rw [line, column]
    omega

theorem lineAt_pos (text : List Char) (offset : Nat) : 1 ≤ lineAt text offset := Nat.le_add_left 1 _

theorem lineAt_le (text : List Char) (offset : Nat) : lineAt text offset ≤ (lines text).length := by
  have fewer : (text.take offset).count '\n' ≤ text.count '\n' := (List.take_sublist offset text).count_le '\n'
  rw [length_lines, lineAt]
  omega

/-! ## Ends of lines -/

theorem isBlank_carriageReturn : isBlank '\r' = true := by decide

/-- A line is its part without the carriage returns that end it, and these. -/
theorem exists_eq_dropReturns_append (line : List Char) :
    ∃ returns, line = dropReturns line ++ returns ∧ ∀ c ∈ returns, c = '\r' := by
  refine ⟨(line.reverse.takeWhile (· = '\r')).reverse, ?_, fun c mem => ?_⟩
  · rw [dropReturns, ← List.reverse_append, List.takeWhile_append_dropWhile, List.reverse_reverse]
  · simpa using List.mem_takeWhile_imp (List.mem_reverse.mp mem)

theorem length_dropReturns_le (line : List Char) : (dropReturns line).length ≤ line.length := by
  obtain ⟨returns, eq, -⟩ := exists_eq_dropReturns_append line
  have split := congrArg List.length eq
  rw [List.length_append] at split
  omega

theorem dropReturns_prefix (line : List Char) : dropReturns line <+: line := by
  obtain ⟨returns, eq, -⟩ := exists_eq_dropReturns_append line
  exact ⟨returns, eq.symm⟩

theorem trimRight_append {line blanks : List Char} (blank : ∀ c ∈ blanks, isBlank c = true) :
    trimRight (line ++ blanks) = trimRight line := by
  have all : ∀ c ∈ blanks.reverse, isBlank c = true := fun c mem => blank c (List.mem_reverse.mp mem)
  rw [trimRight, trimRight, List.reverse_append, List.dropWhile_append_of_pos all]

/-- Blanks at the end do not show in what is left of a line when it is trimmed. -/
theorem trim_append {line blanks : List Char} (blank : ∀ c ∈ blanks, isBlank c = true) :
    trim (line ++ blanks) = trim line := by
  rw [trim, trim, trimLeft, trimLeft, List.dropWhile_append]
  split
  next empty =>
    rw [List.isEmpty_iff.mp empty, List.dropWhile_eq_nil_iff.mpr blank]
  next => exact trimRight_append blank

theorem trim_dropReturns (line : List Char) : trim (dropReturns line) = trim line := by
  obtain ⟨returns, eq, all⟩ := exists_eq_dropReturns_append line
  conv_rhs => rw [eq]
  exact (trim_append fun c mem => by rw [all c mem]; exact isBlank_carriageReturn).symm

/-! ## Trimming -/

theorem isBlankLine_of_trim {line : List Char} (some : trim line ≠ []) : isBlankLine line = false := by
  by_contra blank
  have all : ∀ c ∈ line, isBlank c = true := List.all_eq_true.mp (by simpa [isBlankLine] using blank)
  refine some ?_
  rw [trim, trimLeft, List.dropWhile_eq_nil_iff.mpr all]
  rfl

theorem trimLeft_eq_nil_of_blank {line : List Char} (blank : ∀ c ∈ trimLeft line, isBlank c = true) : trimLeft line = [] := by
  unfold trimLeft at blank ⊢
  rw [List.dropWhile_eq_nil_iff]
  by_contra some
  have left : line.dropWhile isBlank ≠ [] := fun none => some (List.dropWhile_eq_nil_iff.mp none)
  have first := List.head_dropWhile_not isBlank left
  rw [blank _ (List.head_mem left)] at first
  cases first

theorem trim_isEmpty (line : List Char) : (trim line).isEmpty = isBlankLine line := by
  by_cases empty : trim line = []
  · have back := List.dropWhile_eq_nil_iff.mp (List.reverse_eq_nil_iff.mp empty)
    have gone := trimLeft_eq_nil_of_blank fun c mem => back c (List.mem_reverse.mpr mem)
    have all : isBlankLine line = true := List.all_eq_true.mpr (List.dropWhile_eq_nil_iff.mp gone)
    rw [empty, all]
    rfl
  · rw [isBlankLine_of_trim empty]
    simpa using empty

theorem trim_of_blank {line : List Char} (blank : isBlankLine line = true) : trim line = [] :=
  List.isEmpty_iff.mp ((trim_isEmpty line).trans blank)

theorem exists_trimLeft_eq (line : List Char) : ∃ back, trimLeft line = trim line ++ back ∧ ∀ c ∈ back, isBlank c = true := by
  refine ⟨((trimLeft line).reverse.takeWhile isBlank).reverse, ?_, fun c mem => List.mem_takeWhile_imp (List.mem_reverse.mp mem)⟩
  rw [trim, trimRight, ← List.reverse_append, List.takeWhile_append_dropWhile, List.reverse_reverse]

/-- What is trimmed are the blanks on both sides. -/
theorem exists_eq_trim (line : List Char) : ∃ front back, line = front ++ (trim line ++ back) ∧
    (∀ c ∈ front, isBlank c = true) ∧ ∀ c ∈ back, isBlank c = true := by
  obtain ⟨back, eq, blank⟩ := exists_trimLeft_eq line
  exact ⟨line.takeWhile isBlank, back, by rw [← eq, trimLeft_append_takeWhile], fun c => List.mem_takeWhile_imp, blank⟩

theorem isBlankLine_append (first second : List Char) : isBlankLine (first ++ second) = (isBlankLine first && isBlankLine second) :=
  List.all_append

theorem isBlankLine_trim (line : List Char) : isBlankLine (trim line) = isBlankLine line := by
  obtain ⟨front, back, eq, leads, trails⟩ := exists_eq_trim line
  have first : isBlankLine front = true := List.all_eq_true.mpr leads
  have last : isBlankLine back = true := List.all_eq_true.mpr trails
  conv_rhs => rw [eq, isBlankLine_append, isBlankLine_append, first, last, Bool.true_and, Bool.and_true]

theorem trim_infix (line : List Char) : trim line <:+: line := by
  obtain ⟨front, back, eq, -, -⟩ := exists_eq_trim line
  exact ⟨front, back, by rw [List.append_assoc, ← eq]⟩

/-- A piece without blanks does not reach over one. -/
theorem prefix_of_prefix_append {piece text blanks : List Char} (visible : ∀ c ∈ piece, isBlank c = false)
    (blank : ∀ c, blanks.head? = some c → isBlank c = true) (starts : piece <+: text ++ blanks) : piece <+: text := by
  obtain ⟨behind, eq⟩ := starts
  rcases List.append_eq_append_iff.mp eq with ⟨gap, within, -⟩ | ⟨gap, reaches, eq⟩
  · exact ⟨gap, within.symm⟩
  · cases gap with
    | nil => exact ⟨[], by rw [reaches, List.append_nil, List.append_nil]⟩
    | cons c gap =>
      have inside := visible c (reaches ▸ List.mem_append_right _ List.mem_cons_self)
      rw [blank c (by rw [eq]; rfl)] at inside
      cases inside

/-- A piece without blanks does not begin in the blanks before a text. -/
theorem infix_of_blanks_append {piece blanks text : List Char} (some : piece ≠ []) (visible : ∀ c ∈ piece, isBlank c = false)
    (blank : ∀ c ∈ blanks, isBlank c = true) (inside : piece <:+: blanks ++ text) : piece <:+: text := by
  induction blanks with
  | nil => exact inside
  | cons c blanks ih =>
    obtain ⟨here, others⟩ := List.forall_mem_cons.mp blank
    rw [List.cons_append, List.infix_cons_iff] at inside
    refine ih others (inside.resolve_left fun starts => ?_)
    obtain ⟨d, more, rfl⟩ := List.exists_cons_of_ne_nil some
    obtain ⟨rfl, -⟩ := List.cons_prefix_cons.mp starts
    rw [visible d List.mem_cons_self] at here
    cases here

/-- Nor does it end in the blanks behind one. -/
theorem infix_of_append_blanks {piece blanks text : List Char} (some : piece ≠ []) (visible : ∀ c ∈ piece, isBlank c = false)
    (blank : ∀ c ∈ blanks, isBlank c = true) (inside : piece <:+: text ++ blanks) : piece <:+: text := by
  rw [← List.reverse_infix, List.reverse_append] at inside
  exact List.reverse_infix.mp (infix_of_blanks_append (mt List.reverse_eq_nil_iff.mp some)
    (fun c mem => visible c (List.mem_reverse.mp mem)) (fun c mem => blank c (List.mem_reverse.mp mem)) inside)

/-- A piece without blanks stands in a text where it stands in what is left of it without the blanks around it. -/
theorem infix_trim_iff {piece text : List Char} (some : piece ≠ []) (visible : ∀ c ∈ piece, isBlank c = false) :
    piece <:+: trim text ↔ piece <:+: text := by
  refine ⟨fun inside => inside.trans <| trim_infix text, fun inside => ?_⟩
  obtain ⟨front, back, eq, leads, trails⟩ := exists_eq_trim text
  rw [eq] at inside
  exact infix_of_append_blanks some visible trails (infix_of_blanks_append some visible leads inside)

theorem indentation_le_of_visible {text : List Char} {i : Nat} {c : Char} (there : text[i]? = some c)
    (visible : isBlank c = false) : indentation text ≤ i := by
  by_contra before
  obtain ⟨rest, eq⟩ := List.takeWhile_prefix (p := isBlank) (l := text)
  rw [← eq, List.getElem?_append_left (Nat.lt_of_not_le before)] at there
  rw [List.mem_takeWhile_imp (List.mem_of_getElem? there)] at visible
  cases visible

theorem exists_eq_trimRight (text : List Char) : ∃ back, text = trimRight text ++ back ∧ ∀ c ∈ back, isBlank c = true := by
  refine ⟨(text.reverse.takeWhile isBlank).reverse, ?_, fun c mem => List.mem_takeWhile_imp (List.mem_reverse.mp mem)⟩
  rw [trimRight, ← List.reverse_append, List.takeWhile_append_dropWhile, List.reverse_reverse]

theorem lt_length_trimRight_of_visible {text : List Char} {i : Nat} {c : Char} (there : text[i]? = some c)
    (visible : isBlank c = false) : i < (trimRight text).length := by
  by_contra after
  obtain ⟨back, eq, blank⟩ := exists_eq_trimRight text
  rw [eq, List.getElem?_append_right (Nat.le_of_not_lt after)] at there
  rw [blank c (List.mem_of_getElem? there)] at visible
  cases visible

/-- Trimming keeps the first character that is not blank. -/
theorem head?_trim (line : List Char) : (trim line).head? = (trimLeft line).head? := by
  rw [trim, trimLeft]
  cases eq : line.dropWhile isBlank with
  | nil => rfl
  | cons x rest =>
    have visible : isBlank x = false := by
      have head := List.head?_dropWhile_not isBlank line
      rw [eq] at head
      simpa using head
    rw [trimRight, List.reverse_cons, List.dropWhile_append]
    split <;> simp [visible]

theorem isBlank_of_head?_trim {line : List Char} {c : Char} (first : (trim line).head? = some c) : isBlank c = false := by
  rw [head?_trim, trimLeft] at first
  have visible := List.head?_dropWhile_not isBlank line
  rw [first] at visible
  simpa using visible

/-- The blanks at the start are gone. -/
theorem trimLeft_trim_append {line : List Char} (some : trim line ≠ []) (rest : List Char) :
    trimLeft (trim line ++ rest) = trim line ++ rest := by
  obtain ⟨x, more, eq⟩ := List.exists_cons_of_ne_nil some
  have visible : isBlank x = false := isBlank_of_head?_trim (by rw [eq]; rfl)
  rw [eq, List.cons_append, trimLeft]
  exact List.dropWhile_cons_of_neg (by simp [visible])

/-- The first character that is not blank stands behind blanks only. -/
theorem exists_of_head?_trimLeft {line : List Char} {c : Char} (first : (trimLeft line).head? = some c) :
    ∃ rest, line = line.takeWhile isBlank ++ c :: rest := by
  obtain ⟨rest, eq⟩ := List.head?_eq_some_iff.mp first
  exact ⟨rest, by rw [← eq, trimLeft_append_takeWhile]⟩

end CodeHygiene.Text
