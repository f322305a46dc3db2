import CodeHygiene.Proofs.Lines
import CodeHygiene.Text.Find

/-!
Texts with carriage returns at the ends of their lines, against the same texts without them.

The text without returns (`thin`) is read beside the one that has them; an offset in the second stands for
an offset in the first (`thinOffset`). The places before a return, and between a return and its line feed,
stand for one place.

Proved:
(1) A text whose line feeds are given returns has them at the ends of lines only, and without them it is the
    text again (`returnsEndLines_withReturns`, `thin_withReturns`).
(2) Offsets keep their order (`thinOffset_le`), strictly so at a character that is no return (`thinOffset_lt_iff`), and
    what stands before and behind an offset is without returns what stands before and behind the offset it stands
    for (`thin_take`, `thin_drop`, `thin_slice`).
(3) The lines of a text with returns, without the returns that end them, are those of the text without
    (`lines_thin`), and an offset is on the same line in both (`lineAt_thin`), and in the same column if
    neither a return nor the end of a line follows (`columnAt_thin`).
(4) A line is blank in both texts or in neither (`isBlankLine_thin`), the blanks at the start of a text are those
    without returns, less the returns (`indentation_thin`), and a character other than a return is found at the
    offset that stands for its place (`find?_thin`).
(5) A line with a return at its end is trimmed and indented like the line without (`Ended.trim`,
    `Ended.indentation`).
-/

namespace CodeHygiene.Text

/-! ## Returns -/

/-- A return before each line feed. -/
def withReturns : List Char → List Char
  | [] => []
  | c :: rest => if c = '\n' then '\r' :: '\n' :: withReturns rest else c :: withReturns rest

/-- The text without its returns. -/
def thin (text : List Char) : List Char := text.filter (· ≠ '\r')

/-- A return stands before a line feed or at the end, so at the end of a line. -/
def ReturnsEndLines : List Char → Prop
  | [] => True
  | c :: rest => (c = '\r' → rest.head?.all (· = '\n') = true) ∧ ReturnsEndLines rest

/-- The offset in the thin text. -/
def thinOffset (text : List Char) (offset : Nat) : Nat := (thin (text.take offset)).length

@[simp] theorem thin_nil : thin [] = [] := rfl

@[simp] theorem thin_append (a b : List Char) : thin (a ++ b) = thin a ++ thin b := List.filter_append ..

@[simp] theorem thin_cons_return (rest : List Char) : thin ('\r' :: rest) = thin rest := rfl

theorem thin_cons {c : Char} (ne : c ≠ '\r') (rest : List Char) : thin (c :: rest) = c :: thin rest :=
  List.filter_cons_of_pos (by simpa using ne)

theorem mem_thin {c : Char} {text : List Char} : c ∈ thin text ↔ c ∈ text ∧ c ≠ '\r' := by
  rw [thin, List.mem_filter, decide_eq_true_eq]

theorem thin_eq_self {text : List Char} (clean : '\r' ∉ text) : thin text = text := by
  refine List.filter_eq_self.mpr fun c mem => ?_
  have ne : c ≠ '\r' := fun eq => clean (eq ▸ mem)
  exact decide_eq_true ne

theorem length_thin_le (text : List Char) : (thin text).length ≤ text.length := List.length_filter_le _ _

theorem thin_withReturns {text : List Char} (clean : '\r' ∉ text) : thin (withReturns text) = text := by
  induction text with
  | nil => rfl
  | cons c rest ih =>
    obtain ⟨ne, others⟩ : '\r' ≠ c ∧ '\r' ∉ rest := by simpa using clean
    rw [withReturns]
    split
    next eq => rw [thin_cons_return, thin_cons (by decide), ih others, eq]
    next => rw [thin_cons (Ne.symm ne), ih others]

theorem returnsEndLines_withReturns {text : List Char} (clean : '\r' ∉ text) : ReturnsEndLines (withReturns text) := by
  induction text with
  | nil => trivial
  | cons c rest ih =>
    obtain ⟨ne, others⟩ : '\r' ≠ c ∧ '\r' ∉ rest := by simpa using clean
    rw [withReturns]
    split
    next => exact ⟨fun _ => rfl, fun eq => absurd eq (by decide), ih others⟩
    next => exact ⟨fun eq => absurd eq.symm ne, ih others⟩

theorem ReturnsEndLines.of_append {a b : List Char} (h : ReturnsEndLines (a ++ b)) : ReturnsEndLines b := by
  induction a with
  | nil => exact h
  | cons c a ih => exact ih h.2

theorem ReturnsEndLines.left_of_append {a b : List Char} (h : ReturnsEndLines (a ++ b)) : ReturnsEndLines a := by
  induction a with
  | nil => trivial
  | cons c a ih =>
    refine ⟨fun eq => ?_, ih h.2⟩
    have next := h.1 eq
    cases a with
    | nil => rfl
    | cons d a => exact next

theorem ReturnsEndLines.drop {text : List Char} (h : ReturnsEndLines text) (n : Nat) : ReturnsEndLines (text.drop n) := by
  rw [← List.take_append_drop n text] at h
  exact h.of_append

theorem ReturnsEndLines.take {text : List Char} (h : ReturnsEndLines text) (n : Nat) : ReturnsEndLines (text.take n) := by
  rw [← List.take_append_drop n text] at h
  exact h.left_of_append

theorem ReturnsEndLines.slice {text : List Char} (h : ReturnsEndLines text) (start stop : Nat) :
    ReturnsEndLines (slice text start stop) := (h.drop start).take _

theorem returnsEndLines_of_clean {text : List Char} (clean : '\r' ∉ text) : ReturnsEndLines text := by
  induction text with
  | nil => trivial
  | cons c rest ih =>
    obtain ⟨ne, others⟩ : '\r' ≠ c ∧ '\r' ∉ rest := by simpa using clean
    exact ⟨fun eq => absurd eq.symm ne, ih others⟩

/-- Behind a return, nothing is left without returns, or a line feed stands first. -/
theorem ReturnsEndLines.thin_of_return {rest : List Char} (h : ReturnsEndLines ('\r' :: rest)) :
    rest = [] ∨ ∃ more, rest = '\n' :: more := by
  have next := h.1 rfl
  cases rest with
  | nil => exact .inl rfl
  | cons c more =>
    obtain rfl : c = '\n' := by simpa using next
    exact .inr ⟨more, rfl⟩

/-- What stands first, other than at the end of a line, stands first without returns. -/
theorem head_thin {rest : List Char} (lines : ReturnsEndLines rest) {d : Char} (ne : d ≠ '\r') (feed : d ≠ '\n') :
    (thin rest).head? = some d ↔ rest.head? = some d := by
  cases rest with
  | nil => rfl
  | cons x more =>
    by_cases ret : x = '\r'
    · subst ret
      rcases lines.thin_of_return with rfl | ⟨more, rfl⟩
      · simp [Ne.symm ne]
      · simp [thin_cons, Ne.symm ne, Ne.symm feed]
    · rw [thin_cons ret]
      rfl

/-! ## Offsets -/

theorem thin_take (text : List Char) (offset : Nat) :
    (thin text).take (thinOffset text offset) = thin (text.take offset) := by
  conv_lhs => rw [← List.take_append_drop offset text, thin_append]
  rw [thinOffset]
  simp

theorem thin_drop (text : List Char) (offset : Nat) :
    (thin text).drop (thinOffset text offset) = thin (text.drop offset) := by
  conv_lhs => rw [← List.take_append_drop offset text, thin_append]
  rw [thinOffset]
  simp

@[simp] theorem thinOffset_zero (text : List Char) : thinOffset text 0 = 0 := rfl

theorem thinOffset_add (text : List Char) (offset n : Nat) :
    thinOffset text (offset + n) = thinOffset text offset + (thin ((text.drop offset).take n)).length := by
  rw [thinOffset, List.take_add, thin_append, List.length_append]
  rfl

theorem thinOffset_cons (c : Char) (rest : List Char) (n : Nat) :
    thinOffset (c :: rest) (n + 1) = (thin [c]).length + thinOffset rest n := by
  rw [thinOffset, List.take_succ_cons, ← List.singleton_append, thin_append, List.length_append]
  rfl

theorem thinOffset_le {text : List Char} {a b : Nat} (le : a ≤ b) : thinOffset text a ≤ thinOffset text b := by
  obtain ⟨n, rfl⟩ := Nat.exists_eq_add_of_le le
  rw [thinOffset_add]
  exact Nat.le_add_right _ _

theorem thinOffset_succ_of_return {text rest : List Char} {offset : Nat} (here : text.drop offset = '\r' :: rest) :
    thinOffset text (offset + 1) = thinOffset text offset := by
  rw [thinOffset_add, here]
  rfl

theorem thinOffset_succ {text rest : List Char} {offset : Nat} {c : Char} (here : text.drop offset = c :: rest)
    (ne : c ≠ '\r') : thinOffset text (offset + 1) = thinOffset text offset + 1 := by
  rw [thinOffset_add, here, List.take_succ_cons, List.take_zero, thin_cons ne]
  rfl

theorem thinOffset_le_self (text : List Char) (offset : Nat) : thinOffset text offset ≤ offset :=
  (length_thin_le _).trans (List.length_take_le _ _)

theorem thinOffset_le_length (text : List Char) (offset : Nat) : thinOffset text offset ≤ (thin text).length := by
  have part := congrArg List.length (thin_take text offset)
  rw [List.length_take] at part
  rw [thinOffset]
  omega

/-- Offsets with something other than returns between them stay apart. -/
theorem thinOffset_lt {text rest : List Char} {a b : Nat} {c : Char} (here : text.drop a = c :: rest) (ne : c ≠ '\r')
    (lt : a < b) : thinOffset text a < thinOffset text b := by
  have next := thinOffset_succ here ne
  have le : thinOffset text (a + 1) ≤ thinOffset text b := thinOffset_le lt
  omega

/-- Before something other than a line feed, offsets keep their strict order. -/
theorem thinOffset_lt_iff {text rest : List Char} {a b : Nat} {c : Char} (h : ReturnsEndLines text)
    (here : text.drop b = c :: rest) (feed : c ≠ '\n') : thinOffset text a < thinOffset text b ↔ a < b := by
  refine ⟨fun lt => ?_, fun lt => ?_⟩
  · by_contra le
    exact Nat.not_le.mpr lt (thinOffset_le (Nat.not_lt.mp le))
  · have behind : (text.drop a).drop (b - a) = c :: rest := by rw [List.drop_drop, Nat.add_sub_cancel' (Nat.le_of_lt lt), here]
    cases first : text.drop a with
    | nil => rw [first, List.drop_nil] at behind; cases behind
    | cons d more =>
      by_cases ret : d = '\r'
      · -- A line feed stands behind the return, and before the place.
        subst ret
        have ended := h.drop a
        rw [first] at ended
        obtain ⟨n, eq⟩ : ∃ n, b - a = n + 1 := ⟨b - a - 1, by omega⟩
        rw [first, eq, List.drop_succ_cons] at behind
        rcases ended.thin_of_return with rfl | ⟨more, rfl⟩
        · rw [List.drop_nil] at behind
          cases behind
        · have later : a + 1 < b := by
            by_contra same
            obtain rfl : n = 0 := by omega
            exact feed (List.cons.inj behind).1.symm
          have next : text.drop (a + 1) = '\n' :: more := by rw [← List.drop_drop, first]; rfl
          exact Nat.lt_of_le_of_lt (thinOffset_le (Nat.le_succ a)) (thinOffset_lt next (by decide) later)
      · exact thinOffset_lt first ret lt

theorem thin_slice (text : List Char) (start stop : Nat) :
    thin (slice text start stop) = slice (thin text) (thinOffset text start) (thinOffset text stop) := by
  rw [slice, slice, thin_drop]
  by_cases le : start ≤ stop
  · obtain ⟨n, rfl⟩ := Nat.exists_eq_add_of_le le
    have width : thinOffset text (start + n) - thinOffset text start = thinOffset (text.drop start) n := by
      rw [thinOffset_add, Nat.add_sub_cancel_left, thinOffset]
    rw [width, thin_take, Nat.add_sub_cancel_left]
  · have back : thinOffset text stop ≤ thinOffset text start := thinOffset_le (by omega)
    rw [Nat.sub_eq_zero_of_le (by omega), Nat.sub_eq_zero_of_le back]
    rfl

/-! ## Lines -/

theorem lineAt_thin (text : List Char) (offset : Nat) :
    lineAt (thin text) (thinOffset text offset) = lineAt text offset := by
  rw [lineAt, lineAt, thin_take, thin, List.count_filter (by decide)]

theorem lines_thin (text : List Char) : lines (thin text) = (lines text).map thin := by
  induction text with
  | nil => rfl
  | cons c rest ih =>
    obtain ⟨first, more, eq⟩ := exists_lines_eq_cons rest
    rw [eq, List.map_cons] at ih
    by_cases feed : c = '\n'
    · subst feed
      rw [lines_cons_lineFeed, eq, thin_cons (by decide), lines_cons_lineFeed, ih]
      rfl
    · rw [lines_cons feed eq]
      by_cases ret : c = '\r'
      · subst ret
        rw [thin_cons_return, ih]
        rfl
      · rw [thin_cons ret, lines_cons feed ih, List.map_cons, thin_cons ret]

theorem ReturnsEndLines.append_lineFeed {a b : List Char} (h : ReturnsEndLines a) (h' : ReturnsEndLines b) :
    ReturnsEndLines (a ++ '\n' :: b) := by
  induction a with
  | nil => exact ⟨fun eq => absurd eq (by decide), h'⟩
  | cons c a ih =>
    refine ⟨fun eq => ?_, ih h.2⟩
    have next := h.1 eq
    cases a with
    | nil => rfl
    | cons d a => exact next

theorem returnsEndLines_unlines {ls : List (List Char)} (each : ∀ line ∈ ls, ReturnsEndLines line) :
    ReturnsEndLines (unlines ls) := by
  induction ls with
  | nil => trivial
  | cons line more ih =>
    obtain ⟨first, others⟩ := List.forall_mem_cons.mp each
    cases more with
    | nil => exact first
    | cons next more => exact first.append_lineFeed (ih others)

theorem thin_unlines (ls : List (List Char)) : thin (unlines ls) = unlines (ls.map thin) := by
  induction ls with
  | nil => rfl
  | cons line more ih =>
    cases more with
    | nil => rfl
    | cons next more =>
      rw [unlines_cons (List.cons_ne_nil _ _), thin_append, thin_cons (by decide), ih]
      rfl

/-- In a line, returns stand at the end only. -/
theorem returnsEndLines_of_mem_lines {text line : List Char} (h : ReturnsEndLines text) (mem : line ∈ lines text) :
    ReturnsEndLines line := by
  obtain ⟨n, lt, eq⟩ := List.mem_iff_getElem.mp mem
  have there : (lines text)[n]? = some line := by rw [← eq]; exact List.getElem?_eq_getElem lt
  obtain ⟨behind, split⟩ := drop_lineStart there
  have part := h.drop (lineStart text (n + 1))
  rw [← split] at part
  exact part.left_of_append

/-- A line without a line feed has one return at most, at its end. -/
theorem eq_thin_or_of_line {line : List Char} (h : ReturnsEndLines line) (clean : '\n' ∉ line) :
    line = thin line ∨ line = thin line ++ ['\r'] := by
  induction line with
  | nil => exact .inl rfl
  | cons c rest ih =>
    obtain ⟨ne, others⟩ : '\n' ≠ c ∧ '\n' ∉ rest := by simpa using clean
    by_cases ret : c = '\r'
    · subst ret
      rcases h.thin_of_return with rfl | ⟨more, rfl⟩
      · exact .inr rfl
      · exact absurd List.mem_cons_self others
    · rw [thin_cons ret]
      rcases ih h.2 others with same | ended
      · exact .inl (congrArg (c :: ·) same)
      · exact .inr (congrArg (c :: ·) ended)

theorem dropReturns_concat (line : List Char) : dropReturns (line ++ ['\r']) = dropReturns line := by
  simp [dropReturns]

theorem dropReturns_of_clean {line : List Char} (clean : '\r' ∉ line) : dropReturns line = line := by
  have first : line.reverse.dropWhile (· = '\r') = line.reverse := by
    refine List.dropWhile_eq_self_iff.mpr fun pos => ?_
    have ne : line.reverse[0] ≠ '\r' := fun eq => clean (by rw [← eq]; exact List.mem_reverse.mp (List.getElem_mem pos))
    simpa using ne
  rw [dropReturns, first, List.reverse_reverse]

theorem dropReturns_eq_thin {line : List Char} (h : ReturnsEndLines line) (clean : '\n' ∉ line) :
    dropReturns line = thin line := by
  have without : dropReturns (thin line) = thin line := dropReturns_of_clean fun mem => (mem_thin.mp mem).2 rfl
  rcases eq_thin_or_of_line h clean with same | ended
  · rw [← same] at without ⊢
    exact without
  · rw [ended, dropReturns_concat, without, ← ended]

/-- The lines that findings quote are those of the thin text. -/
theorem lines_map_dropReturns {text : List Char} (h : ReturnsEndLines text) :
    (lines text).map dropReturns = lines (thin text) := by
  rw [lines_thin]
  exact List.map_congr_left fun line mem =>
    dropReturns_eq_thin (returnsEndLines_of_mem_lines h mem) (not_mem_of_mem_lines mem)

/-- What stands before something else on its line holds no return. -/
theorem not_mem_of_followed {line rest : List Char} {c : Char} (h : ReturnsEndLines (line ++ c :: rest))
    (clean : '\n' ∉ line) (feed : c ≠ '\n') : '\r' ∉ line := by
  induction line with
  | nil => exact List.not_mem_nil
  | cons d line ih =>
    obtain ⟨ne, others⟩ : '\n' ≠ d ∧ '\n' ∉ line := by simpa using clean
    have ret : d ≠ '\r' := by
      rintro rfl
      have next := h.1 rfl
      cases line with
      | nil => exact feed (by simpa using next)
      | cons e line =>
        obtain rfl : e = '\n' := by simpa using next
        exact others List.mem_cons_self
    simp [Ne.symm ret, ih h.2 others]

/-- Before something that ends no line, the column is the same. -/
theorem columnAt_thin {text rest : List Char} {offset : Nat} {c : Char} (h : ReturnsEndLines text)
    (here : text.drop offset = c :: rest) (feed : c ≠ '\n') :
    columnAt (thin text) (thinOffset text offset) = columnAt text offset := by
  obtain ⟨init, last, -, -, eq, -, -⟩ := lines_append (text.take offset) []
  have thinned : lines (thin (text.take offset)) = init.map thin ++ [thin last] := by
    rw [lines_thin, eq, List.map_append, List.map_singleton]
  have clean : '\r' ∉ last := by
    have whole : ReturnsEndLines (text.take offset ++ c :: rest) := by rwa [← here, List.take_append_drop]
    rw [eq_of_lines_eq eq, List.append_assoc] at whole
    exact not_mem_of_followed whole.of_append (not_mem_of_mem_lines (by rw [eq]; simp)) feed
  rw [columnAt, columnAt, thin_take, takeWhile_reverse_of_lines_eq eq, takeWhile_reverse_of_lines_eq thinned,
    thin_eq_self clean]

/-! ## Blanks -/

theorem isBlankLine_thin (line : List Char) : isBlankLine (thin line) = isBlankLine line := by
  induction line with
  | nil => rfl
  | cons c rest ih =>
    by_cases ret : c = '\r'
    · subst ret
      rw [thin_cons_return, ih]
      rfl
    · rw [thin_cons ret]
      exact congrArg (isBlank c && ·) ih

theorem holds_iff {piece text : List Char} : holds piece text = true ↔ piece <:+: text := by
  rw [holds]
  induction text with
  | nil => by_cases none : piece = [] <;> simp [find?, none]
  | cons c text ih =>
    rw [find?, List.infix_cons_iff, ← startsWith_iff, ← ih]
    split
    next starts => simp [starts]
    next starts => simp [starts]

theorem takeWhile_isBlank_thin (text : List Char) : (thin text).takeWhile isBlank = thin (text.takeWhile isBlank) := by
  induction text with
  | nil => rfl
  | cons c rest ih =>
    by_cases ret : c = '\r'
    · subst ret
      rw [thin_cons_return, ih, List.takeWhile_cons_of_pos isBlank_carriageReturn, thin_cons_return]
    · rw [thin_cons ret, List.takeWhile_cons, List.takeWhile_cons, ih]
      split
      next => rw [thin_cons ret]
      next => rfl

/-- The indentation is what it is without the returns in it. -/
theorem indentation_thin (text : List Char) : Text.indentation (thin text) = thinOffset text (Text.indentation text) := by
  have own : text.takeWhile isBlank = text.take (Text.indentation text) :=
    List.prefix_iff_eq_take.mp (List.takeWhile_prefix isBlank)
  rw [Text.indentation, takeWhile_isBlank_thin, thinOffset, ← own]

theorem indentation_take {text : List Char} {n : Nat} (short : Text.indentation text < n) :
    Text.indentation (text.take n) = Text.indentation text := by
  induction text generalizing n with
  | nil => rw [List.take_nil]
  | cons c rest ih =>
    obtain ⟨n, rfl⟩ : ∃ m, n = m + 1 := ⟨n - 1, by omega⟩
    rw [Text.indentation, List.takeWhile_cons] at short
    rw [List.take_succ_cons, Text.indentation, Text.indentation, List.takeWhile_cons, List.takeWhile_cons]
    split
    next blank =>
      rw [if_pos blank, List.length_cons] at short
      exact congrArg (· + 1) (ih (Nat.lt_of_succ_lt_succ short))
    next => rfl

/-! ## Pieces -/

theorem find?_singleton_cons (c d : Char) (rest : List Char) :
    find? [c] (d :: rest) = if c = d then some 0 else (find? [c] rest).map (· + 1) := by
  rw [find?, startsWith, after?]
  by_cases same : c = d
  · rw [if_pos same, if_pos same, after?]
    rfl
  · rw [if_neg same, if_neg same]
    rfl

theorem drop_of_find? {c : Char} {text : List Char} {n : Nat} (found : find? [c] text = some n) :
    ∃ rest, text.drop n = c :: rest := by
  induction text generalizing n with
  | nil => cases found
  | cons d text ih =>
    rw [find?_singleton_cons] at found
    split at found
    next same =>
      obtain rfl := Option.some.inj found
      exact ⟨text, by rw [same]; rfl⟩
    next =>
      obtain ⟨m, later, rfl⟩ := Option.map_eq_some_iff.mp found
      exact ih later

theorem find?_thin {c : Char} (ne : c ≠ '\r') (text : List Char) :
    find? [c] (thin text) = (find? [c] text).map (thinOffset text) := by
  induction text with
  | nil => rfl
  | cons d text ih =>
    rw [find?_singleton_cons]
    by_cases ret : d = '\r'
    · subst ret
      rw [thin_cons_return, ih, if_neg ne, Option.map_map]
      exact Option.map_congr fun n _ => by simp [thinOffset_cons]
    · rw [thin_cons ret, find?_singleton_cons]
      split
      next => rfl
      next =>
        rw [ih, Option.map_map, Option.map_map]
        exact Option.map_congr fun n _ => by simp [thinOffset_cons, thin_cons ret, Nat.add_comm]

theorem contains_thin {c : Char} (ne : c ≠ '\r') (text : List Char) : (thin text).contains c = text.contains c := by
  rw [Bool.eq_iff_iff, List.contains_iff_mem, List.contains_iff_mem, mem_thin]
  exact and_iff_left ne

theorem countNonBlank_thin (text : List Char) : countNonBlank (thin text) = countNonBlank text := by
  rw [countNonBlank, countNonBlank, lines_thin, List.countP_map]
  exact List.countP_congr fun line _ => by rw [Function.comp_apply, isBlankLine_thin]

/-- A line as it stands in a text whose returns end lines. -/
structure Ended (line : List Char) : Prop where
  returns : ReturnsEndLines line
  single : '\n' ∉ line

theorem ended_of_mem_lines {text line : List Char} (h : ReturnsEndLines text) (mem : line ∈ lines text) : Ended line :=
  ⟨returnsEndLines_of_mem_lines h mem, not_mem_of_mem_lines mem⟩

namespace Ended

variable {line : List Char}

theorem eq_thin_or (h : Ended line) : line = thin line ∨ line = thin line ++ ['\r'] := eq_thin_or_of_line h.returns h.single

theorem trim (h : Ended line) : Text.trim (thin line) = Text.trim line := by
  rcases h.eq_thin_or with same | ended
  · rw [← same]
  · conv_rhs => rw [ended]
    exact (trim_append fun c mem => by rw [List.mem_singleton.mp mem]; exact isBlank_carriageReturn).symm

theorem indentation (h : Ended line) (text : isBlankLine line = false) : Text.indentation (thin line) = Text.indentation line := by
  rcases h.eq_thin_or with same | ended
  · rw [← same]
  · have some : ∃ c ∈ thin line, isBlank c = false := by
      rw [← isBlankLine_thin, isBlankLine, List.all_eq_false] at text
      obtain ⟨c, mem, ne⟩ := text
      exact ⟨c, mem, by simpa using ne⟩
    conv_rhs => rw [ended, Text.indentation, List.takeWhile_append]
    rw [if_neg ?_, Text.indentation]
    intro whole
    obtain ⟨c, mem, ne⟩ := some
    have all := List.takeWhile_eq_self_iff.mp (List.takeWhile_prefix isBlank |>.eq_of_length whole) c mem
    rw [ne] at all
    cases all

theorem holds (h : Ended line) {piece : List Char} (clean : '\r' ∉ piece) (some : piece ≠ []) :
    Text.holds piece (thin line) = Text.holds piece line := by
  rcases h.eq_thin_or with same | ended
  · rw [← same]
  · conv_rhs => rw [ended]
    rw [Bool.eq_iff_iff, holds_iff, holds_iff, List.infix_concat_iff, or_iff_right]
    -- A piece at the very end of the line would end in the return.
    rintro ⟨front, eq⟩
    have last := congrArg List.getLast? eq
    rw [List.getLast?_concat, List.getLast?_append, List.getLast?_eq_some_getLast some, Option.some_or] at last
    exact clean (Option.some.inj last ▸ List.getLast_mem some)

end Ended

end CodeHygiene.Text
