import CodeHygiene.Proofs.Delimiter
import CodeHygiene.Proofs.Denotation
import CodeHygiene.Proofs.Position

/-!
What is left of the body of a stub without its comments.

Two readings of comments meet here. A body is cut into lines, and a line that begins with a mark of comments is
dropped, wherever it stands. The scan that finds the end of the body knows where comments begin and end.

Proved:
(1) What the scan takes for comments: its modes without the delimiters (`scan_next`); a block comment goes with its line
    feeds (`uncommented_blockComment`), of another the line feed stays (`uncommented_lineComment`). A text is read line
    by line (`uncommented_line`).
(2) A body with one line that is kept has one line of code, where both readings agree on every line
    (`countNonBlank_of_agrees`).
(3) They agree where no block comment and no literal goes on from line to line and no line begins with a star
    (`agrees_of_endsWithLine`).
(4) So a stub has one line of code there (`stubs_keep_one_line`). A statement inside a block comment makes a stub of a
    function without any (`commented_out_line_is_kept`).
-/

namespace CodeHygiene

namespace Text

theorem countNonBlank_cons_of_blank {c : Char} (blank : isBlank c = true) (text : List Char) :
    countNonBlank (c :: text) = countNonBlank text := by
  rw [countNonBlank, countNonBlank]
  by_cases feed : c = '\n'
  · rw [feed, lines_cons_lineFeed]
    exact List.countP_cons_of_neg (by decide)
  · obtain ⟨first, more, eq⟩ := exists_lines_eq_cons text
    rw [lines_cons feed eq, eq, List.countP_cons, List.countP_cons, isBlankLine, isBlankLine, List.all_cons, blank,
      Bool.true_and]

/-- Blanks before a text do not make lines that count. -/
theorem countNonBlank_append_of_blank {front : List Char} (blank : ∀ c ∈ front, isBlank c = true) (text : List Char) :
    countNonBlank (front ++ text) = countNonBlank text := by
  induction front with
  | nil => rfl
  | cons c front ih =>
    obtain ⟨first, others⟩ := List.forall_mem_cons.mp blank
    rw [List.cons_append, countNonBlank_cons_of_blank first, ih others]

/-- A line that is not blank is the only one where only blanks follow it. -/
theorem countNonBlank_line_append {line back : List Char} (clean : '\n' ∉ line) (some : isBlankLine line = false)
    (blank : ∀ c ∈ back, isBlank c = true) : countNonBlank (line ++ back) = 1 := by
  obtain ⟨init, last, first, more, front, behind, both⟩ := lines_append line back
  rw [lines_of_clean clean] at front
  obtain ⟨rfl, same⟩ : init = [] ∧ last = line := by simpa [List.singleton_eq_append_iff] using front
  rw [same] at both
  have none : countNonBlank back = 0 := by
    rw [← List.append_nil back, countNonBlank_append_of_blank blank]
    rfl
  rw [countNonBlank, behind, List.countP_cons] at none
  have whole : isBlankLine (line ++ first) = false := by
    rw [isBlankLine, List.all_append]
    exact Bool.and_eq_false_imp.mpr fun all => absurd (some.symm.trans all) Bool.false_ne_true
  rw [countNonBlank, both, List.nil_append, List.countP_cons, whole]
  have : more.countP (fun line => !isBlankLine line) = 0 := by omega
  rw [this]
  rfl

end Text

namespace Delimiter

/-! ## Comments as the scan reads them -/

/-- The mode after a character, in code too; delimiters leave it as it is. -/
def Mode.next (m : Mode) (x : Char) (ahead : Option Char) : Mode :=
  match m with
  | .code =>
    if x = '/' ∧ ahead = some '/' then .lineComment
    else if x = '/' ∧ ahead = some '*' then .blockOpening
    else if isQuote x then .quoted x
    else .code
  | m => m.step x ahead

/-- Whether a character belongs to a comment; the line feed behind one does not. -/
def Mode.inComment (m : Mode) (x : Char) (ahead : Option Char) : Bool :=
  match m with
  | .code => x = '/' && (ahead = some '/' || ahead = some '*')
  | .lineComment => x ≠ '\n'
  | .blockOpening => true
  | .block => true
  | .blockClosing => true
  | _ => false

/-- A text without its comments, from a mode on. -/
def uncommented : Mode → List Char → List Char
  | _, [] => []
  | m, x :: rest =>
    let further := uncommented (m.next x rest.head?) rest
    if m.inComment x rest.head? then further else x :: further

/-- The mode behind a text. -/
def Mode.after : Mode → List Char → Mode
  | m, [] => m
  | m, x :: rest => (m.next x rest.head?).after rest

/-- Unless it ends here, the scan goes on in the next mode. -/
theorem scan_next {o c : Char} (m : Mode) (depth offset : Nat) (x : Char) (rest : List Char) :
    (m = .code ∧ x = c ∧ scan o c m depth offset (x :: rest) = some offset) ∨
      ∃ depth', scan o c m depth offset (x :: rest) = scan o c (m.next x rest.head?) depth' (offset + 1) rest := by
  by_cases code : m = .code
  · subst code
    rw [scan_code]
    simp only [Mode.next]
    split
    next => exact .inr ⟨depth, rfl⟩
    next =>
      split
      next => exact .inr ⟨depth, rfl⟩
      next =>
        split
        next => exact .inr ⟨depth, rfl⟩
        next =>
          split
          next => exact .inr ⟨depth + 1, rfl⟩
          next =>
            split
            next closes =>
              cases depth with
              | zero => exact .inl ⟨trivial, closes, rfl⟩
              | succ depth => exact .inr ⟨depth, rfl⟩
            next => exact .inr ⟨depth, rfl⟩
  · refine .inr ⟨depth, ?_⟩
    rw [scan_cons code]
    cases m <;> first | rfl | exact absurd rfl code

theorem uncommented_sublist (m : Mode) (text : List Char) : (uncommented m text).Sublist text := by
  induction text generalizing m with
  | nil => exact List.Sublist.refl []
  | cons x rest ih =>
    rw [uncommented]
    split
    · exact (ih _).cons x
    · exact (ih _).cons_cons x

/-- A block comment goes with its line feeds. -/
theorem uncommented_blockComment {text : List Char} (inner : ¬['*', '/'] <:+: text) (rest : List Char) :
    uncommented .code ('/' :: '*' :: (text ++ '*' :: '/' :: rest)) = uncommented .code rest := by
  show uncommented .block (text ++ '*' :: '/' :: rest) = _
  induction text with
  | nil => rfl
  | cons x text ih =>
    obtain ⟨here, further⟩ : ¬['*', '/'] <+: x :: text ∧ ¬['*', '/'] <:+: text := by
      simpa [List.infix_cons_iff] using inner
    have goes : Mode.block.next x (text ++ '*' :: '/' :: rest).head? = .block := step_block here rest
    rw [List.cons_append, uncommented, goes]
    exact ih further

/-! ### Line feeds -/

theorem next_ahead_lineFeed (m : Mode) (x : Char) : m.next x (some '\n') = m.next x none := by
  cases m <;> simp [Mode.next, Mode.step, quotedStep]

theorem inComment_ahead_lineFeed (m : Mode) (x : Char) : m.inComment x (some '\n') = m.inComment x none := by
  cases m <;> simp [Mode.inComment]

theorem next_lineFeed (m : Mode) (ahead : Option Char) : m.next '\n' ahead = m.next '\n' none := by
  cases m <;> simp [Mode.next, Mode.step, quotedStep]

theorem inComment_lineFeed (m : Mode) (ahead : Option Char) : m.inComment '\n' ahead = m.inComment '\n' none := by
  cases m <;> simp [Mode.inComment]

/-- The line feed behind a line, unless it stands in a comment. -/
def feed (m : Mode) : List Char := if m.inComment '\n' none then [] else ['\n']

theorem uncommented_lineFeed (m : Mode) (rest : List Char) :
    uncommented m ('\n' :: rest) = feed m ++ uncommented (m.next '\n' none) rest := by
  rw [uncommented, feed, next_lineFeed, inComment_lineFeed]
  split <;> rfl

/-- A text is read line by line. -/
theorem uncommented_line (m : Mode) (line rest : List Char) : uncommented m (line ++ '\n' :: rest) =
    uncommented m line ++ (feed (m.after line) ++ uncommented ((m.after line).next '\n' none) rest) := by
  induction line generalizing m with
  | nil => exact uncommented_lineFeed m rest
  | cons x line ih =>
    have next : m.next x (line ++ '\n' :: rest).head? = m.next x line.head? := by
      cases line with
      | nil => exact next_ahead_lineFeed m x
      | cons y line => rfl
    have here : m.inComment x (line ++ '\n' :: rest).head? = m.inComment x line.head? := by
      cases line with
      | nil => exact inComment_ahead_lineFeed m x
      | cons y line => rfl
    rw [List.cons_append, uncommented, next, here, ih, uncommented, Mode.after]
    split <;> rfl

theorem lineComment_goes_on {line : List Char} (clean : '\n' ∉ line) :
    uncommented .lineComment line = [] ∧ Mode.lineComment.after line = .lineComment := by
  induction line with
  | nil => exact ⟨rfl, rfl⟩
  | cons x line ih =>
    obtain ⟨ne, others⟩ : '\n' ≠ x ∧ '\n' ∉ line := by simpa using clean
    have stays : Mode.lineComment.next x line.head? = .lineComment := if_neg (Ne.symm ne)
    have here : Mode.lineComment.inComment x line.head? = true := decide_eq_true (Ne.symm ne)
    rw [uncommented, Mode.after, stays, here]
    exact ih others

/-- Of a comment up to the end of its line the line feed stays. -/
theorem uncommented_lineComment {line : List Char} (clean : '\n' ∉ line) (rest : List Char) :
    uncommented .code ('/' :: '/' :: (line ++ '\n' :: rest)) = '\n' :: uncommented .code rest := by
  show uncommented .lineComment (line ++ '\n' :: rest) = _
  rw [uncommented_line, (lineComment_goes_on clean).1, (lineComment_goes_on clean).2]
  rfl

end Delimiter

namespace Measure.Stub

open Delimiter

/-! ## Lines that count -/

/-- Whether a line is kept among the lines of a body. -/
def isKept (line : Line) : Bool := !Text.isBlankLine line && (commentStart.atStart? line).isNone

/-- From a mode on, a line is kept exactly where something is left of it without the comments. -/
def agrees : Mode → List Line → Bool
  | _, [] => true
  | m, line :: more =>
    (isKept line != Text.isBlankLine (uncommented m line)) && agrees ((m.after line).next '\n' none) more

theorem blank_feed (m : Mode) : ∀ c ∈ feed m, Text.isBlank c = true := by
  unfold feed
  split
  · simp
  · simp only [List.mem_singleton, forall_eq]
    decide

variable {m : Mode} {line : Line} {more : List Line}

theorem agrees_cons : agrees m (line :: more) = true ↔
    (isKept line = !Text.isBlankLine (uncommented m line)) ∧ agrees ((m.after line).next '\n' none) more = true := by
  rw [agrees, Bool.and_eq_true]
  cases isKept line <;> cases Text.isBlankLine (uncommented m line) <;> simp

theorem uncommented_unlines (some : more ≠ []) : uncommented m (Text.unlines (line :: more)) =
    uncommented m line ++ (feed (m.after line) ++ uncommented ((m.after line).next '\n' none) (Text.unlines more)) := by
  rw [Text.unlines_cons some, uncommented_line]

/-- Of lines that are not kept only blanks are left. -/
theorem blank_of_agrees {lines : List Line} (agree : agrees m lines = true) (none : lines.filter isKept = []) :
    ∀ c ∈ uncommented m (Text.unlines lines), Text.isBlank c = true := by
  induction lines generalizing m with
  | nil => exact fun c mem => absurd mem List.not_mem_nil
  | cons line more ih =>
    obtain ⟨here, further⟩ := agrees_cons.mp agree
    have dropped : isKept line = false := by
      by_contra kept
      rw [List.filter_cons_of_pos (by simpa using kept)] at none
      cases none
    rw [List.filter_cons_of_neg (by simp [dropped])] at none
    rw [dropped, eq_comm, Bool.not_eq_false'] at here
    have blank : ∀ c ∈ uncommented m line, Text.isBlank c = true := List.all_eq_true.mp here
    by_cases last : more = []
    · rw [last]
      exact blank
    · rw [uncommented_unlines last]
      simp only [List.mem_append]
      rintro c (mem | mem | mem)
      · exact blank c mem
      · exact blank_feed _ c mem
      · exact ih further none c mem

/-- Where one line is kept, it has what is left, with blanks around it. -/
theorem exists_left_of_agrees {lines : List Line} (clean : ∀ line ∈ lines, '\n' ∉ line) (agree : agrees m lines = true)
    {only : Line} (one : lines.filter isKept = [only]) : ∃ front left back,
      uncommented m (Text.unlines lines) = front ++ (left ++ back) ∧ (∀ c ∈ front, Text.isBlank c = true) ∧
        '\n' ∉ left ∧ Text.isBlankLine left = false ∧ ∀ c ∈ back, Text.isBlank c = true := by
  induction lines generalizing m with
  | nil => cases one
  | cons line more ih =>
    obtain ⟨here, further⟩ := agrees_cons.mp agree
    obtain ⟨clean, others⟩ := List.forall_mem_cons.mp clean
    cases kept : isKept line with
    | true =>
      rw [List.filter_cons_of_pos kept] at one
      have none := (List.cons.inj one).2
      rw [kept, eq_comm, Bool.not_eq_true'] at here
      have clean : '\n' ∉ uncommented m line := fun mem => clean ((uncommented_sublist m line).mem mem)
      by_cases last : more = []
      · exact ⟨[], uncommented m line, [], by rw [last, List.append_nil]; rfl, by simp, clean, here, by simp⟩
      · refine ⟨[], uncommented m line, _, uncommented_unlines last, by simp, clean, here, ?_⟩
        simp only [List.mem_append]
        rintro c (mem | mem)
        · exact blank_feed _ c mem
        · exact blank_of_agrees further none c mem
    | false =>
      rw [List.filter_cons_of_neg (by simp [kept])] at one
      rw [kept, eq_comm, Bool.not_eq_false'] at here
      obtain ⟨front, left, back, eq, blank, rest⟩ := ih others further one
      have some : more ≠ [] := by
        rintro rfl
        cases one
      refine ⟨uncommented m line ++ (feed (m.after line) ++ front), left, back, ?_, ?_, rest⟩
      · rw [uncommented_unlines some, eq, List.append_assoc, List.append_assoc]
      · simp only [List.mem_append]
        rintro c (mem | mem | mem)
        · exact List.all_eq_true.mp here c mem
        · exact blank_feed _ c mem
        · exact blank c mem

/-- A body with one line that is kept has one line of code, where both readings of comments agree. -/
theorem countNonBlank_of_agrees {body : List Char} {only : Line} (one : significant body = [only])
    (agree : agrees .code (Text.lines body) = true) : Text.countNonBlank (uncommented .code body) = 1 := by
  obtain ⟨kept, same, -⟩ := List.map_eq_singleton_iff.mp one
  obtain ⟨front, left, back, eq, before, clean, some, behind⟩ :=
    exists_left_of_agrees (fun line mem => Text.not_mem_of_mem_lines mem) agree same
  rw [Text.unlines_lines] at eq
  rw [eq, Text.countNonBlank_append_of_blank before, Text.countNonBlank_line_append clean some behind]

/-! ## Where both readings agree -/

/-- What a line of comment begins with. -/
def opensComment : List Char → Bool
  | '*' :: _ => true
  | '/' :: '/' :: _ => true
  | '/' :: '*' :: _ => true
  | _ => false

theorem opensComment_eq_false {x : Char} {rest : List Char} (star : x ≠ '*') (noLine : ¬(x = '/' ∧ rest.head? = some '/'))
    (noBlock : ¬(x = '/' ∧ rest.head? = some '*')) : opensComment (x :: rest) = false := by
  unfold opensComment
  split
  next _ eq => exact absurd (List.cons.inj eq).1 star
  next _ eq => cases eq; exact absurd ⟨rfl, rfl⟩ noLine
  next _ eq => cases eq; exact absurd ⟨rfl, rfl⟩ noBlock
  next => rfl

def commentMarks : Regex.Node :=
  .alt (Regex.literal ['/'] (.set (.one '/'))) (.alt (Regex.literal ['/'] (.set (.one '*'))) (.set (.one '*')))

theorem commentStart_node : commentStart.node =
    .seq (.anchor .textStart) (.seq (.run (.ofClass .blank) 0 none false) commentMarks) := by decide +kernel

theorem denotes_commentMarks {t : List Char} :
    Regex.Denotes commentMarks t ↔ t = ['/', '/'] ∨ t = ['/', '*'] ∨ t = ['*'] := by
  simp [commentMarks, Regex.literal, Regex.Denotes, Regex.CharSet.contains_one]

theorem opensComment_iff (text : List Char) : opensComment text = true ↔ Regex.Begins commentMarks text := by
  constructor
  · intro opens
    unfold opensComment at opens
    split at opens
    next rest => exact ⟨['*'], rest, rfl, denotes_commentMarks.mpr (.inr (.inr rfl))⟩
    next rest => exact ⟨['/', '/'], rest, rfl, denotes_commentMarks.mpr (.inl rfl)⟩
    next rest => exact ⟨['/', '*'], rest, rfl, denotes_commentMarks.mpr (.inr (.inl rfl))⟩
    next => cases opens
  · rintro ⟨mark, rest, rfl, is⟩
    rcases denotes_commentMarks.mp is with rfl | rfl | rfl <;> rfl

/-- A line begins as a comment with its first character that is not blank. -/
theorem commentStart_iff (line : Line) : (commentStart.atStart? line).isSome = opensComment (Text.trimLeft line) := by
  have plain : Regex.isPlain (.seq (.run (.ofClass .blank) 0 none false) commentMarks) = true := rfl
  have start : Regex.Anchor.textStart.holds (Regex.startOf line) = true := rfl
  rw [Bool.eq_iff_iff, opensComment_iff, Regex.atStart?, commentStart_node, Regex.matchAt?_eq (.inl rfl), Option.isSome_map,
    Regex.after_seq, Regex.after_anchor, if_pos start, Option.isSome_iff_ne_none, ne_eq, Regex.after_eq_none_iff plain, not_not]
  constructor
  · rintro ⟨_, rest, eq, gap, mark, rfl, blank, is⟩
    have first : Text.trimLeft line = mark ++ rest := by
      rw [show line = gap ++ mark ++ rest from eq, List.append_assoc, Text.trimLeft,
        List.dropWhile_append_of_pos (Regex.isRun_blanks.mp blank)]
      rcases denotes_commentMarks.mp is with rfl | rfl | rfl <;> exact List.dropWhile_cons_of_neg (by decide)
    exact ⟨mark, rest, first, is⟩
  · rintro ⟨mark, rest, eq, is⟩
    refine ⟨line.takeWhile Text.isBlank ++ mark, rest, ?_, _, mark, rfl, Regex.isRun_blanks.mpr ?_, is⟩
    · rw [List.append_assoc, ← eq, Text.trimLeft_append_takeWhile]
      rfl
    · exact fun c mem => List.mem_takeWhile_imp mem

/-! ### Texts without block comments -/

/-- No comment and no literal of the line goes on to the next one, and a star does not begin it. -/
structure EndsWithLine (line : Line) : Prop where
  noBlock : ¬ ['/', '*'] <:+: line
  noTemplate : templateQuote ∉ line
  noStar : (Text.trimLeft line).head? ≠ some '*'
  noBackslash : line.getLast? ≠ some '\\'

/-- A mode that a line without block comments and template literals can lead to. -/
def isShort : Mode → Bool
  | .code => true
  | .lineComment => true
  | .quoted q => q ≠ templateQuote
  | .escape q => q ≠ templateQuote
  | _ => false

theorem isShort_next {m : Mode} {x : Char} {ahead : Option Char} (short : isShort m = true)
    (noBlock : ¬(x = '/' ∧ ahead = some '*')) (noTemplate : x ≠ templateQuote) : isShort (m.next x ahead) = true := by
  cases m with
  | code =>
    simp only [Mode.next, noBlock, if_false]
    split
    · rfl
    · split
      · simpa [isShort] using noTemplate
      · rfl
  | lineComment =>
    simp only [Mode.next, Mode.step]
    split <;> rfl
  | quoted q =>
    have plain : q ≠ templateQuote := of_decide_eq_true short
    simp only [Mode.next, Mode.step, quotedStep, plain, decide_false, Bool.and_false, Bool.false_eq_true, if_false]
    split
    · exact short
    · split
      · rfl
      · split
        · rfl
        · exact short
  | escape q => exact short
  | _ => cases short

theorem not_opensBlock {x : Char} {rest : List Char} (noBlock : ¬ ['/', '*'] <:+: x :: rest) :
    ¬(x = '/' ∧ rest.head? = some '*') := by
  rintro ⟨rfl, star⟩
  obtain ⟨rest, rfl⟩ := List.head?_eq_some_iff.mp star
  exact noBlock ⟨[], rest, rfl⟩

theorem isShort_after {m : Mode} (short : isShort m = true) {line : Line} (noBlock : ¬ ['/', '*'] <:+: line)
    (noTemplate : templateQuote ∉ line) : isShort (m.after line) = true := by
  induction line generalizing m with
  | nil => exact short
  | cons x line ih =>
    obtain ⟨ne, others⟩ : templateQuote ≠ x ∧ templateQuote ∉ line := by simpa using noTemplate
    have further : ¬ ['/', '*'] <:+: line := fun mem => noBlock (List.infix_cons mem)
    exact ih (isShort_next short (not_opensBlock noBlock) (Ne.symm ne)) further others

theorem eq_backslash_of_next {m : Mode} {x : Char} {ahead : Option Char} {q : Char} (escapes : m.next x ahead = .escape q) :
    x = '\\' := by
  by_contra other
  cases m with
  | code =>
    simp only [Mode.next] at escapes
    split at escapes
    · cases escapes
    · split at escapes
      · cases escapes
      · split at escapes <;> cases escapes
  | quoted q' =>
    simp only [Mode.next, Mode.step, quotedStep, other, if_false] at escapes
    split at escapes
    · cases escapes
    · split at escapes
      · cases escapes
      · split at escapes <;> cases escapes
  | _ =>
    simp only [Mode.next, Mode.step, holeStep] at escapes
    repeat' split at escapes
    all_goals cases escapes

theorem getLast?_of_escape {m : Mode} {line : Line} {q : Char} (some : line ≠ []) (behind : m.after line = .escape q) :
    line.getLast? = Option.some '\\' := by
  induction line generalizing m with
  | nil => exact absurd rfl some
  | cons x line ih =>
    cases line with
    | nil => rw [eq_backslash_of_next (m := m) behind]; rfl
    | cons y line => exact (List.getLast?_cons_cons).trans (ih (List.cons_ne_nil y line) behind)

/-- The next line begins in code. -/
theorem next_after_of_endsWithLine {line : Line} (ends : EndsWithLine line) :
    (Mode.code.after line).next '\n' none = .code := by
  have short := isShort_after (m := .code) rfl ends.noBlock ends.noTemplate
  cases behind : Mode.code.after line with
  | code => rfl
  | lineComment => rfl
  | quoted q =>
    rw [behind] at short
    have plain : q ≠ templateQuote := of_decide_eq_true short
    simp [Mode.next, Mode.step, quotedStep, plain]
  | escape q =>
    by_cases empty : line = []
    · rw [empty] at behind
      cases behind
    · exact absurd (getLast?_of_escape empty behind) ends.noBackslash
  | _ =>
    rw [behind] at short
    cases short

/-- A blank is left as it is, and code goes on behind it. -/
theorem uncommented_blank {x : Char} (blank : Text.isBlank x = true) (rest : List Char) :
    uncommented .code (x :: rest) = x :: uncommented .code rest := by
  have slash : x ≠ '/' := by
    rintro rfl
    exact absurd blank (by decide)
  have quote : isQuote x = false := by
    by_contra quote
    rcases isQuote_iff.mp (by simpa using quote) with (rfl | rfl) | rfl <;> exact absurd blank (by decide)
  have stays : Mode.code.next x rest.head? = .code := by simp [Mode.next, slash, quote]
  have left : Mode.code.inComment x rest.head? = false := by simp [Mode.inComment, slash]
  rw [uncommented, stays, left]
  rfl

theorem isKept_eq (line : Line) : isKept line = (!Text.isBlankLine line && !opensComment (Text.trimLeft line)) := by
  rw [isKept, ← commentStart_iff, Option.not_isSome]

/-- In code, something is left of a line exactly where it is kept. -/
theorem isKept_of_noBlock {line : Line} (clean : '\n' ∉ line) (noBlock : ¬ ['/', '*'] <:+: line)
    (noStar : (Text.trimLeft line).head? ≠ some '*') : isKept line = !Text.isBlankLine (uncommented .code line) := by
  rw [isKept_eq]
  induction line with
  | nil => rfl
  | cons x rest ih =>
    obtain ⟨-, others⟩ : '\n' ≠ x ∧ '\n' ∉ rest := by simpa using clean
    cases blank : Text.isBlank x with
    | true =>
      have trimmed : Text.trimLeft (x :: rest) = Text.trimLeft rest := List.dropWhile_cons_of_pos blank
      rw [trimmed] at noStar ⊢
      rw [uncommented_blank blank, Text.isBlankLine, Text.isBlankLine, List.all_cons, List.all_cons, blank]
      exact ih others (fun mem => noBlock (List.infix_cons mem)) noStar
    | false =>
      have trimmed : Text.trimLeft (x :: rest) = x :: rest := List.dropWhile_cons_of_neg (by simp [blank])
      have text : Text.isBlankLine (x :: rest) = false := by rw [Text.isBlankLine, List.all_cons, blank, Bool.false_and]
      rw [trimmed] at noStar ⊢
      have star : x ≠ '*' := fun same => noStar (congrArg some same)
      have noBlock := not_opensBlock noBlock
      rw [text, Bool.not_false, Bool.true_and]
      by_cases opens : x = '/' ∧ rest.head? = some '/'
      · obtain ⟨rfl, slash⟩ := opens
        have gone : uncommented .code ('/' :: rest) = [] := by
          rw [uncommented, slash]
          exact (lineComment_goes_on others).1
        obtain ⟨rest, rfl⟩ := List.head?_eq_some_iff.mp slash
        rw [gone]
        rfl
      · have left : Mode.code.inComment x rest.head? = false := by
          simpa [Mode.inComment, not_or] using fun slash => ⟨fun other => opens ⟨slash, other⟩, fun other => noBlock ⟨slash, other⟩⟩
        rw [uncommented, left, opensComment_eq_false star opens noBlock, Text.isBlankLine, if_neg Bool.false_ne_true, List.all_cons, blank]
        rfl

/-- Where no block comment and no literal goes on from line to line, both readings agree. -/
theorem agrees_of_endsWithLine {lines : List Line} (clean : ∀ line ∈ lines, '\n' ∉ line)
    (ends : ∀ line ∈ lines, EndsWithLine line) : agrees .code lines = true := by
  induction lines with
  | nil => rfl
  | cons line more ih =>
    obtain ⟨clean, others⟩ := List.forall_mem_cons.mp clean
    obtain ⟨first, later⟩ := List.forall_mem_cons.mp ends
    rw [agrees_cons, next_after_of_endsWithLine first]
    exact ⟨isKept_of_noBlock clean first.noBlock first.noStar, ih others later⟩

/-! ## Stubs -/

/-- A violation is for a function whose body has one line that is not blank without its comments. -/
def HasOneCodeLine (l : Language) (content : List Char) (v : Violation) : Prop :=
  ∃ r ∈ declarations l, ∃ h ∈ r.all content, ∃ s closing, stubAt? l content h = some s ∧
    v = s.toViolation (s.name ++ "() returns " ++ s.returned) ∧ closing? content (h.stop - 1) = some closing ∧
      Text.countNonBlank (uncommented .code (between content (h.stop - 1) closing)) = 1

/-- A function that is reported has one line that is neither blank nor begins as a comment. That is its one line of code
where the lines that begin as comments are those of which nothing is left without the comments, so wherever no block
comment and no literal goes on from line to line and no line begins with a star. -/
theorem stubs_keep_one_line (content : List Char) {l : Language} (braces : l ≠ .python) :
    ∀ v ∈ violations content l.tag, ∃ r ∈ declarations l, ∃ h ∈ r.all content, ∃ s closing only,
      stubAt? l content h = some s ∧ v = s.toViolation (s.name ++ "() returns " ++ s.returned) ∧
        closing? content (h.stop - 1) = some closing ∧ significant (between content (h.stop - 1) closing) = [only] ∧
          (placeholders l).findSome? (·.returned? only) = some s.returned ∧
            ((agrees .code (Text.lines (between content (h.stop - 1) closing)) = true ∨
                ∀ line ∈ Text.lines (between content (h.stop - 1) closing), EndsWithLine line) →
              Text.countNonBlank (uncommented .code (between content (h.stop - 1) closing)) = 1) := by
  intro v mem
  have stubs : violations content l.tag =
      (braceStubs l content).map fun s => s.toViolation (s.name ++ "() returns " ++ s.returned) := by
    rw [violations, Language.ofTag?_tag]
    cases l <;> first | rfl | exact absurd rfl braces
  rw [stubs] at mem
  obtain ⟨s, inside, rfl⟩ := List.mem_map.mp mem
  obtain ⟨r, declares, h, hit, measured⟩ := exists_hit_of_mem_braceStubs inside
  obtain ⟨-, closing, only, closes, one, returns⟩ := body_of_stubAt? measured
  refine ⟨r, declares, h, hit, s, closing, only, measured, rfl, closes, one, returns, fun alike => ?_⟩
  refine countNonBlank_of_agrees one (alike.elim id fun ends => ?_)
  exact agrees_of_endsWithLine (fun line mem => Text.not_mem_of_mem_lines mem) ends

/-- Its only statement stands in a comment. -/
def commentedOut : List Char := "func f() \x7b\n/*\nreturn 0\n*/\n\x7d".toList

theorem braceStubs_commentedOut : braceStubs .go commentedOut = [⟨1, "f", "0", false⟩] := by decide +kernel

theorem hits_commentedOut : (declarations .go).flatMap (·.all commentedOut) = [⟨0, 10, [(1, ⟨5, 6⟩)]⟩] := by decide +kernel

/-- A statement that is commented out counts as the line of a stub. -/
theorem commented_out_line_is_kept : ∃ v, violations commentedOut "go" = [v] ∧ ¬ HasOneCodeLine .go commentedOut v := by
  have go : Language.ofTag? "go" = some .go := by decide
  refine ⟨_, by simp only [violations, go, braceStubs_commentedOut]; rfl, ?_⟩
  rintro ⟨r, declares, h, hit, s, closing, -, -, closes, one⟩
  have among : h ∈ (declarations .go).flatMap (·.all commentedOut) := List.mem_flatMap.mpr ⟨r, declares, hit⟩
  rw [hits_commentedOut] at among
  obtain rfl := List.mem_singleton.mp among
  have brace : closing? commentedOut 9 = some 26 := by decide +kernel
  cases brace.symm.trans closes
  exact absurd one (by decide +kernel)

/-- A comment, and the only statement. -/
def shortStub : List Char := "func f() \x7b\n// a\nreturn 0\n\x7d".toList

theorem braceStubs_shortStub : braceStubs .go shortStub = [⟨1, "f", "0", false⟩] := by decide +kernel

theorem hits_shortStub : (declarations .go).flatMap (·.all shortStub) = [⟨0, 10, [(1, ⟨5, 6⟩)]⟩] := by decide +kernel

/-- Without its comment the body has one line. -/
theorem stubs_keep_one_line_shortStub :
    Language.go ≠ .python ∧ ∃ v, violations shortStub "go" = [v] ∧ HasOneCodeLine .go shortStub v := by
  have braces : Language.go ≠ .python := by decide
  have go : Language.ofTag? "go" = some .go := by decide
  have told : violations shortStub "go" = [toViolation ⟨1, "f", "0", false⟩ "f() returns 0"] := by
    simp only [violations, go, braceStubs_shortStub]
    rfl
  refine ⟨braces, _, told, ?_⟩
  obtain ⟨r, declares, h, hit, s, closing, only, measured, same, closes, -, -, left⟩ :=
    stubs_keep_one_line shortStub braces _ (told ▸ List.mem_singleton_self _)
  refine ⟨r, declares, h, hit, s, closing, measured, same, closes, left (.inl ?_)⟩
  have among : h ∈ (declarations .go).flatMap (·.all shortStub) := List.mem_flatMap.mpr ⟨r, declares, hit⟩
  rw [hits_shortStub] at among
  obtain rfl := List.mem_singleton.mp among
  have brace : closing? shortStub 9 = some 25 := by decide +kernel
  cases brace.symm.trans closes
  decide +kernel

end Measure.Stub

end CodeHygiene
