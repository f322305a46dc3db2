import CodeHygiene.Proofs.Documented
import CodeHygiene.Proofs.Lexicon

/-!
Where the claims of a file stand.

A line of a source file is searched as a whole when it is part of a block, begins one or begins with a line mark; of any
other line only what follows its first line mark (`turn`). A line with the offset from which on it is searched is a
`Stretch`. A claim counts its column from there.

Proved:
(1) The lines that are searched are stretches of the content (`searched_eq`), in the order of the file, and only a comment
    behind code does not begin its line (`stretchesFrom_cases`).
(2) A claim is a whole word of its stretch in any case, at its column (`exists_spans`).
(3) So it stands in its line where the stretch begins and as many characters on as its column says, and claims come by line
    and column (`claims_stand_where_searched`).
Its column is not its place in the line when code stands before the comment (`column_behind_code`).
-/

namespace CodeHygiene

namespace Text

/-- A boundary of the end of a text is one of the text, unless it is where that end begins. -/
theorem isBoundary_drop {text : List Char} {n j : Nat} (later : n = 0 ∨ j ≠ 0) (le : n + j ≤ text.length) :
    IsBoundary (text.drop n) j ↔ IsBoundary text (n + j) := by
  rcases later with rfl | later
  · rw [Nat.zero_add, List.drop_zero]
  · have some : (text.drop n).take j ≠ [] := by
      rw [Ne, List.take_eq_nil_iff, List.drop_eq_nil_iff]
      omega
    rw [IsBoundary, IsBoundary, List.take_add, List.getLast?_append_of_ne_nil _ some, List.drop_drop]

theorem slice_drop (text : List Char) (n i j : Nat) : slice (text.drop n) i j = slice text (n + i) (n + j) := by
  rw [slice, slice, List.drop_drop, Nat.add_sub_add_left]

/-- A line that holds a mark behind blanks only begins with it. -/
theorem prefix_trim_of_blank {mark line : List Char} (visible : ∀ c ∈ mark, isBlank c = false) {n : Nat}
    (there : mark <+: line.drop n) (blank : isBlankLine (line.take n) = true) : mark <+: trim line := by
  cases mark with
  | nil => exact List.nil_prefix
  | cons c mark =>
    obtain ⟨behind, eq⟩ := there
    have front : trimLeft line = c :: mark ++ behind := by
      rw [← List.take_append_drop n line, ← eq, trimLeft, List.dropWhile_append_of_pos (List.all_eq_true.mp blank)]
      exact List.dropWhile_cons_of_neg (by simp [visible c List.mem_cons_self])
    obtain ⟨back, eq', blanks⟩ := exists_trimLeft_eq line
    refine prefix_of_prefix_append visible (fun c first => blanks c (List.mem_of_mem_head? first)) ?_
    exact ⟨behind, by rw [← eq', front]⟩

end Text

namespace Claim

open Regex (Hit)

variable {lex : Lexicon} {line : List Char} {file : String}

/-! ## What is searched -/

/-- A line of a file, with its number, and the offset from which on it is searched. -/
structure Stretch where
  number : Nat
  line : List Char
  start : Nat
  deriving DecidableEq, Repr

def Stretch.text (s : Stretch) : List Char := s.line.drop s.start

/-- From which offset on a line is searched, if at all, and what closes the block that is open behind it. `inside` is what
closes the block in which the line begins. -/
def turn (l : Language) (inside : Option (List Char)) (line : List Char) : Option Nat × Option (List Char) :=
  match inside with
  | some stop => (some 0, if Text.holds stop (Text.trim line) then none else some stop)
  | none =>
    if Text.startsWith l.marks.line (Text.trim line) then (some 0, none)
    else match opening? l (Text.trim line) with
      | some (after, stop) => (some 0, if Text.holds stop after then none else some stop)
      | none => (Text.find? l.marks.line line, none)

def stretchesFrom (l : Language) (number : Nat) (inside : Option (List Char)) : List (List Char) → List Stretch
  | [] => []
  | line :: rest =>
    let (start, behind) := turn l inside line
    (start.map (Stretch.mk number line)).toList ++ stretchesFrom l (number + 1) behind rest

theorem commentsFrom_cons (l : Language) (number : Nat) (inside : Option (List Char)) (line : List Char)
    (rest : List (List Char)) : commentsFrom l number inside (line :: rest) =
      ((turn l inside line).1.map fun start => (number, line.drop start)).toList ++
        commentsFrom l (number + 1) (turn l inside line).2 rest := by
  cases inside with
  | some stop => rfl
  | none =>
    simp only [commentsFrom, turn]
    split
    · rfl
    · cases opening? l (Text.trim line) with
      | some opened => rfl
      | none => cases Text.find? l.marks.line line <;> rfl

theorem commentsFrom_eq (l : Language) (number : Nat) (inside : Option (List Char)) (lines : List (List Char)) :
    commentsFrom l number inside lines = (stretchesFrom l number inside lines).map fun s => (s.number, s.text) := by
  induction lines generalizing number inside with
  | nil => rfl
  | cons line rest ih =>
    rw [commentsFrom_cons, ih, stretchesFrom, List.map_append]
    congr 1
    cases (turn l inside line).1 <;> rfl

/-- The stretches of a file: its comments, or each line of a file that is not source. -/
def stretches (file : String) (content : List Char) : List Stretch :=
  match Language.ofPath? file with
  | none => (numbered 1 (Text.lines content)).map fun (number, line) => ⟨number, line, 0⟩
  | some l => stretchesFrom l 1 none (Text.lines content)

theorem stretches_of_language {l : Language} (known : Language.ofPath? file = some l) (content : List Char) :
    stretches file content = stretchesFrom l 1 none (Text.lines content) := by
  unfold stretches
  split
  next unknown => cases known.symm.trans unknown
  next l' known' =>
    cases known.symm.trans known'
    rfl

theorem searched_eq (file : String) (content : List Char) :
    searched file content = (stretches file content).map fun s => (s.number, s.text) := by
  unfold searched stretches
  generalize Language.ofPath? file = known
  cases known with
  | none => simp [Function.comp_def, Stretch.text]
  | some l => exact commentsFrom_eq l 1 none _

/-- Before an offset of the line there is code, and there is the first line mark. -/
def IsBehindCode (l : Language) (line : List Char) (n : Nat) : Prop :=
  Text.find? l.marks.line line = some n ∧ Text.isBlankLine (line.take n) = false

instance (l : Language) (line : List Char) (n : Nat) : Decidable (IsBehindCode l line n) :=
  inferInstanceAs (Decidable (_ ∧ _))

theorem lineMark (l : Language) : ∃ c more, l.marks.line = c :: more ∧ Text.isWord c = false := by
  cases l with
  | python => exact ⟨'#', [], rfl, by decide⟩
  | _ => exact ⟨'/', ['/'], rfl, by decide⟩

theorem isBlank_of_mem_lineMark {l : Language} {c : Char} (mem : c ∈ l.marks.line) : Text.isBlank c = false := by
  have visible : (l.marks.line.all fun c => !Text.isBlank c) = true := by cases l <;> decide
  simpa using List.all_eq_true.mp visible c mem

/-- Only a comment behind code does not begin its line. -/
theorem start_of_turn {l : Language} {inside : Option (List Char)} {n : Nat} (found : (turn l inside line).1 = some n) :
    n = 0 ∨ IsBehindCode l line n := by
  unfold turn at found
  split at found
  · exact .inl (Option.some.inj found).symm
  · split at found
    next => exact .inl (Option.some.inj found).symm
    next unmarked =>
      split at found
      · exact .inl (Option.some.inj found).symm
      · refine .inr ⟨found, Bool.eq_false_iff.mpr fun blank => unmarked ?_⟩
        obtain ⟨c, more, eq, -⟩ := lineMark l
        have there := ((Text.find?_eq_some_iff (by rw [eq]; exact List.cons_ne_nil _ _)).mp found).1
        exact Text.startsWith_iff.mpr (Text.prefix_trim_of_blank (fun _ => isBlank_of_mem_lineMark) there blank)

theorem mem_stretchesFrom {l : Language} {number : Nat} {inside : Option (List Char)} {lines : List (List Char)} {s : Stretch}
    (mem : s ∈ stretchesFrom l number inside lines) :
    number ≤ s.number ∧ lines[s.number - number]? = some s.line ∧ (s.start = 0 ∨ IsBehindCode l s.line s.start) := by
  induction lines generalizing number inside with
  | nil => cases mem
  | cons line rest ih =>
    rw [stretchesFrom, List.mem_append] at mem
    rcases mem with here | later
    · obtain ⟨n, found, rfl⟩ := Option.map_eq_some_iff.mp (Option.mem_toList.mp here)
      exact ⟨Nat.le_refl _, by simp, start_of_turn found⟩
    · obtain ⟨le, there, begins⟩ := ih later
      refine ⟨by omega, ?_, begins⟩
      rw [show s.number - number = s.number - (number + 1) + 1 by omega, List.getElem?_cons_succ]
      exact there

theorem pairwise_stretchesFrom (l : Language) (number : Nat) (inside : Option (List Char)) (lines : List (List Char)) :
    (stretchesFrom l number inside lines).Pairwise fun s t => s.number < t.number := by
  induction lines generalizing number inside with
  | nil => exact .nil
  | cons line rest ih =>
    rw [stretchesFrom, List.pairwise_append]
    refine ⟨?_, ih _ _, fun s here t later => ?_⟩
    · cases (turn l inside line).1 with
      | none => exact .nil
      | some n => exact List.pairwise_singleton _ _
    · obtain ⟨n, -, rfl⟩ := Option.map_eq_some_iff.mp (Option.mem_toList.mp here)
      exact (mem_stretchesFrom later).1

theorem mem_numbered {number : Nat} {lines : List (List Char)} {entry : Nat × List Char}
    (mem : entry ∈ numbered number lines) : number ≤ entry.1 ∧ lines[entry.1 - number]? = some entry.2 := by
  induction lines generalizing number with
  | nil => cases mem
  | cons line rest ih =>
    rcases List.mem_cons.mp mem with rfl | later
    · exact ⟨Nat.le_refl _, by simp⟩
    · obtain ⟨le, there⟩ := ih later
      refine ⟨by omega, ?_⟩
      rw [show entry.1 - number = entry.1 - (number + 1) + 1 by omega, List.getElem?_cons_succ]
      exact there

theorem pairwise_numbered (number : Nat) (lines : List (List Char)) :
    (numbered number lines).Pairwise fun entry other => entry.1 < other.1 := by
  induction lines generalizing number with
  | nil => exact .nil
  | cons line rest ih => exact List.pairwise_cons.mpr ⟨fun _ later => (mem_numbered later).1, ih _⟩

/-- Stretches are lines of the content, and only a comment behind code does not begin its line. -/
theorem mem_stretches {content : List Char} {s : Stretch} (mem : s ∈ stretches file content) :
    1 ≤ s.number ∧ (Text.lines content)[s.number - 1]? = some s.line ∧
      (s.start = 0 ∨ ∃ l, Language.ofPath? file = some l ∧ IsBehindCode l s.line s.start) := by
  unfold stretches at mem
  split at mem
  next =>
    obtain ⟨entry, among, rfl⟩ := List.mem_map.mp mem
    exact ⟨(mem_numbered among).1, (mem_numbered among).2, .inl rfl⟩
  next l found =>
    obtain ⟨le, there, begins⟩ := mem_stretchesFrom mem
    exact ⟨le, there, begins.imp_right fun behind => ⟨l, found, behind⟩⟩

theorem pairwise_stretches (file : String) (content : List Char) :
    (stretches file content).Pairwise fun s t => s.number < t.number := by
  unfold stretches
  split
  next => exact List.pairwise_map.mpr (pairwise_numbered 1 _)
  next l _ => exact pairwise_stretchesFrom l 1 none _

/-! ## Where claims stand -/

/-- A word is read between two offsets of a line, case ignored, and no word of the line reaches over them. -/
structure Spans (word : String) (line : List Char) (start stop : Nat) : Prop where
  le : start ≤ stop
  within : stop ≤ line.length
  reads : Text.lower (Text.slice line start stop) = Text.lower word.toList
  starts : Text.IsBoundary line start
  stops : Text.IsBoundary line stop

/-- A word stands at an offset of a line. -/
def StandsAt (word : String) (line : List Char) (i : Nat) : Prop := ∃ stop, Spans word line i stop

/-- A claim on a line is a match there, and the lexicon has its meaning. -/
theorem mem_claimsOn_iff {p : Regex} {number : Nat} {text : List Char} {c : Claim} :
    c ∈ claimsOn lex p file number text ↔ ∃ h ∈ p.all text, ∃ word m, h.groupText? text 1 = some word ∧
      lex.lookup (Text.lower word) = some m ∧ c = {
        file, line := number, column := h.start, word := m.word, category := m.category
        text := String.ofList (Text.trim text), isPositive := isAsserted text } := by
  rw [claimsOn, List.mem_filterMap]
  refine exists_congr fun h => and_congr_right fun _ => ?_
  simp only [Option.bind_eq_bind, Option.bind_eq_some_iff, Option.pure_def, Option.some.injEq]
  exact ⟨fun ⟨word, group, m, meaning, eq⟩ => ⟨word, m, group, meaning, eq.symm⟩,
    fun ⟨word, m, group, meaning, eq⟩ => ⟨word, group, m, meaning, eq.symm⟩⟩

theorem pairwise_claimsOn (lex : Lexicon) (file : String) (number : Nat) (text : List Char) :
    (claimsOn lex (pattern lex) file number text).Pairwise fun c d => c.line = d.line ∧ c.column < d.column := by
  rw [claimsOn, List.pairwise_filterMap]
  refine (Regex.pairwise_all (longestFirst_pattern lex) text).imp fun {h h'} before c found d found' => ?_
  simp only [Option.bind_eq_bind, Option.bind_eq_some_iff, Option.pure_def, Option.some.injEq] at found found'
  obtain ⟨-, -, -, -, rfl⟩ := found
  obtain ⟨-, -, -, -, rfl⟩ := found'
  exact ⟨rfl, before.1⟩

/-- The lexicon of a table; no categories at all stand for the usual ones. -/
def lexiconOf (categories : Categories) : Lexicon := lexicon (if categories.isEmpty then defaultCategories else categories)

theorem ofContent_eq (content : List Char) (file : String) (categories : Categories) : ofContent content file categories =
    (stretches file content).flatMap fun s =>
      claimsOn (lexiconOf categories) (pattern (lexiconOf categories)) file s.number s.text := by
  rw [ofContent, searched_eq, List.flatMap_map]
  rfl

/-- A claim is a whole word of a stretch, at its column. -/
theorem exists_spans {categories : Categories} {number : Nat} {text : List Char} {c : Claim}
    (mem : c ∈ claimsOn (lexiconOf categories) (pattern (lexiconOf categories)) file number text) :
    c.line = number ∧ ∃ stop, Spans c.word text c.column stop := by
  obtain ⟨h, among, word, m, group, meaning, rfl⟩ := mem_claimsOn_iff.mp mem
  obtain ⟨taken, le, within, starts, stops⟩ := span_of_mem_all among
  obtain rfl := Option.some.inj (taken.symm.trans group)
  obtain ⟨-, -, -, reads, -⟩ := (lookup_lexicon _ _ _).mp meaning
  exact ⟨rfl, h.stop, le, within, reads.symm, starts, stops⟩

/-- No word begins where a comment behind code does. -/
theorem column_ne_zero {l : Language} {n : Nat} {word : String} {stop : Nat} (behind : IsBehindCode l line n)
    (spans : Spans word (line.drop n) 0 stop) : False := by
  obtain ⟨c, more, eq, other⟩ := lineMark l
  have there := ((Text.find?_eq_some_iff (by rw [eq]; exact List.cons_ne_nil _ _)).mp behind.1).1
  obtain ⟨rest, eq'⟩ := there
  have starts := spans.starts
  rw [Text.IsBoundary, ← eq', eq] at starts
  simp [other] at starts

theorem Spans.start_or_ne {s : Stretch} {word : String} {i stop : Nat}
    (begins : s.start = 0 ∨ ∃ l, Language.ofPath? file = some l ∧ IsBehindCode l s.line s.start)
    (spans : Spans word s.text i stop) : s.start = 0 ∨ i ≠ 0 :=
  begins.imp_right fun ⟨l, _, behind⟩ zero => column_ne_zero behind (by rw [← zero]; exact spans)

/-- What is read in a stretch is read in its line, as far on as the stretch begins. -/
theorem Spans.of_text {s : Stretch} {word : String} {i stop : Nat}
    (begins : s.start = 0 ∨ ∃ l, Language.ofPath? file = some l ∧ IsBehindCode l s.line s.start)
    (spans : Spans word s.text i stop) : Spans word s.line (s.start + i) (s.start + stop) := by
  have some := spans.start_or_ne begins
  have le := spans.le
  have within : s.start + stop ≤ s.line.length := by
    have shorter := spans.within
    rw [Stretch.text, List.length_drop] at shorter
    omega
  refine ⟨by omega, within, ?_, ?_, ?_⟩
  · rw [← Text.slice_drop]
    exact spans.reads
  · exact (Text.isBoundary_drop some (by omega)).mp spans.starts
  · exact (Text.isBoundary_drop (by omega) within).mp spans.stops

/-- A claim stands in a line that is searched, as many characters behind the place where its search begins as its column
says. That place is the start of the line, or the first line mark where code stands before it; so its column is its place in
the line wherever nothing but blanks stands before a line mark. Claims come by line and column. -/
theorem claims_stand_where_searched (content : List Char) (file : String) (categories : Categories) :
    (∀ c ∈ ofContent content file categories, ∃ s ∈ stretches file content,
      c.line = s.number ∧ StandsAt c.word s.line (s.start + c.column)) ∧
    (∀ s ∈ stretches file content, 1 ≤ s.number ∧ (Text.lines content)[s.number - 1]? = some s.line ∧
      (s.start = 0 ∨ ∃ l, Language.ofPath? file = some l ∧ IsBehindCode l s.line s.start)) ∧
    ((∀ l, Language.ofPath? file = some l → ∀ line ∈ Text.lines content, ∀ n, ¬ IsBehindCode l line n) →
      ∀ c ∈ ofContent content file categories, ∃ line, 1 ≤ c.line ∧ (Text.lines content)[c.line - 1]? = some line ∧
        StandsAt c.word line c.column) ∧
    (ofContent content file categories).Pairwise fun c d => c.line < d.line ∨ c.line = d.line ∧ c.column < d.column := by
  have stands : ∀ c ∈ ofContent content file categories, ∃ s ∈ stretches file content,
      c.line = s.number ∧ StandsAt c.word s.line (s.start + c.column) := by
    intro c mem
    rw [ofContent_eq] at mem
    obtain ⟨s, among, mem⟩ := List.mem_flatMap.mp mem
    obtain ⟨number, stop, spans⟩ := exists_spans mem
    exact ⟨s, among, number, s.start + stop, spans.of_text (mem_stretches among).2.2⟩
  refine ⟨stands, fun s => mem_stretches, fun bare c mem => ?_, ?_⟩
  · obtain ⟨s, among, number, place⟩ := stands c mem
    obtain ⟨le, there, begins⟩ := mem_stretches among
    have start : s.start = 0 := begins.resolve_right fun ⟨l, known, behind⟩ =>
      bare l known s.line (List.mem_of_getElem? there) s.start behind
    rw [start, Nat.zero_add] at place
    exact ⟨s.line, number ▸ le, number ▸ there, place⟩
  · rw [ofContent_eq, List.pairwise_flatMap]
    refine ⟨fun s _ => (pairwise_claimsOn _ _ _ _).imp .inr, (pairwise_stretches file content).imp fun before c mem d mem' => ?_⟩
    exact .inl (by rw [(exists_spans mem).1, (exists_spans mem').1]; exact before)

/-- Words that stand from the longest to the shortest are tried in the order of the table. -/
theorem byLength_of_pairwise (sorted : lex.keys.Pairwise fun a b => b.length ≤ a.length) : byLength lex = lex.keys :=
  List.mergeSort_of_pairwise (sorted.imp decide_eq_true)

def scaleTable : Categories := [("scale", ["highly scalable", "scalable"])]

theorem byLength_scaleTable : byLength (lexiconOf scaleTable) = ["highly scalable".toList, "scalable".toList] :=
  byLength_of_pairwise (by decide)

/-- Code, and an indented comment below it. -/
def commentBelow : List Char := "x()\n  // is Scalable".toList

theorem claims_commentBelow : ofContent commentBelow "a.js" scaleTable =
    [⟨"a.js", 2, 8, "scalable", "scale", "// is Scalable", true⟩] := by
  rw [ofContent_eq, pattern, byLength_scaleTable]
  decide +kernel

/-- No code stands before the comment, and the claim stands at its column. -/
theorem claims_stand_where_searched_commentBelow :
    (∀ l, Language.ofPath? "a.js" = some l → ∀ line ∈ Text.lines commentBelow, ∀ n, ¬ IsBehindCode l line n) ∧
    ∃ c ∈ ofContent commentBelow "a.js" scaleTable, c.line = 2 ∧ c.column = 8 ∧
      ∃ line, (Text.lines commentBelow)[1]? = some line ∧ StandsAt "scalable" line 8 := by
  have bare : ∀ l, Language.ofPath? "a.js" = some l → ∀ line ∈ Text.lines commentBelow, ∀ n, ¬ IsBehindCode l line n := by
    intro l known line mem n behind
    cases known.symm.trans (show Language.ofPath? "a.js" = some .javascript by decide +kernel)
    have early : ∀ line ∈ Text.lines commentBelow, ((Text.find? Language.javascript.marks.line line).all fun n =>
      Text.isBlankLine (line.take n)) = true := by decide
    have blank := early line mem
    rw [behind.1, Option.all_some, behind.2] at blank
    cases blank
  have mem : ⟨"a.js", 2, 8, "scalable", "scale", "// is Scalable", true⟩ ∈ ofContent commentBelow "a.js" scaleTable := by
    rw [claims_commentBelow]
    exact List.mem_singleton_self _
  obtain ⟨-, -, stand, -⟩ := claims_stand_where_searched commentBelow "a.js" scaleTable
  obtain ⟨line, -, there, place⟩ := stand bare _ mem
  exact ⟨bare, _, mem, rfl, rfl, line, there, place⟩

/-- Behind code the column counts from the comment on: no word begins there in the line. -/
theorem column_behind_code : ∃ c ∈ ofContent "x = 1  # this is scalable".toList "a.py" scaleTable,
    c.line = 1 ∧ c.column = 10 ∧ (Text.lines "x = 1  # this is scalable".toList)[0]? = some "x = 1  # this is scalable".toList ∧
      ¬ StandsAt c.word "x = 1  # this is scalable".toList 10 := by
  have only : ofContent "x = 1  # this is scalable".toList "a.py" scaleTable =
      [⟨"a.py", 1, 10, "scalable", "scale", "# this is scalable", true⟩] := by
    rw [ofContent_eq, pattern, byLength_scaleTable]
    decide +kernel
  rw [only]
  refine ⟨_, List.mem_singleton_self _, rfl, rfl, by decide, ?_⟩
  rintro ⟨_, spans⟩
  exact absurd spans.starts (by decide)

end Claim

end CodeHygiene
