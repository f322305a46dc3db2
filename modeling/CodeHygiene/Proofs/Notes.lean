import CodeHygiene.Proofs.Claims
import CodeHygiene.Proofs.Lexis

/-!
Claims and the comments and docstrings in which they lie.

What is a comment is read off the marks on a line (`turn`): of literals the search knows nothing. Here it is compared with the
lexical structure of the language, `marksAt`, for every answer that a parser may give.

Proved:
(1) A claim lies between the first word that is searched on its line and the last (`inNote_of_words`), and what stands from the
    one to the other is a claim when it is the word of a table (`exists_claim_of_words`).
(2) What is open goes on until what closes it stands (`Carries.agree`), so behind a tidy line the search knows what is open
    (`Tidy.agree`), and on it all that is searched lies in one comment or docstring (`Tidy.words`).
(3) So claims lie in comments and docstrings exactly where the words that are searched do, and in particular in a file whose
    lines are tidy (`claims_lie_in_notes`).
Behind the slashes of an address, in a string, is a claim that lies in no comment (`claim_in_literal`).
-/

namespace CodeHygiene

namespace Text

theorem drop_indentation (text : List Char) : text.drop (indentation text) = trimLeft text := by
  have cut : (text.takeWhile isBlank ++ trimLeft text).drop (indentation text) = trimLeft text := List.drop_left
  rwa [trimLeft_append_takeWhile] at cut

/-- Where a piece stands it is found, there or before. -/
theorem exists_find?_le {piece text : List Char} (some : piece ≠ []) {i : Nat} (there : piece <+: text.drop i) :
    ∃ n ≤ i, find? piece text = Option.some n := by
  have inside : holds piece text = true := holds_iff.mpr (there.isInfix.trans (List.drop_suffix i text).isInfix)
  obtain ⟨n, found⟩ := Option.isSome_iff_exists.mp inside
  refine ⟨n, ?_, found⟩
  by_contra later
  exact ((find?_eq_some_iff some).mp found).2 i (Nat.lt_of_not_le later) there

end Text

namespace Claim

open Lexis
open Text (trim trimRight indentation isBlank isWord)

variable {l : Language} {s behind : State} {line text stop : List Char} {marks : List Mark}

/-! ## Words in notes -/

def IsWordAt (text : List Char) (i : Nat) : Prop := ∃ c ∈ text[i]?, isWord c = true

instance (text : List Char) (i : Nat) : Decidable (IsWordAt text i) := inferInstanceAs (Decidable (∃ c ∈ text[i]?, _))

/-- From the first word of a line, from an offset on, to the last everything belongs to one comment or docstring. -/
def WordsInNote (marks : List Mark) (line : List Char) (start : Nat) : Prop :=
  ∀ i j, start ≤ i → i ≤ j → IsWordAt line i → IsWordAt line j → InNote marks i (j + 1)

theorem IsWordAt.exists_visible {i : Nat} : IsWordAt text i → ∃ c, text[i]? = some c ∧ isBlank c = false :=
  fun ⟨c, there, word⟩ => ⟨c, there, Text.isBlank_of_isWord word⟩

theorem wordsInNote_of_alone {start : Nat} (alone : InNote marks (indentation line) (trimRight line).length) :
    WordsInNote marks line start := by
  intro i j _ le word word'
  obtain ⟨c, there, visible⟩ := word.exists_visible
  obtain ⟨d, there', visible'⟩ := word'.exists_visible
  exact alone.within (Text.indentation_le_of_visible there visible) (Text.lt_length_trimRight_of_visible there' visible')

/-! ## Tidy lines -/

/-- A line begins in a block comment or docstring, or with a comment or docstring. -/
def BeginsInNote (l : Language) (s : State) (line : List Char) (marks : List Mark) : Prop :=
  (s.mode.stop? l).isSome = true ∨ s.mode = .code ∧ ∃ m ∈ marks[indentation line]?, m.kind.isNote = true

instance : Decidable (BeginsInNote l s line marks) := inferInstanceAs (Decidable (_ ∨ _))

/-- What of a line lies behind the opening of the block comment or docstring in which or with which it begins, and what closes
that one. -/
def inner? (l : Language) (s : State) (line : List Char) : Option (List Char × List Char) :=
  match s.mode.stop? l with
  | some stop => some (trim line, stop)
  | none => opening? l (trim line)

/-- A line that tells its comments and docstrings apart from the rest, between the states before and behind it. -/
structure Tidy (l : Language) (s : State) (line : List Char) (marks : List Mark) (behind : State) : Prop where
  /-- A block comment or docstring that goes on below the line was open before or begins the line. -/
  begins : (behind.mode.stop? l).isSome = true → (inner? l s line).isSome = true
  /-- A line that begins in a comment or docstring, or with one, holds nothing else. -/
  alone : BeginsInNote l s line marks → InNote marks (indentation line) (trimRight line).length
  /-- Where comments nest or ends are escaped: where what closes the comment or docstring stands, that one is closed. -/
  closes : l = .rust ∨ l = .python → ∀ part ∈ inner? l s line, Text.holds part.2 part.1 = true → behind.mode.stop? l = none
  /-- Any other line does not begin like a block, and its first line mark and all behind it are part of one comment. -/
  others : ¬ BeginsInNote l s line marks → opening? l (trim line) = none ∧
    ∀ n ∈ Text.find? l.marks.line line, InNote marks n line.length

/-! ## What is open behind a line -/

/-- In Python a docstring between three quotes. -/
def documentation (quote : Char) : Literal := { tripled quote with kind := .docstring }

/-- A block comment or a docstring of several lines is open. -/
inductive Carries (l : Language) : State → List Char → Prop where
  | block (depth : Nat) (embedded : List Nat) (flat : l ≠ .rust → depth = 0) (other : l ≠ .python) :
      Carries l ⟨.block depth, embedded⟩ l.marks.blockEnd
  | docstring (quote : Char) (embedded : List Nat) (python : l = .python) (isQuote : quote = '\'' ∨ quote = '"') :
      Carries l ⟨.literal (documentation quote) false, embedded⟩ [quote, quote, quote]

theorem Carries.stop? (carries : Carries l s stop) : s.mode.stop? l = some stop := by
  cases carries <;> rfl

theorem Carries.visible (carries : Carries l s stop) : stop ≠ [] ∧ ∀ c ∈ stop, isBlank c = false := by
  cases carries with
  | block _ _ _ _ =>
    have visible : (l.marks.blockEnd.all fun c => !isBlank c) = true := by cases l <;> decide
    exact ⟨by cases l <;> exact List.cons_ne_nil _ _, fun c mem => by simpa using List.all_eq_true.mp visible c mem⟩
  | docstring quote _ _ isQuote => rcases isQuote with rfl | rfl <;> simp <;> decide

section Line

variable {parsed : Nat → Answer} {offset : Nat} {kind : Kind}

/-- What is open goes on where what closes it does not stand. -/
theorem Carries.goesOn (carries : Carries l s stop) (away : ¬ stop <:+: text) :
    Carries l (readFrom l parsed offset 0 kind s text).2 stop := by
  cases carries with
  | block depth embedded flat other =>
    obtain ⟨depth', same, eq⟩ : ∃ depth', (l ≠ .rust → depth' = depth) ∧
        (readFrom l parsed offset 0 kind ⟨.block depth, embedded⟩ text).2 = ⟨.block depth', embedded⟩ := readFrom_block away depth
    rw [eq]
    exact .block depth' embedded (fun plain => (same plain).trans (flat plain)) other
  | docstring quote embedded python isQuote =>
    rw [readFrom_literal rfl rfl rfl away]
    exact .docstring quote embedded python isQuote

/-- What is open is closed where what closes it stands and comments do not nest. -/
theorem Carries.closes (carries : Carries l s stop) (flat : ¬ (l = .rust ∨ l = .python)) (held : stop <:+: text)
    (alone : (text.zip (readFrom l parsed offset 0 kind s text).1).Pairwise fun x y =>
      isBlank x.1 = false → isBlank y.1 = false → y.2.continues = true) :
    (readFrom l parsed offset 0 kind s text).2.mode.stop? l = none := by
  cases carries with
  | block depth embedded plain other =>
    obtain rfl := plain fun rust => flat (.inl rust)
    rw [readFrom_block_of_closed (fun rust => flat (.inl rust)) held alone]
    rfl
  | docstring quote embedded python isQuote => exact absurd (.inr python) flat

/-- Behind the first visible character of a line that is part of one comment or docstring, every other goes on with it. -/
theorem pairwise_of_alone (alone : InNote marks (indentation line) (trimRight line).length) :
    (line.zip marks).Pairwise fun x y => isBlank x.1 = false → isBlank y.1 = false → y.2.continues = true := by
  rw [List.pairwise_iff_getElem]
  intro i j bound bound' less visible visible'
  rw [List.length_zip] at bound bound'
  simp only [List.getElem_zip] at visible visible' ⊢
  have first := Text.indentation_le_of_visible (List.getElem?_eq_getElem (by omega)) visible
  have last := Text.lt_length_trimRight_of_visible (List.getElem?_eq_getElem (by omega)) visible'
  obtain ⟨m, there, note, opens⟩ := alone j last (by omega)
  rw [List.getElem?_eq_getElem (by omega), Option.mem_some_iff] at there
  rw [there, Mark.continues, note, opens (by omega)]
  rfl

/-- A block begins with its mark, or with three quotes. -/
theorem opening?_cases {after : List Char} (opens : opening? l text = some (after, stop)) :
    (l ≠ .python ∧ text = l.marks.blockStart ++ after ∧ stop = l.marks.blockEnd) ∨
    (l = .python ∧ ∃ quote, (quote = '\'' ∨ quote = '"') ∧ text = [quote, quote, quote] ++ after ∧
      stop = [quote, quote, quote]) := by
  obtain ⟨⟨start, stop'⟩, among, eq⟩ := List.exists_of_findSome?_eq_some opens
  obtain ⟨after', found, eq⟩ := Option.map_eq_some_iff.mp eq
  obtain ⟨rfl, rfl⟩ := Prod.mk.inj eq
  have split := Text.after?_eq_some_iff.mp found
  cases l with
  | python =>
    rcases List.mem_cons.mp among with same | among
    · obtain ⟨rfl, rfl⟩ := Prod.mk.inj same
      exact .inr ⟨rfl, '\'', .inl rfl, split, rfl⟩
    · obtain ⟨rfl, rfl⟩ := Prod.mk.inj (List.mem_singleton.mp among)
      exact .inr ⟨rfl, '"', .inr rfl, split, rfl⟩
  | _ =>
    obtain ⟨rfl, rfl⟩ := Prod.mk.inj (List.mem_singleton.mp among)
    exact .inl ⟨by decide, split, rfl⟩

/-- The first visible character of a line in code is marked as its token is. -/
theorem mark_of_token {front rest : List Char} {c : Char} (code : s.mode = .code) (blank : ∀ c ∈ front, isBlank c = true)
    (visible : isBlank c = false) (whole : line = front ++ c :: rest) :
    (readLine l parsed s line).1[indentation line]? = some (token l (parsed front.length) s c rest).mark := by
  subst whole
  have indented : indentation (front ++ c :: rest) = front.length := by
    rw [indentation, List.takeWhile_append_of_pos blank, List.takeWhile_cons_of_neg (by simp [visible]), List.append_nil]
  rw [indented, readLine, readFrom_blanks code blank, Nat.zero_add, readFrom,
    List.getElem?_append_right (by rw [List.length_replicate]), List.length_replicate, Nat.sub_self]
  rfl

/-- Behind the first token of a line in code the rest of the line is read. -/
theorem exists_read_of_token {front more rest : List Char} {c : Char} {t : Token} (code : s.mode = .code)
    (blank : ∀ c ∈ front, isBlank c = true) (whole : line = front ++ (c :: (more ++ rest)))
    (read : token l (parsed front.length) s c (more ++ rest) = t) (width : t.width = more.length + 1) :
    ∃ offset kind, (readFrom l parsed offset 0 kind t.next rest).2 = (readLine l parsed s line).2 ∧
      rest.zip (readFrom l parsed offset 0 kind t.next rest).1 <:+ line.zip (readLine l parsed s line).1 := by
  subst whole
  rw [readLine, readFrom_blanks code blank, Nat.zero_add, readFrom_token read width]
  refine ⟨front.length + 1 + more.length, t.mark.kind, rfl, front.zip (List.replicate front.length ⟨.code, false⟩) ++
    (c, t.mark) :: more.zip (List.replicate more.length ⟨t.mark.kind, false⟩), ?_⟩
  rw [List.zip_append (List.length_replicate).symm, List.zip_cons_cons, List.zip_append (List.length_replicate).symm,
    List.append_assoc, List.cons_append]

/-- The token with which a block comment opens. -/
theorem token_blockStart {more rest : List Char} {c : Char} {told : Answer} (other : l ≠ .python) (code : s.mode = .code)
    (eq : l.marks.blockStart = c :: more) (note : (token l told s c (more ++ rest)).mark.kind.isNote = true) :
    token l told s c (more ++ rest) = ⟨⟨.comment, true⟩, more.length + 1, ⟨.block 0, s.embedded⟩⟩ := by
  have opens : opened? l told (c :: (more ++ rest)) = some (more.length + 1, .block 0) ∨
      opened? l told (c :: (more ++ rest)) = some (1, .text) := by
    cases l <;> first | exact absurd rfl other | (cases eq; cases told <;> first | exact .inl rfl | exact .inr rfl)
  simp only [token, code, inCode] at note ⊢
  rcases opens with opens | opens
  · simp only [opens]
    rfl
  · simp only [opens] at note
    cases note

/-- The token with which a docstring between three quotes opens. -/
theorem token_tripled {rest : List Char} {quote : Char} {told : Answer} (isQuote : quote = '\'' ∨ quote = '"')
    (code : s.mode = .code) (note : (token .python told s quote ([quote, quote] ++ rest)).mark.kind.isNote = true) :
    token .python told s quote ([quote, quote] ++ rest) =
      ⟨⟨.docstring, true⟩, 3, ⟨.literal (documentation quote) false, s.embedded⟩⟩ := by
  have opens : opened? .python told (quote :: ([quote, quote] ++ rest)) =
      some (3, .literal { tripled quote with kind := if told = .documentation then .docstring else .literal } false) := by
    rcases isQuote with rfl | rfl <;> cases told <;> rfl
  simp only [token, code, inCode, opens] at note ⊢
  cases told <;> first | rfl | cases note

/-- Behind the opening with which a line begins, what it opens is read. -/
theorem exists_carries_of_opening {after : List Char} (code : s.mode = .code) (opens : opening? l (trim line) = some (after, stop))
    (note : ∃ m ∈ (readLine l parsed s line).1[indentation line]?, m.kind.isNote = true) :
    ∃ next back offset kind, Carries l next stop ∧ (∀ c ∈ back, isBlank c = true) ∧
      (readFrom l parsed offset 0 kind next (after ++ back)).2 = (readLine l parsed s line).2 ∧
      (after ++ back).zip (readFrom l parsed offset 0 kind next (after ++ back)).1 <:+
        line.zip (readLine l parsed s line).1 := by
  obtain ⟨front, back, eq, leads, trails⟩ := Text.exists_eq_trim line
  obtain ⟨m, there, note⟩ := note
  rcases opening?_cases opens with ⟨other, split, rfl⟩ | ⟨rfl, quote, isQuote, split, rfl⟩
  · obtain ⟨c, more, eq', visible⟩ : ∃ c more, l.marks.blockStart = c :: more ∧ isBlank c = false := by
      cases l <;> exact ⟨_, _, rfl, by decide⟩
    rw [split, eq', List.append_assoc] at eq
    obtain rfl := Option.some.inj ((mark_of_token code leads visible eq).symm.trans there)
    obtain ⟨offset, kind, same, within⟩ := exists_read_of_token code leads eq (token_blockStart other code eq' note) rfl
    exact ⟨_, back, offset, kind, .block 0 s.embedded (fun _ => rfl) other, trails, same, within⟩
  · have visible : isBlank quote = false := by rcases isQuote with rfl | rfl <;> decide
    rw [split, List.append_assoc] at eq
    obtain rfl := Option.some.inj ((mark_of_token code leads visible eq).symm.trans there)
    obtain ⟨offset, kind, same, within⟩ := exists_read_of_token code leads eq (token_tripled isQuote code note) rfl
    exact ⟨_, back, offset, kind, .docstring quote s.embedded rfl isQuote, trails, same, within⟩

/-- The search and the reading agree on what is open. -/
def Agree (l : Language) (s : State) : Option (List Char) → Prop
  | some stop => Carries l s stop
  | none => s.mode.stop? l = none

/-- What is open is closed where the search finds what closes it. -/
theorem Carries.agree {part : List Char} (carries : Carries l s stop) (same : Text.holds stop part = true ↔ stop <:+: text)
    (special : l = .rust ∨ l = .python → Text.holds stop part = true →
      (readFrom l parsed offset 0 kind s text).2.mode.stop? l = none)
    (alone : (text.zip (readFrom l parsed offset 0 kind s text).1).Pairwise fun x y =>
      isBlank x.1 = false → isBlank y.1 = false → y.2.continues = true) :
    Agree l (readFrom l parsed offset 0 kind s text).2 (if Text.holds stop part then none else some stop) := by
  by_cases held : Text.holds stop part = true
  · rw [if_pos held]
    by_cases nested : l = .rust ∨ l = .python
    · exact special nested held
    · exact carries.closes nested (same.mp held) alone
  · rw [if_neg held]
    exact carries.goesOn (mt same.mpr held)

/-- A line mark opens no block. -/
theorem opening?_of_lineMark (marked : l.marks.line <+: text) : opening? l text = none := by
  obtain ⟨rest, rfl⟩ := marked
  cases l <;> rfl

/-- In a line that begins with a line mark, one is found that no word stands before. -/
theorem exists_find?_of_marked (marked : l.marks.line <+: trim line) :
    ∃ n, Text.find? l.marks.line line = some n ∧ ∀ i, IsWordAt line i → n ≤ i := by
  obtain ⟨back, eq, -⟩ := Text.exists_trimLeft_eq line
  obtain ⟨c, more, eq', -⟩ := lineMark l
  have there : l.marks.line <+: line.drop (indentation line) := by
    rw [Text.drop_indentation, eq]
    exact marked.trans (List.prefix_append _ _)
  obtain ⟨n, le, found⟩ := Text.exists_find?_le (by rw [eq']; exact List.cons_ne_nil _ _) there
  refine ⟨n, found, fun i word => ?_⟩
  obtain ⟨d, at', visible⟩ := word.exists_visible
  exact Nat.le_trans le (Text.indentation_le_of_visible at' visible)

/-- On a tidy line, what is searched lies in one comment or docstring. -/
theorem Tidy.words (tidy : Tidy l s line marks behind) {inside : Option (List Char)} (agree : Agree l s inside) {n : Nat}
    (found : (turn l inside line).1 = some n) : WordsInNote marks line n := by
  by_cases begins : BeginsInNote l s line marks
  · exact wordsInNote_of_alone (tidy.alone begins)
  · obtain ⟨unopened, part⟩ := tidy.others begins
    cases inside with
    | some stop => exact absurd (.inl (Option.isSome_of_mem agree.stop?)) begins
    | none =>
      -- Both a line with a mark at its start and one with a mark behind code are searched from their first mark on.
      obtain ⟨first, found, before⟩ : ∃ first, Text.find? l.marks.line line = some first ∧
          ∀ i, n ≤ i → IsWordAt line i → first ≤ i := by
        simp only [turn, unopened] at found
        split at found
        next marked =>
          obtain ⟨first, found, before⟩ := exists_find?_of_marked (Text.startsWith_iff.mp marked)
          exact ⟨first, found, fun i _ => before i⟩
        next => exact ⟨n, found, fun _ le _ => le⟩
      intro i j le _ word word'
      obtain ⟨_, there, -⟩ := word'
      exact (part first found).within (before i le word) (List.getElem?_eq_some_iff.mp there).1

/-- Behind a tidy line the search and the reading agree again. -/
theorem Tidy.agree (tidy : Tidy l s line (readLine l parsed s line).1 (readLine l parsed s line).2) {inside : Option (List Char)}
    (agree : Agree l s inside) : Agree l (readLine l parsed s line).2 (turn l inside line).2 := by
  cases inside with
  | some stop =>
    have carries : Carries l s stop := agree
    obtain ⟨nonempty, visible⟩ := carries.visible
    have inner : inner? l s line = some (trim line, stop) := by rw [inner?, carries.stop?]
    exact carries.agree (Text.holds_iff.trans (Text.infix_trim_iff nonempty visible)) (fun special => tidy.closes special _ inner)
      (pairwise_of_alone (tidy.alone (.inl (Option.isSome_of_mem carries.stop?))))
  | none =>
    have unopened : s.mode.stop? l = none := agree
    have inner : inner? l s line = opening? l (trim line) := by rw [inner?, unopened]
    have closed (nothing : opening? l (trim line) = none) : Agree l (readLine l parsed s line).2 none :=
      Option.not_isSome_iff_eq_none.mp fun some => by
        have opens := tidy.begins some
        rw [inner, nothing] at opens
        cases opens
    simp only [turn]
    split
    next marked => exact closed (opening?_of_lineMark (Text.startsWith_iff.mp marked))
    next =>
      split
      next after stop opens =>
        have begins : BeginsInNote l s line (readLine l parsed s line).1 := by
          by_contra other
          cases opens.symm.trans (tidy.others other).1
        obtain ⟨code, note⟩ := begins.resolve_left (by rw [unopened]; exact Bool.false_ne_true)
        obtain ⟨next, back, offset, kind, carries, blank, same, within⟩ := exists_carries_of_opening code opens note
        obtain ⟨nonempty, visible⟩ := carries.visible
        have held : Text.holds stop after = true ↔ stop <:+: after ++ back := Text.holds_iff.trans
          ⟨fun there => there.trans (List.prefix_append _ _).isInfix, Text.infix_of_append_blanks nonempty visible blank⟩
        show Agree l (readLine l parsed s line).2 (if Text.holds stop after then none else some stop)
        rw [← same]
        refine carries.agree held (fun special => ?_) ((pairwise_of_alone (tidy.alone begins)).sublist within.sublist)
        rw [same]
        exact tidy.closes special _ (inner.trans opens)
      next nothing => exact closed nothing

end Line

/-! ## Tidy files -/

/-- Each line is tidy, from a state on. -/
def EachTidy (l : Language) (parsed : Parsing) (number : Nat) (s : State) : List (List Char) → Prop
  | [] => True
  | line :: rest =>
    let read := readLine l (parsed number) s line
    Tidy l s line read.1 read.2 ∧ EachTidy l parsed (number + 1) read.2 rest

instance : Decidable (Tidy l s line marks behind) :=
  decidable_of_iff (((behind.mode.stop? l).isSome = true → (inner? l s line).isSome = true) ∧
      (BeginsInNote l s line marks → InNote marks (indentation line) (trimRight line).length) ∧
      (l = .rust ∨ l = .python → ∀ part ∈ inner? l s line, Text.holds part.2 part.1 = true → behind.mode.stop? l = none) ∧
      (¬ BeginsInNote l s line marks → opening? l (trim line) = none ∧
        ∀ n ∈ Text.find? l.marks.line line, InNote marks n line.length))
    ⟨fun ⟨begins, alone, closes, others⟩ => ⟨begins, alone, closes, others⟩,
      fun tidy => ⟨tidy.begins, tidy.alone, tidy.closes, tidy.others⟩⟩

instance decidableEachTidy (l : Language) (parsed : Parsing) (number : Nat) (s : State) :
    (lines : List (List Char)) → Decidable (EachTidy l parsed number s lines)
  | [] => isTrue trivial
  | line :: rest =>
    have := decidableEachTidy l parsed (number + 1) (readLine l (parsed number) s line).2 rest
    inferInstanceAs (Decidable (_ ∧ _))

/-- Of tidy lines, what is searched lies in one comment or docstring each. -/
theorem words_of_eachTidy {parsed : Parsing} {number : Nat} {inside : Option (List Char)} {lines : List (List Char)}
    (tidy : EachTidy l parsed number s lines) (agree : Agree l s inside) {t : Stretch}
    (mem : t ∈ stretchesFrom l number inside lines) :
    WordsInNote ((readLines l parsed number s lines).getD (t.number - number) []) t.line t.start := by
  induction lines generalizing number s inside with
  | nil => cases mem
  | cons line rest ih =>
    obtain ⟨first, others⟩ := tidy
    rw [stretchesFrom, List.mem_append] at mem
    rcases mem with here | later
    · obtain ⟨n, found, rfl⟩ := Option.map_eq_some_iff.mp (Option.mem_toList.mp here)
      rw [Nat.sub_self, readLines]
      exact first.words agree found
    · have le := (mem_stretchesFrom later).1
      rw [show t.number - number = t.number - (number + 1) + 1 by omega, readLines, List.getD_cons_succ]
      exact ih others (first.agree agree) later

/-! ## Claims in notes -/

variable {file : String} {content : List Char} {parsed : Parsing}

/-- What a claim was found in lies in one comment or one docstring. -/
def LiesInNote (l : Language) (parsed : Parsing) (content : List Char) (file : String) (c : Claim) : Prop :=
  ∃ t ∈ stretches file content, t.number = c.line ∧ ∃ stop, Spans c.word t.line (t.start + c.column) stop ∧
    InNote (marksAt l parsed content t.number) (t.start + c.column) stop

/-- A boundary stands between a character of a word and one of none. -/
theorem isBoundary_iff {i : Nat} (le : i ≤ text.length) :
    Text.IsBoundary text i ↔ ¬ (i ≠ 0 ∧ IsWordAt text (i - 1) ↔ IsWordAt text i) := by
  have behind : (text.drop i).head?.any isWord = true ↔ IsWordAt text i := by
    rw [List.head?_drop, Option.any_eq_true]
    rfl
  have before : (text.take i).getLast?.any isWord = true ↔ i ≠ 0 ∧ IsWordAt text (i - 1) := by
    cases i with
    | zero => simp
    | succ i =>
      rw [List.getLast?_take, if_neg (Nat.succ_ne_zero i), Nat.add_sub_cancel, List.getElem?_eq_getElem (by omega), Option.some_or,
        Option.any_eq_true, IsWordAt, List.getElem?_eq_getElem (by omega)]
      simp
  rw [Text.IsBoundary, ← before, ← behind, bne_iff_ne, Ne, Bool.eq_iff_iff]

/-- Between two boundaries everything lies in one comment or docstring, if it does so from the first word to the last. -/
theorem inNote_of_words {start i j : Nat} (words : WordsInNote marks line start) (later : start = 0 ∨ start < i) (le : i ≤ j)
    (within : j ≤ line.length) (opens : Text.IsBoundary line i) (closes : Text.IsBoundary line j) : InNote marks i j := by
  rw [isBoundary_iff (by omega)] at opens closes
  obtain ⟨i', from', to', word⟩ : ∃ i', start ≤ i' ∧ i' ≤ i ∧ IsWordAt line i' := by
    by_cases here : IsWordAt line i
    · exact ⟨i, by omega, Nat.le_refl i, here⟩
    · have before : i ≠ 0 ∧ IsWordAt line (i - 1) := by tauto
      exact ⟨i - 1, by omega, by omega, before.2⟩
  obtain ⟨j', from'', word'⟩ : ∃ j', j ≤ j' + 1 ∧ IsWordAt line j' := by
    by_cases here : IsWordAt line j
    · exact ⟨j, by omega, here⟩
    · have before : j ≠ 0 ∧ IsWordAt line (j - 1) := by tauto
      exact ⟨j - 1, by omega, before.2⟩
  by_cases empty : i = j
  · exact fun k less le' => absurd less (by omega)
  · exact (words i' j' from' (by omega) word word').within to' from''

theorem liesInNote_of_words (words : ∀ t ∈ stretches file content, WordsInNote (marksAt l parsed content t.number) t.line t.start)
    {categories : Categories} {c : Claim} (mem : c ∈ ofContent content file categories) : LiesInNote l parsed content file c := by
  rw [ofContent_eq] at mem
  obtain ⟨t, among, mem⟩ := List.mem_flatMap.mp mem
  obtain ⟨number, stop, spans⟩ := exists_spans mem
  have begins := (mem_stretches among).2.2
  have inLine := spans.of_text begins
  have later := spans.start_or_ne begins
  exact ⟨t, among, number.symm, t.start + stop, inLine,
    inNote_of_words (words t among) (by omega) inLine.le inLine.within inLine.starts inLine.stops⟩

theorem lower_of_ascii {text : List Char} (ascii : ∀ c ∈ text, c.toNat < 128) : Text.lower text = text.map Text.lowerChar := by
  have from' (before text : List Char) (ascii : ∀ c ∈ text, c.toNat < 128) :
      Text.lowerFrom before text = text.map Text.lowerChar := by
    induction text generalizing before with
    | nil => rfl
    | cons c rest ih =>
      obtain ⟨here, others⟩ := List.forall_mem_cons.mp ascii
      have dotted : c ≠ '\u0130' := by
        rintro rfl
        exact absurd here (by decide)
      have sigma : c ≠ '\u03A3' := by
        rintro rfl
        exact absurd here (by decide)
      rw [Text.lowerFrom, if_neg dotted, if_neg sigma, ih _ others]
      rfl
  exact from' [] text ascii

theorem ascii_slice (ascii : ∀ c ∈ text, c.toNat < 128) (i j : Nat) : ∀ c ∈ Text.slice text i j, c.toNat < 128 :=
  fun c mem => ascii c (List.mem_of_mem_drop (List.mem_of_mem_take mem))

theorem length_lower_slice {i j : Nat} (ascii : ∀ c ∈ text, c.toNat < 128) (le : j ≤ text.length) :
    (Text.lower (Text.slice text i j)).length = j - i := by
  rw [lower_of_ascii (ascii_slice ascii i j), List.length_map, Text.slice, List.length_take, List.length_drop]
  omega

theorem sameLetter_of_ascii {c : Char} (ascii : c.toNat < 128) : SameLetter (Text.lowerChar c) c := by
  have all : ∀ n < 128, Text.lowerChar (Char.ofNat n) = Text.lowerChar (Text.lowerChar (Char.ofNat n)) := by decide
  have here := all c.toNat ascii
  rw [Char.ofNat_toNat] at here
  exact .inl here

/-- A table of one word. -/
def only (word : List Char) : Categories := [("", [String.ofList word])]

theorem lexiconOf_only (word : List Char) : lexiconOf (only word) = [(Text.lower word, ⟨"", String.ofList word⟩)] := by
  have set : lexiconOf (only word) = [(Text.lower (String.ofList word).toList, ⟨"", String.ofList word⟩)] := rfl
  rw [set, String.toList_ofList]

/-- What stands from the first word of a text to the last occurs there. -/
theorem occursAt_of_words {i j : Nat} (ascii : ∀ c ∈ text, c.toNat < 128) (le : i ≤ j) (first : IsWordAt text i)
    (before : ∀ k < i, ¬ IsWordAt text k) (last : IsWordAt text j) (behind : ∀ k, j < k → ¬ IsWordAt text k) :
    OccursAt (Text.lower (Text.slice text i (j + 1))) text i ∧
      (Text.lower (Text.slice text i (j + 1))).length = j + 1 - i := by
  obtain ⟨d, there, -⟩ := id last
  have less : j < text.length := (List.getElem?_eq_some_iff.mp there).1
  have ascii' := ascii_slice ascii i (j + 1)
  have long : (Text.lower (Text.slice text i (j + 1))).length = j + 1 - i := length_lower_slice ascii less
  refine ⟨⟨by omega, ?_, ?_, ?_⟩, long⟩
  · rw [long, show i + (j + 1 - i) = j + 1 by omega, lower_of_ascii ascii', List.forall₂_map_left_iff, List.forall₂_same]
    exact fun c mem => sameLetter_of_ascii (ascii' c mem)
  · rw [isBoundary_iff (by omega)]
    exact fun same => before (i - 1) (by have := (same.mpr first).1; omega) (same.mpr first).2
  · rw [long, show i + (j + 1 - i) = j + 1 by omega, isBoundary_iff less]
    exact fun same => behind (j + 1) (Nat.lt_succ_self j) (same.mp ⟨Nat.succ_ne_zero j, last⟩)

/-- It is found when it is the one word of the table. -/
theorem exists_claim_of_words {i j number : Nat} (ascii : ∀ c ∈ text, c.toNat < 128) (le : i ≤ j) (first : IsWordAt text i)
    (before : ∀ k < i, ¬ IsWordAt text k) (last : IsWordAt text j) (behind : ∀ k, j < k → ¬ IsWordAt text k) :
    let categories := only (Text.slice text i (j + 1))
    ∃ c ∈ claimsOn (lexiconOf categories) (pattern (lexiconOf categories)) file number text,
      c.line = number ∧ c.column = i ∧ c.word = String.ofList (Text.slice text i (j + 1)) := by
  obtain ⟨occurs, long⟩ := occursAt_of_words ascii le first before last behind
  intro categories
  have keys : (lexiconOf categories).keys = [Text.lower (Text.slice text i (j + 1))] := by
    rw [Lexicon.keys, lexiconOf_only]
    rfl
  have longest := longestFirst_pattern (lexiconOf categories)
  have inside : Regex.Place.In text ⟨(text.take i).getLast?, i, text.drop i, []⟩ := ⟨occurs.le, rfl, rfl⟩
  have among : Text.lower (Text.slice text i (j + 1)) ∈ (lexiconOf categories).keys := by
    rw [keys]
    exact List.mem_singleton_self _
  obtain ⟨q, mem, -⟩ := occurs.exists_end inside among
  -- Before the first word there is no boundary, so no match either that could reach over it.
  obtain ⟨h, among, start⟩ := Regex.exists_mem_all longest inside rfl (List.ne_nil_of_mem mem) fun h among earlier => by
    have earlier : h.start < i := earlier
    obtain ⟨-, -, -, starts, -⟩ := span_of_mem_all among
    rw [isBoundary_iff (Nat.le_trans (Nat.le_of_lt earlier) occurs.le)] at starts
    exact absurd ⟨fun ⟨_, word⟩ => absurd word (before _ (by omega)), fun word => absurd word (before _ earlier)⟩ starts
  obtain ⟨taken, -⟩ := span_of_mem_all among
  obtain ⟨p, q, inside', clean, head, rfl⟩ := Regex.head?_of_mem_all longest among
  obtain ⟨key, listed, -, stop, -⟩ := exists_occursAt (by rw [lexiconOf_only]; exact List.cons_ne_nil _ _) inside' clean
    (List.mem_of_mem_head? head)
  rw [keys, List.mem_singleton] at listed
  have start : p.offset = i := start
  rw [show q.offset = j + 1 by rw [stop, start, listed, long]; omega, start] at taken among
  refine ⟨_, mem_claimsOn_iff.mpr ⟨_, among, _, ⟨"", String.ofList (Text.slice text i (j + 1))⟩, taken, ?_, rfl⟩, rfl, rfl, rfl⟩
  rw [lexiconOf_only, List.lookup_cons, beq_self_eq_true]

theorem isWordAt_text (t : Stretch) (k : Nat) : IsWordAt t.text k ↔ IsWordAt t.line (t.start + k) := by
  rw [IsWordAt, IsWordAt, Stretch.text, List.getElem?_drop]

/-- There is one stretch of a line. -/
theorem eq_of_number_eq {t t' : Stretch} (mem : t ∈ stretches file content) (mem' : t' ∈ stretches file content)
    (same : t.number = t'.number) : t = t' := by
  have symmetric : Std.Symm fun t t' : Stretch => t.number ≠ t'.number := ⟨fun _ _ => Ne.symm⟩
  by_contra other
  exact ((pairwise_stretches file content).imp Nat.ne_of_lt).forall mem mem' other same

/-- When no table has claims outside of comments and docstrings, no words are searched outside of them. -/
theorem words_of_liesInNote (ascii : ∀ line ∈ Text.lines content, ∀ c ∈ line, c.toNat < 128)
    (notes : ∀ categories, ∀ c ∈ ofContent content file categories, LiesInNote l parsed content file c) {t : Stretch}
    (mem : t ∈ stretches file content) : WordsInNote (marksAt l parsed content t.number) t.line t.start := by
  intro i j le le' word word'
  have ascii := ascii t.line (List.mem_of_getElem? (mem_stretches mem).2.1)
  have ascii' : ∀ c ∈ t.text, c.toNat < 128 := fun c inside => ascii c (List.mem_of_mem_drop inside)
  have here : IsWordAt t.text (i - t.start) := (isWordAt_text t _).mpr (by rwa [Nat.add_sub_cancel' le])
  have here' : IsWordAt t.text (j - t.start) := (isWordAt_text t _).mpr (by rwa [Nat.add_sub_cancel' (Nat.le_trans le le')])
  have within {k : Nat} : IsWordAt t.text k → k < t.text.length := fun ⟨_, there, _⟩ => (List.getElem?_eq_some_iff.mp there).1
  let first := Nat.find ⟨_, here⟩
  let last := Nat.findGreatest (IsWordAt t.text) t.text.length
  have earliest : first ≤ i - t.start := Nat.find_min' _ here
  have latest : j - t.start ≤ last := Nat.le_findGreatest (Nat.le_of_lt (within here')) here'
  have final : IsWordAt t.text last := Nat.findGreatest_spec (Nat.le_of_lt (within here')) here'
  obtain ⟨c, among, number, column, written⟩ := exists_claim_of_words ascii'
    (show first ≤ last by omega) (Nat.find_spec ⟨_, here⟩) (fun k less => Nat.find_min ⟨_, here⟩ less) final
    fun k less word => Nat.findGreatest_is_greatest less (Nat.le_of_lt (within word)) word
  obtain ⟨t', mem', number', stop, spans, note⟩ := notes _ c (by
    rw [ofContent_eq]
    exact List.mem_flatMap.mpr ⟨t, mem, among⟩)
  obtain rfl := eq_of_number_eq mem mem' (number.symm.trans number'.symm)
  have width := congrArg List.length spans.reads
  rw [length_lower_slice ascii spans.within, written, String.toList_ofList, length_lower_slice ascii' (within final), column] at width
  rw [column] at note
  exact note.within (by omega) (by omega)

/-- Claims lie in comments and docstrings under every table where of each line, from the first word that is searched to the
last, everything belongs to one comment or docstring; in a text of ASCII characters only there. In particular they do where
each line is tidy. -/
theorem claims_lie_in_notes (content : List Char) (file : String) {l : Language} (known : Language.ofPath? file = some l)
    (parsed : Parsing) :
    ((∀ t ∈ stretches file content, WordsInNote (marksAt l parsed content t.number) t.line t.start) →
      ∀ categories, ∀ c ∈ ofContent content file categories, LiesInNote l parsed content file c) ∧
    ((∀ line ∈ Text.lines content, ∀ c ∈ line, c.toNat < 128) →
      (∀ categories, ∀ c ∈ ofContent content file categories, LiesInNote l parsed content file c) →
      ∀ t ∈ stretches file content, WordsInNote (marksAt l parsed content t.number) t.line t.start) ∧
    (EachTidy l parsed 1 ⟨.code, []⟩ (Text.lines content) →
      ∀ categories, ∀ c ∈ ofContent content file categories, LiesInNote l parsed content file c) := by
  refine ⟨fun words _ _ mem => liesInNote_of_words words mem, fun ascii notes _ mem => words_of_liesInNote ascii notes mem,
    fun tidy _ _ mem => liesInNote_of_words (fun t among => ?_) mem⟩
  rw [stretches_of_language known] at among
  exact words_of_eachTidy tidy (show Agree l ⟨.code, []⟩ none from rfl) among

/-- A comment of several lines, and code with a string before a comment. -/
def noted : List Char := "/**\n * Scalable\n */\nlet s = 'robust'; // is robust".toList

def qualityTable : Categories := [("scale", ["scalable"]), ("reliability", ["robust"])]

theorem byLength_qualityTable : byLength (lexiconOf qualityTable) = ["scalable".toList, "robust".toList] :=
  byLength_of_pairwise (by decide)

/-- Both claims lie in comments; the string is not searched. -/
theorem claims_lie_in_notes_noted :
    Language.ofPath? "client.js" = some .javascript ∧ EachTidy .javascript (fun _ _ => .nothing) 1 ⟨.code, []⟩ (Text.lines noted) ∧
    (∀ line ∈ Text.lines noted, ∀ c ∈ line, c.toNat < 128) ∧
    (∃ c ∈ ofContent noted "client.js" qualityTable, c.line = 4 ∧ c.word = "robust" ∧
      LiesInNote .javascript (fun _ _ => .nothing) noted "client.js" c) ∧
    ∀ t ∈ stretches "client.js" noted, WordsInNote (marksAt .javascript (fun _ _ => .nothing) noted t.number) t.line t.start := by
  have known : Language.ofPath? "client.js" = some .javascript := by decide +kernel
  have tidy : EachTidy .javascript (fun _ _ => .nothing) 1 ⟨.code, []⟩ (Text.lines noted) := by decide +kernel
  have ascii : ∀ line ∈ Text.lines noted, ∀ c ∈ line, c.toNat < 128 := by
    have each : ((Text.lines noted).all fun line => line.all fun c => c.toNat < 128) = true := by decide
    simpa only [List.all_eq_true, decide_eq_true_eq] using each
  have found : ofContent noted "client.js" qualityTable = [⟨"client.js", 2, 3, "scalable", "scale", "* Scalable", false⟩,
      ⟨"client.js", 4, 6, "robust", "reliability", "// is robust", true⟩] := by
    rw [ofContent_eq, pattern, byLength_qualityTable]
    decide +kernel
  have mem : ⟨"client.js", 4, 6, "robust", "reliability", "// is robust", true⟩ ∈ ofContent noted "client.js" qualityTable := by
    rw [found]
    exact List.mem_cons_of_mem _ (List.mem_singleton_self _)
  obtain ⟨-, searched, lie⟩ := claims_lie_in_notes noted "client.js" known fun _ _ => .nothing
  exact ⟨known, tidy, ascii, ⟨_, mem, rfl, rfl, lie tidy qualityTable _ mem⟩, searched ascii (lie tidy)⟩

/-- The slashes of an address are no comment, but what follows them is searched. -/
theorem claim_in_literal : ∃ c ∈ ofContent "u = \"http://secure\"".toList "a.js" [("security", ["secure"])],
    ¬ LiesInNote .javascript (fun _ _ => .nothing) "u = \"http://secure\"".toList "a.js" c := by
  have only : byLength (lexiconOf [("security", ["secure"])]) = ["secure".toList] := byLength_of_pairwise (by decide)
  have found : ofContent "u = \"http://secure\"".toList "a.js" [("security", ["secure"])] =
      [⟨"a.js", 1, 2, "secure", "security", "//secure\"", false⟩] := by
    rw [ofContent_eq, pattern, only]
    decide +kernel
  have searched : stretches "a.js" "u = \"http://secure\"".toList = [⟨1, "u = \"http://secure\"".toList, 10⟩] := by decide +kernel
  have literal : (marksAt .javascript (fun _ _ => .nothing) "u = \"http://secure\"".toList 1)[12]? = some ⟨.literal, false⟩ := by
    decide +kernel
  rw [found]
  refine ⟨_, List.mem_singleton_self _, ?_⟩
  rintro ⟨t, mem, -, stop, spans, note⟩
  rw [searched, List.mem_singleton] at mem
  subst mem
  have some : 12 < stop := by
    refine Nat.lt_of_le_of_ne spans.le ?_
    rintro rfl
    exact absurd spans.reads (by decide)
  obtain ⟨m, there, isNote, -⟩ := note 12 some (Nat.le_refl 12)
  obtain rfl := Option.some.inj (literal.symm.trans there)
  cases isNote

end Claim

end CodeHygiene
