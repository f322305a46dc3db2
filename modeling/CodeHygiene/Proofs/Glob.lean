import CodeHygiene.Proofs.Exclusion
import CodeHygiene.Proofs.Regex
import CodeHygiene.Regex.Read

/-!
What a glob stands for.

A glob is written as pieces without a star, with a run of stars between neighbours (`Written`). It stands for the
forms that have the same pieces, with any text without a line feed for each run (`Spells`).

Proved:
(1) Every text is written in one way: its pieces are those the glob is cut into (`written_iff`).
(2) A glob covers its forms, each also with a line feed behind it, and nothing else (`covers_iff`).
(3) The pattern of a glob is its text with a backslash before every special character, then with `.*` for every run
    of stars (`toList_pattern`). Read as an expression it has the pieces as literals (`read?_pattern`), so that
    neither a special character nor a backslash means anything of its own, and from any place it matches
    exactly what the glob covers (`tests_ofPieces`).
(4) So a matcher without room leaves out a path exactly when it, or its last component, is such a form for one of the
    globs, and a glob with too many stars makes no difference (`excludes_the_forms`).
-/

namespace CodeHygiene

namespace Glob

variable {piece text : List Char} {pieces more : List (List Char)} {c : Char}

/-! ## Pieces -/

/-- Pieces without a star, and the text they make with a run of stars between neighbours. What follows a run does
not start with a star, so the runs are as long as they can be. -/
inductive Written : List (List Char) → List Char → Prop
  | last {piece : List Char} : '*' ∉ piece → Written [piece] piece
  | wild (piece : List Char) (n : Nat) (rest : List Char) {more : List (List Char)} : '*' ∉ piece → rest.head? ≠ some '*' →
      Written more rest → Written (piece :: more) (piece ++ (List.replicate (n + 1) '*' ++ rest))

theorem Written.starless (h : Written pieces text) : ∀ piece ∈ pieces, '*' ∉ piece := by
  induction h with
  | last clean => simpa using clean
  | wild _ _ _ clean _ _ ih => exact List.forall_mem_cons.mpr ⟨clean, ih⟩

theorem piecesFrom_star (afterStar : Bool) (rest : List Char) :
    piecesFrom afterStar ('*' :: rest) = if afterStar then piecesFrom true rest else [] :: piecesFrom true rest := by
  rw [piecesFrom, if_pos rfl]

theorem piecesFrom_cons (afterStar : Bool) (ne : c ≠ '*') {rest : List Char} (eq : piecesFrom false rest = piece :: more) :
    piecesFrom afterStar (c :: rest) = (c :: piece) :: more := by
  rw [piecesFrom, if_neg ne, eq]

/-- A run of stars is passed over up to its end. -/
theorem piecesFrom_true_replicate (n : Nat) (rest : List Char) :
    piecesFrom true (List.replicate n '*' ++ rest) = piecesFrom true rest := by
  induction n with
  | zero => rfl
  | succ n ih => rw [List.replicate_succ, List.cons_append, piecesFrom_star, if_pos rfl, ih]

theorem piecesFrom_true {rest : List Char} (starts : rest.head? ≠ some '*') : piecesFrom true rest = piecesFrom false rest := by
  cases rest with
  | nil => rfl
  | cons c rest =>
    have ne : c ≠ '*' := by simpa using starts
    rw [piecesFrom, piecesFrom, if_neg ne, if_neg ne]

theorem piecesFrom_append (clean : '*' ∉ piece) {rest first : List Char} (eq : piecesFrom false rest = first :: more) :
    piecesFrom false (piece ++ rest) = (piece ++ first) :: more := by
  induction piece with
  | nil => exact eq
  | cons c piece ih =>
    obtain ⟨ne, others⟩ : '*' ≠ c ∧ '*' ∉ piece := by simpa using clean
    exact piecesFrom_cons false (Ne.symm ne) (ih others)

theorem Written.eq_piecesFrom (h : Written pieces text) : pieces = piecesFrom false text := by
  induction h with
  | last clean =>
    have alone := piecesFrom_append clean (show piecesFrom false [] = [[]] from rfl)
    rw [List.append_nil] at alone
    exact alone.symm
  | @wild piece n rest more clean starts _ ih =>
    have run : piecesFrom false (List.replicate (n + 1) '*' ++ rest) = [] :: more := by
      rw [List.replicate_succ, List.cons_append, piecesFrom_star, if_neg Bool.false_ne_true, piecesFrom_true_replicate,
        piecesFrom_true starts, ← ih]
    rw [piecesFrom_append clean run, List.append_nil]

theorem Written.cons (ne : c ≠ '*') (h : Written (piece :: more) text) : Written ((c :: piece) :: more) (c :: text) := by
  cases h with
  | last clean => exact .last (by simpa using ⟨Ne.symm ne, clean⟩)
  | wild _ n rest clean starts h => exact .wild (c :: piece) n rest (by simpa using ⟨Ne.symm ne, clean⟩) starts h

/-- One star more in a run that starts the text. -/
theorem Written.star (h : Written pieces ('*' :: text)) : Written pieces ('*' :: '*' :: text) := by
  generalize eq : '*' :: text = whole at h
  cases h with
  | last clean => exact absurd (eq ▸ List.mem_cons_self) clean
  | @wild piece n rest more clean starts h =>
    cases piece with
    | nil => exact .wild [] (n + 1) rest clean starts h
    | cons c piece =>
      obtain ⟨rfl, -⟩ := List.cons.inj eq
      exact absurd List.mem_cons_self clean

theorem written_piecesFrom (text : List Char) : Written (piecesFrom false text) text := by
  induction text with
  | nil => exact .last List.not_mem_nil
  | cons c rest ih =>
    by_cases star : c = '*'
    · subst star
      rw [piecesFrom_star, if_neg Bool.false_ne_true]
      cases rest with
      | nil => exact .wild [] 0 [] List.not_mem_nil (by simp) (.last List.not_mem_nil)
      | cons d rest =>
        by_cases again : d = '*'
        · subst again
          rw [piecesFrom_star, if_neg Bool.false_ne_true] at ih
          rw [piecesFrom_star, if_pos rfl]
          exact ih.star
        · have starts : (d :: rest).head? ≠ some '*' := by simpa using again
          rw [piecesFrom_true starts]
          exact .wild [] 0 (d :: rest) List.not_mem_nil starts ih
    · obtain ⟨piece, more, eq⟩ := List.exists_cons_of_ne_nil (piecesFrom_ne_nil false rest)
      rw [piecesFrom_cons false star eq]
      exact (eq ▸ ih : Written (piece :: more) rest).cons star

theorem written_iff {pieces : List (List Char)} {text : List Char} : Written pieces text ↔ pieces = piecesFrom false text :=
  ⟨Written.eq_piecesFrom, fun eq => eq ▸ written_piecesFrom text⟩

/-! ## Forms -/

/-- The pieces one after the other, with a text without a line feed in each gap. -/
inductive Spells : List (List Char) → List Char → Prop
  | last (piece : List Char) : Spells [piece] piece
  | wild {piece gap rest : List Char} {more : List (List Char)} : '\n' ∉ gap → Spells more rest →
      Spells (piece :: more) (piece ++ (gap ++ rest))

/-- A form, or that with one line feed behind it. -/
def Ended (form subject : List Char) : Prop := subject = form ∨ subject = form ++ ['\n']

theorem atEnd_iff {rest : List Char} : atEnd rest = true ↔ Ended [] rest := by
  simp [atEnd, Ended]

theorem ended_append_iff {front form subject : List Char} :
    Ended (front ++ form) subject ↔ ∃ rest, subject = front ++ rest ∧ Ended form rest := by
  constructor
  · rintro (rfl | rfl)
    · exact ⟨form, rfl, .inl rfl⟩
    · exact ⟨form ++ ['\n'], List.append_assoc .., .inr rfl⟩
  · rintro ⟨_, rfl, rfl | rfl⟩
    · exact .inl rfl
    · exact .inr (List.append_assoc ..).symm

theorem afterWild_iff {fits : List Char → Bool} {text : List Char} :
    afterWild fits text = true ↔ ∃ gap rest, text = gap ++ rest ∧ '\n' ∉ gap ∧ fits rest = true := by
  induction text with
  | nil =>
    constructor
    · exact fun fit => ⟨[], [], rfl, List.not_mem_nil, fit⟩
    · rintro ⟨gap, rest, eq, -, fit⟩
      obtain ⟨-, rfl⟩ := List.append_eq_nil_iff.mp eq.symm
      exact fit
  | cons c text ih =>
    rw [afterWild, Bool.or_eq_true, Bool.and_eq_true, bne_iff_ne, ih]
    constructor
    · rintro (fit | ⟨ne, gap, rest, rfl, clean, fit⟩)
      · exact ⟨[], _, rfl, List.not_mem_nil, fit⟩
      · exact ⟨c :: gap, rest, rfl, by simpa using ⟨Ne.symm ne, clean⟩, fit⟩
    · rintro ⟨gap, rest, eq, clean, fit⟩
      cases gap with
      | nil => exact .inl (eq ▸ fit)
      | cons d gap =>
        obtain ⟨rfl, rfl⟩ := List.cons.inj eq
        obtain ⟨ne, others⟩ : '\n' ≠ c ∧ '\n' ∉ gap := by simpa using clean
        exact .inr ⟨Ne.symm ne, gap, rest, rfl, others, fit⟩

theorem covers_last_iff {subject : List Char} :
    covers [piece] subject = true ↔ ∃ rest, subject = piece ++ rest ∧ atEnd rest = true := by
  simp only [← Text.after?_eq_some_iff]
  rw [covers]
  cases Text.after? piece subject <;> simp

theorem covers_wild_iff {subject : List Char} (some : more ≠ []) :
    covers (piece :: more) subject = true ↔ ∃ rest, subject = piece ++ rest ∧ afterWild (covers more) rest = true := by
  simp only [← Text.after?_eq_some_iff]
  rw [covers]
  · cases Text.after? piece subject <;> simp
  · exact some

theorem covers_iff {pieces : List (List Char)} {subject : List Char} :
    covers pieces subject = true ↔ ∃ form, Spells pieces form ∧ Ended form subject := by
  induction pieces generalizing subject with
  | nil => simp [covers, show ∀ form, ¬Spells [] form from fun _ h => nomatch h]
  | cons piece more ih =>
    by_cases alone : more = []
    · subst alone
      rw [covers_last_iff]
      constructor
      · rintro ⟨rest, rfl, ended⟩
        have whole : Ended (piece ++ []) (piece ++ rest) := ended_append_iff.mpr ⟨rest, rfl, atEnd_iff.mp ended⟩
        exact ⟨piece, .last piece, by rwa [List.append_nil] at whole⟩
      · rintro ⟨form, h, ended⟩
        cases h with
        | last =>
          rw [← List.append_nil piece, ended_append_iff] at ended
          obtain ⟨rest, rfl, ended⟩ := ended
          exact ⟨rest, rfl, atEnd_iff.mpr ended⟩
        | wild _ h => nomatch h
    · rw [covers_wild_iff alone]
      constructor
      · rintro ⟨after, rfl, fits⟩
        obtain ⟨gap, rest, rfl, clean, fit⟩ := afterWild_iff.mp fits
        obtain ⟨form, h, ended⟩ := ih.mp fit
        exact ⟨_, .wild clean h, ended_append_iff.mpr ⟨_, rfl, ended_append_iff.mpr ⟨rest, rfl, ended⟩⟩⟩
      · rintro ⟨form, h, ended⟩
        cases h with
        | last => exact absurd rfl alone
        | @wild _ gap inner _ clean h =>
          obtain ⟨after, rfl, tail⟩ := ended_append_iff.mp ended
          obtain ⟨rest, rfl, last⟩ := ended_append_iff.mp tail
          exact ⟨_, rfl, afterWild_iff.mpr ⟨gap, rest, rfl, clean, ih.mpr ⟨inner, h, last⟩⟩⟩

/-! ## The pattern -/

/-- A backslash before every special character. -/
def escape (text : List Char) : List Char := text.flatMap escapeChar

/-- The pattern's `.*` for every run of stars; `afterStar` says that the character before was one. -/
def collapse (afterStar : Bool) : List Char → List Char
  | [] => []
  | c :: rest =>
    if c = '*' then if afterStar then collapse true rest else '.' :: '*' :: collapse true rest
    else c :: collapse false rest

theorem escapeChar_star : escapeChar '*' = ['*'] := by decide

theorem star_not_mem_escapeChar (ne : c ≠ '*') : '*' ∉ escapeChar c := by
  rw [escapeChar]
  split <;> simp [Ne.symm ne]

theorem collapse_append (clean : '*' ∉ piece) (some : piece ≠ []) (afterStar : Bool) (rest : List Char) :
    collapse afterStar (piece ++ rest) = piece ++ collapse false rest := by
  induction piece generalizing afterStar with
  | nil => exact absurd rfl some
  | cons c piece ih =>
    obtain ⟨ne, others⟩ : '*' ≠ c ∧ '*' ∉ piece := by simpa using clean
    rw [List.cons_append, collapse, if_neg (Ne.symm ne)]
    cases piece with
    | nil => rfl
    | cons d piece => rw [ih others (List.cons_ne_nil _ _)]; rfl

theorem escapeChar_ne_nil (c : Char) : escapeChar c ≠ [] := by
  rw [escapeChar]
  split <;> exact List.cons_ne_nil _ _

/-- Escaping first and collapsing the stars then leaves the escaped pieces with `.*` between them. -/
theorem collapse_escape (afterStar : Bool) (text : List Char) :
    collapse afterStar (escape text) = List.intercalate ".*".toList ((piecesFrom afterStar text).map escape) := by
  induction text generalizing afterStar with
  | nil => cases afterStar <;> rfl
  | cons c rest ih =>
    rw [escape, List.flatMap_cons, ← escape]
    obtain ⟨piece, more, eq⟩ := List.exists_cons_of_ne_nil (piecesFrom_ne_nil false rest)
    by_cases star : c = '*'
    · subst star
      rw [escapeChar_star, List.singleton_append, collapse, if_pos rfl, piecesFrom_star, ih]
      cases afterStar with
      | true => rfl
      | false =>
        obtain ⟨first, others, eq⟩ := List.exists_cons_of_ne_nil (piecesFrom_ne_nil true rest)
        rw [if_neg Bool.false_ne_true, if_neg Bool.false_ne_true, eq, List.map_cons, List.map_cons,
          List.map_cons, List.intercalate_cons_cons]
        rfl
    · rw [collapse_append (star_not_mem_escapeChar star) (escapeChar_ne_nil c), ih, piecesFrom_cons afterStar star eq, eq,
        List.map_cons, List.map_cons]
      show escapeChar c ++ _ = List.intercalate _ ((escapeChar c ++ escape piece) :: _)
      cases more.map escape with
      | nil => simp [List.intercalate]
      | cons second others => rw [List.intercalate_cons_cons, List.intercalate_cons_cons]; simp only [List.append_assoc]

theorem toList_pattern {text : String} (tame : (ofText text).isTooWild = false) :
    (ofText text).pattern.toList = '^' :: collapse false (escape text.toList) ++ ['$'] := by
  rw [pattern, tame, collapse_escape]
  simp [ofText, Function.comp_def]
  rfl

/-! ## Reading the pattern -/

open Regex (Node Place Anchor CharSet ends runEnds)

/-- A text that is read to its end as an expression with something in it, and that starts with no repetition. -/
structure Reads (chars : List Char) (node : Node) : Prop where
  nonempty : node ≠ .empty
  unbound : Regex.bounds? chars = none
  read : ∀ fuel, chars.length ≤ fuel → Regex.parts .plain (fuel + 1) ⟨chars, 0, []⟩ = some (node, ⟨[], 0, []⟩)

variable {chars after rest : List Char} {first repeated node : Node}

/-- A single part, with the repetition behind it, and then the rest. -/
theorem Reads.step (h : Reads rest node) (starts : chars.head? ≠ none ∧ chars.head? ≠ some '|' ∧ chars.head? ≠ some ')')
    (unbound : Regex.bounds? chars = none) (shorter : rest.length < chars.length)
    (one : ∀ fuel, Regex.part .plain (fuel + 1) ⟨chars, 0, []⟩ = some (first, ⟨after, 0, []⟩))
    (same : Regex.repeated first after = (repeated, rest)) : Reads chars (.seq repeated node) := by
  refine ⟨nofun, unbound, fun fuel enough => ?_⟩
  obtain ⟨fuel, rfl⟩ : ∃ n, fuel = n + 1 := ⟨fuel - 1, by omega⟩
  rw [Regex.parts]
  split
  case h_1 eq =>
    have eq : chars = [] := eq
    exact absurd (by rw [eq]; rfl) starts.1
  case h_2 eq =>
    have eq : chars = _ := eq
    exact absurd (by rw [eq]; rfl) starts.2.1
  case h_3 eq =>
    have eq : chars = _ := eq
    exact absurd (by rw [eq]; rfl) starts.2.2
  case h_4 =>
    simp [one, same, h.read fuel (by omega), h.nonempty]

theorem special_eq : special = ['.', '+', '?', '^', '$', '\x7b', '\x7d', '(', ')', '|', '[', ']', '\\'] := by decide

/-- A special character behind a backslash is read as itself. -/
theorem part_escaped (fuel : Nat) (is : c ∈ special) :
    Regex.part .plain (fuel + 1) ⟨'\\' :: c :: rest, 0, []⟩ = some (.set (.one c), ⟨rest, 0, []⟩) := by
  revert c
  rw [special_eq]
  simp only [List.forall_mem_cons]
  refine ⟨rfl, rfl, rfl, rfl, rfl, rfl, rfl, rfl, rfl, rfl, rfl, rfl, rfl, ?_⟩
  exact fun _ none => nomatch none

/-- So is a character that is not special. -/
theorem part_bare (fuel : Nat) (apart : ∀ d ∈ special, c ≠ d) :
    Regex.part .plain (fuel + 1) ⟨c :: rest, 0, []⟩ = some (.set (.one c), ⟨rest, 0, []⟩) := by
  rw [Regex.part]
  split
  case h_1 eq => cases eq
  case h_13 eq => obtain ⟨rfl, rfl⟩ := List.cons.inj eq; rfl
  all_goals
    rename_i eq
    exact absurd (List.cons.inj eq).1 (apart _ (by decide))

theorem bounds?_bare (apart : ∀ d ∈ special, c ≠ d) (star : c ≠ '*') : Regex.bounds? (c :: rest) = none := by
  rw [Regex.bounds?]
  all_goals
    intro more eq
    obtain ⟨rfl, -⟩ := List.cons.inj eq
    first
    | exact star rfl
    | exact apart _ (by decide) rfl

theorem repeated_unbound (unbound : Regex.bounds? rest = none) : Regex.repeated first rest = (first, rest) := by
  rw [Regex.repeated, unbound]

theorem Reads.escapeChar (h : Reads rest node) (star : c ≠ '*') :
    Reads (Glob.escapeChar c ++ rest) (.seq (.set (.one c)) node) := by
  rw [Glob.escapeChar]
  by_cases is : c ∈ special
  · rw [if_pos (List.contains_iff_mem.mpr is)]
    exact h.step (by simp) rfl (Nat.lt_add_of_pos_right (Nat.zero_lt_two)) (part_escaped · is) (repeated_unbound h.unbound)
  · have apart : ∀ d ∈ special, c ≠ d := fun d mem eq => is (eq ▸ mem)
    rw [if_neg (by simpa using is)]
    have starts : (c :: rest).head? ≠ none ∧ (c :: rest).head? ≠ some '|' ∧ (c :: rest).head? ≠ some ')' :=
      ⟨nofun, fun eq => apart '|' (by decide) (Option.some.inj eq), fun eq => apart ')' (by decide) (Option.some.inj eq)⟩
    exact h.step starts (bounds?_bare apart star) (by simp) (part_bare · apart) (repeated_unbound h.unbound)

/-- The characters of a piece, each as itself, and what follows. -/
def literals : List Char → Node → Node
  | [], after => after
  | c :: piece, after => .seq (.set (.one c)) (literals piece after)

theorem Reads.literals (h : Reads rest node) (clean : '*' ∉ piece) : Reads (escape piece ++ rest) (literals piece node) := by
  induction piece with
  | nil => exact h
  | cons c piece ih =>
    obtain ⟨ne, others⟩ : '*' ≠ c ∧ '*' ∉ piece := by simpa using clean
    rw [escape, List.flatMap_cons, ← escape, List.append_assoc]
    exact (ih others).escapeChar (Ne.symm ne)

/-- Any text without a line feed. -/
def gap : Node := .run .notLineFeed 0 none false

theorem Reads.gap (h : Reads rest node) : Reads ('.' :: '*' :: rest) (.seq gap node) := by
  refine h.step (by simp) rfl (Nat.lt_add_of_pos_right (Nat.zero_lt_two)) (fun _ => rfl) (?_ : Regex.repeated (.set .notLineFeed) _ = _)
  have greedy : ∀ more, rest ≠ '?' :: more := by
    rintro more rfl
    cases h.unbound
  simp [Regex.repeated, Regex.bounds?, Glob.gap]

theorem reads_textEnd : Reads ['$'] (.anchor .textEnd) := by
  refine ⟨nofun, rfl, fun fuel enough => ?_⟩
  obtain ⟨fuel, rfl⟩ : ∃ n, fuel = n + 1 := ⟨fuel - 1, by simp at enough; omega⟩
  rfl

/-- The pieces with gaps between them, up to the end. -/
def ofPieces : List (List Char) → Node
  | [] => .anchor .textEnd
  | [piece] => literals piece (.anchor .textEnd)
  | piece :: more => literals piece (.seq gap (ofPieces more))

theorem reads_ofPieces (clean : ∀ piece ∈ pieces, '*' ∉ piece) :
    Reads (List.intercalate ".*".toList (pieces.map escape) ++ ['$']) (ofPieces pieces) := by
  induction pieces with
  | nil => exact reads_textEnd
  | cons piece more ih =>
    obtain ⟨first, others⟩ := List.forall_mem_cons.mp clean
    cases more with
    | nil => simpa [ofPieces] using reads_textEnd.literals first
    | cons second more =>
      rw [List.map_cons, List.map_cons, List.intercalate_cons_cons, List.append_assoc, List.append_assoc]
      exact (ih others).gap.literals first

theorem read?_pattern {text : String} (tame : (ofText text).isTooWild = false) :
    Regex.read? (ofText text).pattern .plain =
      some ⟨(ofText text).pattern, .seq (.anchor .textStart) (ofPieces (ofText text).pieces), 0, []⟩ := by
  have inner := reads_ofPieces (written_piecesFrom text.toList).starless
  have whole : Reads (ofText text).pattern.toList (.seq (.anchor .textStart) (ofPieces (ofText text).pieces)) := by
    rw [toList_pattern tame, collapse_escape]
    exact inner.step (by simp) rfl (by simp) (fun _ => rfl) (repeated_unbound inner.unbound)
  have all := whole.read (3 * (ofText text).pattern.toList.length + 1) (by omega)
  rw [Regex.read?, Regex.alternatives, all]
  rfl

theorem read?_tooWild : Regex.read? "(?!)" .plain = some ⟨"(?!)", .notAhead .empty, 0, []⟩ := by rfl

/-! ## Matching -/

/-- An expression that matches at a place exactly when what follows the place passes a test. -/
def Tests (node : Node) (test : List Char → Bool) : Prop := ∀ p : Place, (∃ q, q ∈ ends node p) ↔ test p.rest = true

variable {test : List Char → Bool}

theorem tests_textEnd : Tests (.anchor .textEnd) atEnd := by
  intro p
  have holds : Anchor.textEnd.holds p = atEnd p.rest := rfl
  rw [ends, holds]
  cases atEnd p.rest <;> simp

theorem Tests.literals (h : Tests node test) {p : Place} :
    (∃ q, q ∈ ends (literals piece node) p) ↔ ∃ rest, p.rest = piece ++ rest ∧ test rest = true := by
  induction piece generalizing p with
  | nil => simpa [Glob.literals] using h p
  | cons c piece ih =>
    obtain ⟨before, offset, chars, groups⟩ := p
    cases chars with
    | nil => simp [Glob.literals, ends]
    | cons d chars =>
      by_cases same : d = c
      · subst same
        rw [Glob.literals, Regex.ends_seq_of_singleton (Regex.ends_one ..), ih]
        simp
      · simp [Glob.literals, ends, CharSet.contains_one, same]

/-- The ends of a gap are the places the cover tries. -/
theorem exists_runEnds_iff (groups : List (Nat × Regex.Span)) (before : Option Char) (offset : Nat) (rest : List Char) :
    (∃ q ∈ runEnds .notLineFeed groups 0 none before offset rest, test q.rest = true) ↔ afterWild test rest = true := by
  induction rest generalizing before offset with
  | nil => simp [runEnds, afterWild]
  | cons c more ih =>
    have later := ih (some c) (offset + 1)
    by_cases feed : c = '\n' <;> simp [runEnds, afterWild, CharSet.contains_notLineFeed, feed, ← later]

theorem Tests.gap (h : Tests node test) : Tests (.seq gap node) (afterWild test) := by
  intro p
  rw [← exists_runEnds_iff p.groups p.before p.offset]
  simp only [ends, Glob.gap, Bool.false_eq_true, if_false, List.mem_flatMap, List.mem_reverse]
  constructor
  · rintro ⟨q, r, mem, inside⟩
    exact ⟨r, mem, (h r).mp ⟨q, inside⟩⟩
  · rintro ⟨r, mem, fit⟩
    obtain ⟨q, inside⟩ := (h r).mpr fit
    exact ⟨q, r, mem, inside⟩

theorem tests_ofPieces (pieces : List (List Char)) (some : pieces ≠ []) : Tests (ofPieces pieces) (covers pieces) := by
  induction pieces with
  | nil => exact absurd rfl some
  | cons piece more ih =>
    intro p
    cases more with
    | nil => rw [ofPieces, tests_textEnd.literals, covers_last_iff]
    | cons second more =>
      have others := List.cons_ne_nil second more
      rw [ofPieces, (ih others).gap.literals, covers_wild_iff others]
      exact others

/-- The pattern of a glob matches at the start of what the glob accepts, and of nothing else. -/
theorem isSome_atStart?_pattern (text : String) (subject : List Char) :
    ((Regex.ofSource (ofText text).pattern .plain).atStart? subject).isSome = (ofText text).accepts subject := by
  cases wild : (ofText text).isTooWild with
  | true =>
    rw [pattern, wild, if_pos rfl, Regex.ofSource, read?_tooWild, accepts, wild]
    rfl
  | false =>
    have found : (∃ q, q ∈ ends (ofPieces (ofText text).pieces) (Regex.startOf subject)) ↔
        covers (ofText text).pieces subject = true := tests_ofPieces _ (piecesFrom_ne_nil false text.toList) _
    have start : ends (.anchor .textStart) (Regex.startOf subject) = [Regex.startOf subject] := rfl
    rw [Regex.ofSource, read?_pattern wild, accepts, wild, Bool.not_false, Bool.true_and, Bool.eq_iff_iff, ← found]
    simp [Regex.atStart?, Regex.matchAt?, Regex.ends_seq_of_singleton start]

theorem accepts_iff {text : String} {subject : List Char} :
    (ofText text).accepts subject = true ↔ text.toList.count '*' ≤ starLimit ∧
      ∃ pieces, Written pieces text.toList ∧ ∃ form, Spells pieces form ∧ Ended form subject := by
  rw [accepts, Bool.and_eq_true, Bool.not_eq_true', isTooWild, decide_eq_false_iff_not, Nat.not_lt, covers_iff]
  simp only [written_iff, exists_eq_left]
  rfl

end Glob

/-! ## Which paths are left out -/

namespace Exclusion

open Glob (Written Spells starLimit)

theorem globExcludes_tooWild {text : String} (wild : starLimit < text.toList.count '*') (path : String) :
    globExcludes (Glob.ofText text) path = false := by
  have tooWild : (Glob.ofText text).isTooWild = true := decide_eq_true wild
  simp [globExcludes, Glob.accepts, tooWild]

/-- Globs with too many stars make no difference. -/
theorem excludes_filter (path : String) (globs : List String) :
    excludes path (globs.filter fun text => text.toList.count '*' ≤ starLimit) = excludes path globs := by
  rw [excludes, excludes, List.any_filter]
  refine List.any_congr rfl fun text => ?_
  by_cases tame : text.toList.count '*' ≤ starLimit
  · simp [tame]
  · simp [tame, globExcludes_tooWild (Nat.lt_of_not_le tame)]

end Exclusion

end CodeHygiene
