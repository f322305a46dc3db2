import CodeHygiene.Proofs.Matching
import CodeHygiene.Proofs.Returns

/-!
Places of a text whose returns end lines, and the places without returns that they stand for.

The places before a return and behind it stand for the same place. What an expression comes to there depends on
the step that follows it, and what is known of that step at the ends of lines is computed from the expressions it
is made of (`Follow`, `follow`).

Proved:
(1) Behind a return nothing stands, or a line feed (`Place.In.behind_return`, `Place.In.at_return`).
(2) The place behind a return stands for the one before it (`Place.In.thinned_past_return`), and that behind any
    other character for the one behind the same character (`Place.In.thinned_past`). Of what follows a place, returns and
    line feeds aside, the next character tells the same in both texts (`Place.In.any_head_thinned`).
(3) What is computed of the step that follows is so (`follows_after`).
-/

namespace CodeHygiene.Regex

open Text (thin thinOffset ReturnsEndLines)

variable {text : List Char} {p q : Place}

/-! ## Places at returns -/

namespace Place

theorem In.behind_return (lines : ReturnsEndLines text) (h : p.In text) (behind : p.before = some '\r') :
    p.rest = [] ∨ ∃ more, p.rest = '\n' :: more := by
  obtain ⟨init, eq⟩ := h.split behind
  have whole : init ++ '\r' :: p.rest = text := by
    rw [h.rest, ← List.singleton_append, ← List.append_assoc, ← eq, List.take_append_drop]
  rw [← whole] at lines
  exact lines.of_append.thin_of_return

theorem In.at_return (lines : ReturnsEndLines text) (h : p.In text) {rest : List Char} (eq : p.rest = '\r' :: rest) :
    rest = [] ∨ ∃ more, rest = '\n' :: more := by
  have part := lines.drop p.offset
  rw [← h.rest, eq] at part
  exact part.thin_of_return

theorem In.before_ne (lines : ReturnsEndLines text) (h : p.In text) {c : Char} {rest : List Char} (eq : p.rest = c :: rest)
    (ne : c ≠ '\n') : p.before ≠ some '\r' := by
  intro behind
  rcases h.behind_return lines behind with nil | ⟨more, feed⟩
  · rw [nil] at eq
    cases eq
  · rw [feed] at eq
    exact ne (List.cons.inj eq).1.symm

end Place

/-! ## Places without returns -/

/-- The part of the thin text. -/
def Span.thinned (text : List Char) (s : Span) : Span := ⟨thinOffset text s.start, thinOffset text s.stop⟩

/-- The place in the thin text that a place stands for. -/
def Place.thinned (text : List Char) (p : Place) : Place where
  before := (thin (text.take p.offset)).getLast?
  offset := thinOffset text p.offset
  rest := thin (text.drop p.offset)
  groups := p.groups.map fun entry => (entry.1, entry.2.thinned text)

namespace Place

theorem thinned_in (text : List Char) (p : Place) : (p.thinned text).In (thin text) where
  le := Text.thinOffset_le_length text p.offset
  before := by rw [thinned, Text.thin_take]
  rest := (Text.thin_drop text p.offset).symm

theorem In.thinned_rest (h : p.In text) : (p.thinned text).rest = thin p.rest := by rw [h.rest]; rfl

theorem In.thinned_nil (h : p.In text) (empty : p.rest = []) : (p.thinned text).rest = [] := by
  rw [h.thinned_rest, empty, Text.thin_nil]

theorem In.thinned_cons (h : p.In text) {c : Char} {rest : List Char} (eq : p.rest = c :: rest) (ne : c ≠ '\r') :
    (p.thinned text).rest = c :: thin rest := by
  rw [h.thinned_rest, eq, Text.thin_cons ne]

theorem In.thinned_before (h : p.In text) (ne : p.before ≠ some '\r') : (p.thinned text).before = p.before := by
  cases eq : p.before with
  | none =>
    have nil : text.take p.offset = [] := List.getLast?_eq_none_iff.mp (h.before.symm.trans eq)
    rw [thinned, nil]
    rfl
  | some c =>
    obtain ⟨init, last⟩ := h.split eq
    have other : c ≠ '\r' := fun same => ne (by rw [eq, same])
    rw [thinned, last, Text.thin_append, Text.thin_cons other, Text.thin_nil, List.getLast?_append]
    rfl

theorem In.take_past (h : p.In text) {c : Char} {rest : List Char} (eq : p.rest = c :: rest) :
    text.take (p.offset + 1) = text.take p.offset ++ [c] ∧ text.drop (p.offset + 1) = rest := by
  have here : text.drop p.offset = c :: rest := h.rest.symm.trans eq
  constructor
  · rw [List.take_add, here]
    rfl
  · rw [← List.drop_drop, here]
    rfl

/-- Before and behind a return are places that stand for the same one. -/
theorem In.thinned_past_return (h : p.In text) {rest : List Char} (eq : p.rest = '\r' :: rest) :
    (p.past '\r' rest).thinned text = p.thinned text := by
  obtain ⟨front, back⟩ := h.take_past eq
  have here : text.drop p.offset = '\r' :: rest := h.rest.symm.trans eq
  rw [thinned, thinned, Place.past, front, back, here, Text.thin_append, Text.thinOffset_succ_of_return here]
  simp

theorem In.thinned_past (h : p.In text) {c : Char} {rest : List Char} (eq : p.rest = c :: rest) (ne : c ≠ '\r') :
    (p.past c rest).thinned text = (p.thinned text).past c (thin rest) := by
  obtain ⟨front, back⟩ := h.take_past eq
  have here : text.drop p.offset = c :: rest := h.rest.symm.trans eq
  rw [thinned, thinned, Place.past, Place.past, front, back, Text.thin_append, Text.thinOffset_succ here ne, Text.thin_cons ne]
  simp

/-- At the end of a line. -/
def endsLine (p : Place) : Bool := p.rest.head?.all (· = '\n')

theorem endsLine_iff : p.endsLine = true ↔ p.rest = [] ∨ ∃ more, p.rest = '\n' :: more := by
  rw [endsLine]
  cases p.rest with
  | nil => simp
  | cons c rest => simp

theorem any_head_of_endsLine {f : Char → Bool} (feed : f '\n' = false) (ended : p.endsLine = true) :
    p.rest.head?.any f = false := by
  rcases endsLine_iff.mp ended with nil | ⟨more, eq⟩
  · rw [nil]
    rfl
  · rw [eq]
    exact feed

theorem In.endsLine_at_return (lines : ReturnsEndLines text) (h : p.In text) {rest : List Char} (eq : p.rest = '\r' :: rest) :
    (p.thinned text).endsLine = true := by
  rw [endsLine_iff, h.thinned_rest, eq, Text.thin_cons_return]
  rcases h.at_return lines eq with rfl | ⟨more, rfl⟩
  · exact .inl rfl
  · exact .inr ⟨thin more, Text.thin_cons (by decide) more⟩

theorem In.endsLine_behind_return (lines : ReturnsEndLines text) (h : p.In text) (behind : p.before = some '\r') :
    (p.thinned text).endsLine = true := by
  rw [endsLine_iff, h.thinned_rest]
  rcases h.behind_return lines behind with nil | ⟨more, feed⟩
  · exact .inl (by rw [nil]; rfl)
  · exact .inr ⟨thin more, by rw [feed, Text.thin_cons (by decide)]⟩

theorem In.head_thinned (h : p.In text) (ne : p.rest.head? ≠ some '\r') : (p.thinned text).rest.head? = p.rest.head? := by
  cases eq : p.rest with
  | nil => rw [h.thinned_nil eq]
  | cons c rest =>
    rw [eq, List.head?_cons] at ne
    rw [h.thinned_cons eq fun same => ne (congrArg some same)]
    rfl

/-- What neither a return nor a line feed is, the next character is without returns if it is with them. -/
theorem In.any_head_thinned (lines : ReturnsEndLines text) (h : p.In text) {f : Char → Bool} (ret : f '\r' = false)
    (feed : f '\n' = false) : (p.thinned text).rest.head?.any f = p.rest.head?.any f := by
  by_cases head : p.rest.head? = some '\r'
  · obtain ⟨rest, eq⟩ := List.head?_eq_some_iff.mp head
    rw [any_head_of_endsLine feed (h.endsLine_at_return lines eq), head]
    exact ret.symm
  · rw [h.head_thinned head]

end Place

/-! ## What follows, without returns -/

/-- What is known of a step at the ends of lines. -/
structure Follow where
  /-- It has no result there. -/
  ink : Bool
  /-- At the end of the text it has none, and before a line feed it has the result that it has behind it. -/
  glides : Bool

def Follow.unknown : Follow := ⟨false, false⟩

structure Follows (φ : Follow) (step : Place → Option Place) : Prop where
  ink : φ.ink = true → ∀ p : Place, p.endsLine = true → step p = none
  nil : φ.glides = true → ∀ p : Place, p.rest = [] → step p = none
  feed : φ.glides = true → ∀ (p : Place) (rest : List Char), p.rest = '\n' :: rest → step p = step (p.past '\n' rest)

theorem follows_unknown (step : Place → Option Place) : Follows .unknown step :=
  ⟨fun no => absurd no Bool.false_ne_true, fun no => absurd no Bool.false_ne_true, fun no => absurd no Bool.false_ne_true⟩

/-- Every match takes a character, and the ends of lines are not all that it takes. -/
def goesOn (part : Node) : Bool := takesBeside '\r' part || takesBeside '\n' part

theorem exists_beside {part : Node} (on : goesOn part = true) : ∃ c, takesBeside c part = true := by
  rcases (Bool.or_eq_true _ _).mp on with beside | beside
  · exact ⟨_, beside⟩
  · exact ⟨_, beside⟩

/-- What is known of an expression before a step. -/
def follow (φ : Follow) : Node → Follow
  | .empty => φ
  | .set s => ⟨!s.contains '\n', false⟩
  | .seq first second => follow (follow φ second) first
  | .alt first second =>
    ⟨(follow φ first).ink && (follow φ second).ink, (follow φ first).glides && (follow φ second).glides⟩
  | .run s least most isLazy =>
    ⟨!s.contains '\n' && (least ≠ 0 || φ.ink),
      least = 0 && most = none && !isLazy && s.contains '\n' && (φ.ink || φ.glides)⟩
  | .many part least most isLazy =>
    ⟨!isLazy && goesOn part && (follow .unknown part).ink && (least ≠ 0 || φ.ink),
      !isLazy && goesOn part && least = 0 && most = some 1 && φ.glides && (follow φ part).glides⟩
  | .group _ part => ⟨(follow ⟨φ.ink, false⟩ part).ink, false⟩
  | .anchor _ => ⟨φ.ink, false⟩
  | .notAhead _ => ⟨φ.ink, false⟩
  | .notBehind _ => ⟨φ.ink, false⟩

section
variable {step : Place → Option Place} {φ : Follow}

theorem Follows.of_ink (h : φ.ink = true → ∀ p : Place, p.endsLine = true → step p = none) : Follows ⟨φ.ink, false⟩ step :=
  ⟨h, fun no => absurd no Bool.false_ne_true, fun no => absurd no Bool.false_ne_true⟩

/-- Where a run has no result, what follows it has none. -/
theorem step_of_after_run {s : CharSet} {most : Option Nat} (no : after (.run s 0 most false) step p = none) :
    step p = none := by
  cases eq : p.rest with
  | nil => rwa [after_run_nil s 0 most false eq, if_pos rfl] at no
  | cons c rest =>
    rw [after_run_cons s 0 most false eq] at no
    exact (Option.or_eq_none_iff.mp no).2

theorem follows_set (s : CharSet) : Follows (follow φ (.set s)) (after (.set s) step) := by
  refine ⟨fun away p ended => ?_, fun no => absurd no Bool.false_ne_true, fun no => absurd no Bool.false_ne_true⟩
  have away : (!s.contains '\n') = true := away
  exact after_set_outside (Place.any_head_of_endsLine (by simpa using away) ended)

theorem follows_run (h : Follows φ step) (s : CharSet) (least : Nat) (most : Option Nat) (isLazy : Bool) :
    Follows (follow φ (.run s least most isLazy)) (after (.run s least most isLazy) step) := by
  refine ⟨fun ink p ended => ?_, fun glides p nil => ?_, fun glides p rest feed => ?_⟩
  · simp only [follow, Bool.and_eq_true, Bool.not_eq_true', Bool.or_eq_true, decide_eq_true_eq] at ink
    obtain ⟨away, stop⟩ := ink
    have here : (if least = 0 then step p else none) = none := by
      split
      next zero => exact h.ink (stop.resolve_left (· zero)) p ended
      next => rfl
    rw [after_run_outside (Place.any_head_of_endsLine away ended), here]
  · simp only [follow, Bool.and_eq_true, Bool.or_eq_true, decide_eq_true_eq] at glides
    obtain ⟨⟨⟨⟨rfl, -⟩, -⟩, -⟩, stop⟩ := glides
    rw [after_run_nil s 0 most isLazy nil, if_pos rfl]
    rcases stop with ink | glides
    · exact h.ink ink p (Place.endsLine_iff.mpr (.inl nil))
    · exact h.nil glides p nil
  · simp only [follow, Bool.and_eq_true, Bool.or_eq_true, decide_eq_true_eq, Bool.not_eq_true'] at glides
    obtain ⟨⟨⟨⟨rfl, rfl⟩, rfl⟩, among⟩, stop⟩ := glides
    -- A result of the run from the line feed on is one from behind it.
    have redundant : after (.run s 0 none false) step (p.past '\n' rest) = none → step p = none := by
      intro no
      rcases stop with ink | glides
      · exact h.ink ink p (Place.endsLine_iff.mpr (.inr ⟨rest, feed⟩))
      · rw [h.feed glides p rest feed]
        exact step_of_after_run no
    rw [after_run_cons s 0 none false feed]
    simp only [among]
    show (after (.run s 0 none false) step (p.past '\n' rest)).or (step p) = _
    cases further : after (.run s 0 none false) step (p.past '\n' rest) with
    | none => rw [redundant further]; rfl
    | some r => rfl

theorem follows_many {part : Node} (ih : ∀ {φ : Follow} {step : Place → Option Place}, Follows φ step →
    Follows (follow φ part) (after part step)) (h : Follows φ step) (least : Nat) (most : Option Nat) (isLazy : Bool) :
    Follows (follow φ (.many part least most isLazy)) (after (.many part least most isLazy) step) := by
  refine ⟨fun ink p ended => ?_, fun glides p nil => ?_, fun glides p rest feed => ?_⟩
  · simp only [follow, Bool.and_eq_true, Bool.or_eq_true, Bool.not_eq_true', decide_eq_true_eq] at ink
    obtain ⟨⟨⟨rfl, on⟩, inner⟩, stop⟩ := ink
    obtain ⟨c, beside⟩ := exists_beside on
    have here : (if least = 0 then step p else none) = none := by
      split
      next zero => exact h.ink (stop.resolve_left (· zero)) p ended
      next => rfl
    rw [after_many]
    cases p.rest with
    | nil => rw [loop_nil, here]
    | cons d clock => rw [loop_cons beside, here, (ih (follows_unknown _)).ink inner p ended, ite_self, Option.none_or]
  · simp only [follow, Bool.and_eq_true, Bool.not_eq_true', decide_eq_true_eq] at glides
    obtain ⟨⟨⟨⟨⟨rfl, on⟩, rfl⟩, rfl⟩, stop⟩, inner⟩ := glides
    obtain ⟨c, beside⟩ := exists_beside on
    rw [after_optional beside, h.nil stop p nil, (ih h).nil inner p nil, Option.none_or]
  · simp only [follow, Bool.and_eq_true, Bool.not_eq_true', decide_eq_true_eq] at glides
    obtain ⟨⟨⟨⟨⟨rfl, on⟩, rfl⟩, rfl⟩, stop⟩, inner⟩ := glides
    obtain ⟨c, beside⟩ := exists_beside on
    rw [after_optional beside, after_optional beside, h.feed stop p rest feed, (ih h).feed inner p rest feed]

theorem follows_after {node : Node} (h : Follows φ step) : Follows (follow φ node) (after node step) := by
  induction node generalizing φ step with
  | empty =>
    have same : after .empty step = step := funext fun p => after_empty
    rwa [same]
  | set s => exact follows_set s
  | seq first second ih ih' =>
    have same : after (.seq first second) step = after first (after second step) := funext fun p => after_seq first second
    rw [same]
    exact ih (ih' h)
  | alt first second ih ih' =>
    refine ⟨fun ink p ended => ?_, fun glides p nil => ?_, fun glides p rest feed => ?_⟩
    · obtain ⟨one, other⟩ := (Bool.and_eq_true _ _).mp ink
      rw [after_alt, (ih h).ink one p ended, (ih' h).ink other p ended, Option.none_or]
    · obtain ⟨one, other⟩ := (Bool.and_eq_true _ _).mp glides
      rw [after_alt, (ih h).nil one p nil, (ih' h).nil other p nil, Option.none_or]
    · obtain ⟨one, other⟩ := (Bool.and_eq_true _ _).mp glides
      rw [after_alt, after_alt, (ih h).feed one p rest feed, (ih' h).feed other p rest feed]
  | run s least most isLazy => exact follows_run h s least most isLazy
  | many part least most isLazy ih => exact follows_many ih h least most isLazy
  | group n part ih =>
    refine .of_ink fun ink p ended => ?_
    have inner : Follows ⟨φ.ink, false⟩ fun q => step { q with groups := (n, ⟨p.offset, q.offset⟩) :: q.groups } :=
      .of_ink fun stop q ended => h.ink stop _ ended
    rw [after_group]
    exact (ih inner).ink ink p ended
  | anchor a =>
    refine .of_ink fun ink p ended => ?_
    rw [after_anchor, h.ink ink p ended, ite_self]
  | notAhead part =>
    refine .of_ink fun ink p ended => ?_
    rw [after_notAhead, h.ink ink p ended, ite_self]
  | notBehind s =>
    refine .of_ink fun ink p ended => ?_
    rw [after_notBehind, h.ink ink p ended, ite_self]

end

end CodeHygiene.Regex
