import CodeHygiene.Proofs.Matching
import CodeHygiene.Proofs.Regex
import CodeHygiene.Proofs.Returns
import CodeHygiene.Rule.Catalog

/-!
Which texts the rule on blank lines speaks of.

Proved:
(1) A match takes three lines of nothing but spaces and tabs, each with the line feed that ends it, and there is
    one wherever such lines follow each other (`occursIn_iff_holdsBlankLines`).
(2) A text whose line feeds have returns before them holds no such lines (`not_holdsBlankLines_withReturns`), as
    each of its lines but the last ends in a return (`lines_withReturns`).
-/

namespace CodeHygiene

namespace Text

/-- Three neighbouring lines that hold nothing but spaces and tabs, none of them the last. -/
def HoldsBlankLines (text : List Char) : Prop :=
  ∃ init a b c more, lines text = init ++ a :: b :: c :: more ∧ more ≠ [] ∧
    ∀ line ∈ [a, b, c], ∀ x ∈ line, x = ' ' ∨ x = '\t'

theorem lines_line {line : List Char} (clean : '\n' ∉ line) (rest : List Char) :
    lines (line ++ '\n' :: rest) = line :: lines rest := by
  induction line with
  | nil => exact lines_cons_lineFeed rest
  | cons c line ih =>
    obtain ⟨ne, others⟩ : '\n' ≠ c ∧ '\n' ∉ line := by simpa using clean
    rw [List.cons_append, lines_cons (Ne.symm ne) (ih others)]

theorem lines_withReturns {text last : List Char} {init : List (List Char)} (eq : lines text = init ++ [last]) :
    lines (withReturns text) = init.map (· ++ ['\r']) ++ [last] := by
  induction text generalizing init last with
  | nil =>
    obtain ⟨rfl, rfl⟩ : init = [] ∧ last = [] := by
      cases init with
      | nil => exact ⟨rfl, (List.singleton_inj.mp eq).symm⟩
      | cons _ init => cases init <;> cases eq
    rfl
  | cons c rest ih =>
    obtain ⟨front, end_, split⟩ : ∃ front end_, lines rest = front ++ [end_] :=
      ⟨_, _, (List.dropLast_concat_getLast (lines_ne_nil rest)).symm⟩
    by_cases feed : c = '\n'
    · subst feed
      rw [lines_cons_lineFeed, split, ← List.cons_append] at eq
      obtain ⟨rfl, same⟩ := List.append_inj' eq rfl
      rw [← List.singleton_inj.mp same]
      show lines (['\r'] ++ '\n' :: withReturns rest) = _
      rw [lines_line (by decide), ih split]
      rfl
    · rw [withReturns, if_neg feed]
      cases front with
      | nil =>
        rw [lines_cons feed split] at eq
        obtain ⟨rfl, same⟩ := List.append_inj' (show [] ++ [c :: end_] = init ++ [last] from eq) rfl
        rw [← List.singleton_inj.mp same]
        exact lines_cons feed (ih split)
      | cons first front =>
        rw [lines_cons feed split] at eq
        obtain ⟨rfl, same⟩ := List.append_inj' (show ((c :: first) :: front) ++ [end_] = init ++ [last] from eq) rfl
        rw [← List.singleton_inj.mp same]
        exact lines_cons feed (ih split)

theorem not_holdsBlankLines_withReturns (text : List Char) : ¬HoldsBlankLines (withReturns text) := by
  rintro ⟨init, a, b, c, more, eq, some, blank⟩
  obtain ⟨front, last, split⟩ : ∃ front last, lines text = front ++ [last] :=
    ⟨_, _, (List.dropLast_concat_getLast (lines_ne_nil text)).symm⟩
  obtain ⟨others, end_, rfl⟩ : ∃ others end_, more = others ++ [end_] :=
    ⟨_, _, (List.dropLast_concat_getLast some).symm⟩
  rw [lines_withReturns split] at eq
  have same : front.map (· ++ ['\r']) = init ++ a :: b :: c :: others := by
    have whole : front.map (· ++ ['\r']) ++ [last] = (init ++ a :: b :: c :: others) ++ [end_] := by simpa using eq
    exact (List.append_inj' whole rfl).1
  have own : a ∈ front.map (· ++ ['\r']) := by rw [same]; simp
  obtain ⟨line, -, rfl⟩ := List.mem_map.mp own
  rcases blank _ List.mem_cons_self '\r' (by simp) with no | no <;> exact absurd no (by decide)

/-- A text that is empty, or ends in a line feed, has an empty last line. -/
theorem lines_of_ended {front : List Char} (ended : front.getLast?.all (· = '\n') = true) :
    ∃ init, lines front = init ++ [[]] := by
  rcases List.eq_nil_or_concat front with rfl | ⟨before, c, rfl⟩
  · exact ⟨[], rfl⟩
  · obtain rfl : c = '\n' := by simpa using ended
    obtain ⟨init, last, first, more, -, single, both⟩ := lines_append before ['\n']
    obtain ⟨rfl, rfl⟩ := List.cons.inj (show [[], []] = first :: more from single)
    exact ⟨init ++ [last], by simpa using both⟩

/-- The lines are the text cut there. -/
theorem holdsBlankLines_iff {text : List Char} :
    HoldsBlankLines text ↔ ∃ front a b c rest, text = front ++ (a ++ '\n' :: (b ++ '\n' :: (c ++ '\n' :: rest))) ∧
      front.getLast?.all (· = '\n') = true ∧ ∀ line ∈ [a, b, c], ∀ x ∈ line, x = ' ' ∨ x = '\t' := by
  constructor
  · rintro ⟨init, a, b, c, more, eq, some, blank⟩
    refine ⟨init.flatMap (· ++ ['\n']), a, b, c, unlines more, ?_, ?_, blank⟩
    · rw [eq_of_lines_eq eq, unlines_cons (List.cons_ne_nil _ _), unlines_cons (List.cons_ne_nil _ _), unlines_cons some]
    · rcases List.eq_nil_or_concat init with rfl | ⟨before, line, rfl⟩
      · rfl
      · simp
  · rintro ⟨front, a, b, c, rest, rfl, ended, blank⟩
    have clean {line : List Char} (mem : line ∈ [a, b, c]) : '\n' ∉ line := by
      intro feed
      rcases blank line mem '\n' feed with no | no <;> exact absurd no (by decide)
    obtain ⟨init, last, first, more, ofFront, ofBack, both⟩ := lines_append front (a ++ '\n' :: (b ++ '\n' :: (c ++ '\n' :: rest)))
    obtain ⟨init', ofFront'⟩ := lines_of_ended ended
    obtain ⟨rfl, empty⟩ := List.append_inj' (ofFront.symm.trans ofFront') rfl
    obtain rfl := List.singleton_inj.mp empty
    rw [lines_line (clean (by simp)), lines_line (clean (by simp)), lines_line (clean (by simp))] at ofBack
    obtain ⟨rfl, rfl⟩ := List.cons.inj ofBack
    exact ⟨init, a, b, c, lines rest, both, lines_ne_nil rest, blank⟩

end Text

/-! ## Matches -/

namespace Regex

def spacesAndTabs : CharSet := { items := [.one ' ', .one '\t'] }

theorem spacesAndTabs_contains {c : Char} : spacesAndTabs.contains c = true ↔ c = ' ' ∨ c = '\t' := by
  simp [spacesAndTabs, CharSet.contains, CharItem.contains]

/-- The rest of a line of spaces and tabs, and its line feed. -/
def blankLine : Node := .seq (.run spacesAndTabs 0 none false) (.set (.one '\n'))

variable {p q : Place}

theorem exists_line_of_mem_ends (mem : q ∈ ends blankLine p) :
    ∃ line, (∀ x ∈ line, x = ' ' ∨ x = '\t') ∧ p.rest = line ++ '\n' :: q.rest := by
  obtain ⟨r, early, late⟩ := List.mem_flatMap.mp mem
  obtain ⟨line, leads, -, run⟩ := mem_ends_run.mp early
  obtain ⟨c, rest, eq, feed, rfl⟩ := mem_ends_set.mp late
  rw [CharSet.contains_one] at feed
  obtain rfl := of_decide_eq_true feed
  exact ⟨line, fun x inside => spacesAndTabs_contains.mp (run.among x inside), leads.rest.trans (congrArg (line ++ ·) eq)⟩

theorem exists_mem_ends_blankLine {line rest : List Char} (blank : ∀ x ∈ line, x = ' ' ∨ x = '\t')
    (eq : p.rest = line ++ '\n' :: rest) : ∃ q ∈ ends blankLine p, q.rest = rest := by
  have run : IsRun spacesAndTabs 0 none line := isRun_unbounded.mpr fun x inside => spacesAndTabs_contains.mpr (blank x inside)
  let r : Place := ⟨line.getLast?.or p.before, p.offset + line.length, '\n' :: rest, p.groups⟩
  have early : r ∈ ends (.run spacesAndTabs 0 none false) p := mem_ends_run.mpr ⟨line, ⟨eq, rfl, rfl⟩, rfl, run⟩
  have late : r.past '\n' rest ∈ ends (.set (.one '\n')) r := mem_ends_set.mpr ⟨'\n', rest, rfl, by simp [CharSet.contains_one], rfl⟩
  exact ⟨_, List.mem_flatMap.mpr ⟨r, early, late⟩, rfl⟩

/-- Three such lines, from the start of the first. -/
def threeBlankLines : Node := .seq (.anchor .lineStart) (.seq blankLine (.seq blankLine blankLine))

theorem exists_lines_of_mem_ends (mem : q ∈ ends threeBlankLines p) : Anchor.lineStart.holds p = true ∧
    ∃ a b c, p.rest = a ++ '\n' :: (b ++ '\n' :: (c ++ '\n' :: q.rest)) ∧
      ∀ line ∈ [a, b, c], ∀ x ∈ line, x = ' ' ∨ x = '\t' := by
  obtain ⟨start, anchored, three⟩ := List.mem_flatMap.mp mem
  rw [ends] at anchored
  split at anchored
  next starts =>
    obtain rfl := List.mem_singleton.mp anchored
    obtain ⟨p₁, first, two⟩ := List.mem_flatMap.mp three
    obtain ⟨p₂, second, third⟩ := List.mem_flatMap.mp two
    obtain ⟨a, blank, eq⟩ := exists_line_of_mem_ends first
    obtain ⟨b, blank', eq'⟩ := exists_line_of_mem_ends second
    obtain ⟨c, blank'', eq''⟩ := exists_line_of_mem_ends third
    exact ⟨starts, a, b, c, by rw [← eq'', ← eq', ← eq], by simpa using ⟨blank, blank', blank''⟩⟩
  next => cases anchored

theorem exists_mem_ends_threeBlankLines (starts : Anchor.lineStart.holds p = true) {a b c rest : List Char}
    (eq : p.rest = a ++ '\n' :: (b ++ '\n' :: (c ++ '\n' :: rest)))
    (blank : ∀ line ∈ [a, b, c], ∀ x ∈ line, x = ' ' ∨ x = '\t') : ∃ q ∈ ends threeBlankLines p, q.rest = rest := by
  obtain ⟨p₁, first, eq'⟩ := exists_mem_ends_blankLine (blank a (by simp)) eq
  obtain ⟨p₂, second, eq''⟩ := exists_mem_ends_blankLine (blank b (by simp)) eq'
  obtain ⟨q, third, behind⟩ := exists_mem_ends_blankLine (blank c (by simp)) eq''
  refine ⟨q, List.mem_flatMap.mpr ⟨p, ?_, List.mem_flatMap.mpr ⟨p₁, first, List.mem_flatMap.mpr ⟨p₂, second, third⟩⟩⟩, behind⟩
  rw [ends, if_pos starts]
  exact List.mem_singleton_self _

end Regex

namespace Catalog

open Regex (Node spacesAndTabs blankLine threeBlankLines)

theorem pattern?_multipleBlankLines :
    multipleBlankLines.pattern?.map (·.node) =
      some (.seq (.anchor .lineStart) (.seq (.run spacesAndTabs 0 none false) (.seq (.set (.one '\n'))
        (.seq (.run spacesAndTabs 0 none false) (.seq (.set (.one '\n')) blankLine))))) := by
  decide +kernel

theorem ends_multipleBlankLines {r : Regex} (own : multipleBlankLines.pattern? = some r) :
    Regex.ends r.node = Regex.ends threeBlankLines := by
  have node := pattern?_multipleBlankLines
  rw [own, Option.map_some, Option.some_inj] at node
  have seq (first second : Node) : Regex.ends (.seq first second) = fun p => (Regex.ends first p).flatMap (Regex.ends second) := rfl
  rw [node, threeBlankLines]
  simp only [seq, blankLine, List.flatMap_assoc]

theorem occursIn_iff_holdsBlankLines {r : Regex} (own : multipleBlankLines.pattern? = some r) (text : List Char) :
    r.occursIn text = true ↔ Text.HoldsBlankLines text := by
  rw [Text.holdsBlankLines_iff]
  constructor
  · intro occurs
    obtain ⟨h, among⟩ := List.exists_mem_of_ne_nil _ ((Regex.all_ne_nil_iff r text).mpr occurs)
    obtain ⟨p, q, inside, -, mem, -⟩ := Regex.matches_of_mem_all among
    rw [ends_multipleBlankLines own] at mem
    obtain ⟨starts, a, b, c, eq, blank⟩ := Regex.exists_lines_of_mem_ends mem
    refine ⟨text.take p.offset, a, b, c, q.rest, ?_, ?_, blank⟩
    · rw [← eq, inside.rest, List.take_append_drop]
    · rw [← inside.before]
      exact starts
  · rintro ⟨front, a, b, c, rest, rfl, ended, blank⟩
    rw [Regex.occursIn, Regex.search?, Option.isSome_map]
    refine Regex.firstFrom_isSome_of_ends front ?_
    rw [ends_multipleBlankLines own]
    have starts : Regex.Anchor.lineStart.holds ⟨front.getLast?.or none, 0 + front.length,
        a ++ '\n' :: (b ++ '\n' :: (c ++ '\n' :: rest)), []⟩ = true := by
      rw [Option.or_none]
      exact ended
    obtain ⟨q, mem, -⟩ := Regex.exists_mem_ends_threeBlankLines starts rfl blank
    exact List.ne_nil_of_mem mem

end Catalog

end CodeHygiene
