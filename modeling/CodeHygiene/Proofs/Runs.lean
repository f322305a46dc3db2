import CodeHygiene.Scan.Match
import Mathlib.Logic.Basic

/-!
Runs of matching lines.

Proved:
(1) The runs that a pass over marks closes from some line on are the maximal ones that end there or later, the one that is
    open included (`mem_runsFrom_iff`), and they come in order, apart from each other (`pairwise_runsFrom`).
(2) So a rule that asks for runs reports the maximal runs of matching lines that are long enough, each once and from the
    first line to the last; a line that does not match stands between any two (`maximal_runs_are_reported`).
-/

namespace CodeHygiene.Scan

variable {marks rest : List Bool} {number count : Nat} {run : Run}

/-- The line of a number, counted from one, is there and is marked. -/
def IsMarked (marks : List Bool) (n : Nat) : Prop := n ≠ 0 ∧ marks[n - 1]? = some true

/-- Neighbouring lines, all of them marked, with no marked line next to them. -/
structure Run.IsMaximal (marks : List Bool) (run : Run) : Prop where
  count_pos : 0 < run.count
  marked : ∀ n, run.first ≤ n → n ≤ run.last → IsMarked marks n
  before : ¬ IsMarked marks (run.first - 1)
  behind : ¬ IsMarked marks (run.last + 1)

theorem Run.last_add_one (pos : 0 < run.count) : run.last + 1 = run.first + run.count := by
  rw [Run.last]
  omega

/-! ## A pass over the lines -/

/-- Where a pass stands: the marks up to the line `number` are read, and the last `count` of them are set. -/
structure Standing (marks rest : List Bool) (number count : Nat) : Prop where
  split : ∃ front, marks = front ++ rest ∧ front.length + 1 = number
  fewer : count < number
  marked : ∀ n, number - count ≤ n → n < number → IsMarked marks n
  before : ¬ IsMarked marks (number - count - 1)

namespace Standing

theorem start (marks : List Bool) : Standing marks marks 1 0 where
  split := ⟨[], rfl, rfl⟩
  fewer := Nat.one_pos
  marked _ low high := absurd high (Nat.not_lt.mpr low)
  before h := h.1 rfl

theorem isMarked_iff (h : Standing marks rest number count) : IsMarked marks number ↔ rest[0]? = some true := by
  obtain ⟨front, rfl, rfl⟩ := h.split
  rw [IsMarked, and_iff_right (Nat.succ_ne_zero _), Nat.add_sub_cancel, List.getElem?_append_right (Nat.le_refl _),
    Nat.sub_self]

theorem split_cons {mark : Bool} (h : Standing marks (mark :: rest) number count) :
    ∃ front, marks = front ++ rest ∧ front.length + 1 = number + 1 := by
  obtain ⟨front, rfl, rfl⟩ := h.split
  exact ⟨front ++ [mark], by rw [List.append_assoc]; rfl, by rw [List.length_append]; rfl⟩

theorem step_true (h : Standing marks (true :: rest) number count) : Standing marks rest (number + 1) (count + 1) where
  split := h.split_cons
  fewer := Nat.succ_lt_succ h.fewer
  marked n low high := by
    rcases Nat.lt_succ_iff_lt_or_eq.mp high with lt | rfl
    · exact h.marked n (by omega) lt
    · exact h.isMarked_iff.mpr rfl
  before := by
    rw [Nat.add_sub_add_right]
    exact h.before

theorem step_false (h : Standing marks (false :: rest) number count) : Standing marks rest (number + 1) 0 where
  split := h.split_cons
  fewer := Nat.succ_pos number
  marked n low high := absurd high (Nat.not_lt.mpr low)
  before marked := by
    have no := h.isMarked_iff.mp marked
    cases no

/-- Where the line in hand is not marked, the run that is open, if any, is the maximal one that ends before it. -/
theorem mem_runBefore_iff (h : Standing marks rest number count) (unmarked : ¬ IsMarked marks number) :
    run ∈ runBefore number count ↔ run.IsMaximal marks ∧ run.last + 1 = number := by
  have fewer := h.fewer
  rw [runBefore]
  split
  next zero =>
    refine ⟨fun no => absurd no List.not_mem_nil, fun ⟨maximal, ends⟩ => absurd ?_ h.before⟩
    have last := Run.last_add_one maximal.count_pos
    have pos := maximal.count_pos
    rw [show number - count - 1 = run.last by omega]
    exact maximal.marked run.last (by omega) (Nat.le_refl _)
  next some =>
    rw [List.mem_singleton]
    constructor
    · rintro rfl
      have last : (Run.mk (number - count) count).last + 1 = number :=
        (Run.last_add_one (Nat.pos_of_ne_zero some)).trans (Nat.sub_add_cancel (Nat.le_of_lt fewer))
      refine ⟨⟨Nat.pos_of_ne_zero some, fun n low high => h.marked n low (by omega), h.before, ?_⟩, last⟩
      rwa [last]
    · rintro ⟨maximal, ends⟩
      have last := Run.last_add_one maximal.count_pos
      have pos := maximal.count_pos
      -- the run neither begins behind the line where the marks begin nor reaches over it
      have first : run.first = number - count := by
        rcases Nat.lt_trichotomy run.first (number - count) with lt | eq | gt
        · exact absurd (maximal.marked (number - count - 1) (by omega) (by omega)) h.before
        · exact eq
        · exact absurd (h.marked (run.first - 1) (by omega) (by omega)) maximal.before
      have long : run.count = count := by omega
      cases run
      exact congrArg₂ Run.mk first long

end Standing

/-- A pass closes the maximal runs that end at the line before it or later. -/
theorem mem_runsFrom_iff (h : Standing marks rest number count) :
    run ∈ runsFrom number count rest ↔ run.IsMaximal marks ∧ number ≤ run.last + 1 := by
  induction rest generalizing number count with
  | nil =>
    have unmarked : ¬ IsMarked marks number := fun marked => by cases h.isMarked_iff.mp marked
    rw [runsFrom, h.mem_runBefore_iff unmarked]
    refine and_congr_right fun maximal => ⟨fun ends => Nat.le_of_eq ends.symm, fun late => ?_⟩
    obtain ⟨front, rfl, rfl⟩ := h.split
    have last := Run.last_add_one maximal.count_pos
    obtain ⟨-, inside⟩ := maximal.marked run.last (by have := maximal.count_pos; omega) (Nat.le_refl _)
    obtain ⟨lt, -⟩ := List.getElem?_eq_some_iff.mp inside
    rw [List.append_nil] at lt
    omega
  | cons mark rest ih =>
    cases mark with
    | true =>
      rw [runsFrom, ih h.step_true]
      refine and_congr_right fun maximal => ⟨fun late => Nat.le_of_succ_le late, fun late => ?_⟩
      rcases Nat.eq_or_lt_of_le late with ends | later
      · exact absurd (ends ▸ h.isMarked_iff.mpr rfl) maximal.behind
      · exact later
    | false =>
      have unmarked : ¬ IsMarked marks number := fun marked => by cases h.isMarked_iff.mp marked
      rw [runsFrom, List.mem_append, h.mem_runBefore_iff unmarked, ih h.step_false, ← and_or_left]
      exact and_congr_right fun _ => ⟨fun late => by omega, fun late => by omega⟩

theorem first_le_of_mem_runsFrom (mem : run ∈ runsFrom number count rest) : number - count ≤ run.first := by
  have closed (mem : run ∈ runBefore number count) : number - count ≤ run.first := by
    rw [runBefore] at mem
    split at mem
    next => cases mem
    next => exact Nat.le_of_eq (congrArg Run.first (List.mem_singleton.mp mem)).symm
  induction rest generalizing number count with
  | nil => exact closed mem
  | cons mark rest ih =>
    cases mark with
    | true =>
      have := ih mem fun mem => ?_
      · omega
      · rw [runBefore, if_neg (Nat.succ_ne_zero count)] at mem
        exact Nat.le_of_eq (congrArg Run.first (List.mem_singleton.mp mem)).symm
    | false =>
      rcases List.mem_append.mp mem with here | later
      · exact closed here
      · have := ih later fun no => absurd no List.not_mem_nil
        omega

/-- Runs come in order, and a line stands between two of them. -/
theorem pairwise_runsFrom (number count : Nat) (fewer : count ≤ number) (rest : List Bool) :
    (runsFrom number count rest).Pairwise fun run other => run.first + run.count < other.first := by
  induction rest generalizing number count with
  | nil =>
    rw [runsFrom, runBefore]
    split
    next => exact .nil
    next => exact List.pairwise_singleton _ _
  | cons mark rest ih =>
    cases mark with
    | true => exact ih (number + 1) (count + 1) (Nat.succ_le_succ fewer)
    | false =>
      rw [runsFrom, List.pairwise_append]
      refine ⟨?_, ih (number + 1) 0 (Nat.zero_le _), fun run here other later => ?_⟩
      · rw [runBefore]
        split
        next => exact .nil
        next => exact List.pairwise_singleton _ _
      · have behind := first_le_of_mem_runsFrom later
        rw [runBefore] at here
        split at here
        next => cases here
        next =>
          obtain rfl := List.mem_singleton.mp here
          show number - count + count < other.first
          omega

/-! ## Lines -/

/-- The line of a number, counted from one, is there and has a match. -/
def MatchesLine (r : Regex) (lines : List Line) (n : Nat) : Prop :=
  n ≠ 0 ∧ ∃ line, lines[n - 1]? = some line ∧ r.occursIn line = true

theorem isMarked_map_iff {r : Regex} {lines : List Line} {n : Nat} :
    IsMarked (lines.map r.occursIn) n ↔ MatchesLine r lines n := by
  rw [IsMarked, MatchesLine, List.getElem?_map, Option.map_eq_some_iff]

/-- Neighbouring lines from a first to a last, all of them with a match, and no line with one next to them. -/
structure MaximalRun (r : Regex) (lines : List Line) (first last : Nat) : Prop where
  first_le : first ≤ last
  matched : ∀ n, first ≤ n → n ≤ last → MatchesLine r lines n
  before : ¬ MatchesLine r lines (first - 1)
  behind : ¬ MatchesLine r lines (last + 1)

theorem mem_runs_iff {r : Regex} {lines : List Line} :
    run ∈ runs r lines ↔ 0 < run.count ∧ MaximalRun r lines run.first run.last := by
  rw [runs, mem_runsFrom_iff (.start _), and_iff_left (Nat.le_add_left 1 _)]
  constructor
  · rintro ⟨pos, marked, before, behind⟩
    have last := Run.last_add_one pos
    exact ⟨pos, by omega, fun n low high => isMarked_map_iff.mp (marked n low high), fun h => before (isMarked_map_iff.mpr h),
      fun h => behind (isMarked_map_iff.mpr h)⟩
  · rintro ⟨pos, -, matched, before, behind⟩
    exact ⟨pos, fun n low high => isMarked_map_iff.mpr (matched n low high), fun h => before (isMarked_map_iff.mp h),
      fun h => behind (isMarked_map_iff.mp h)⟩

/-- A rule that asks for runs reports the maximal runs of matching lines that are long enough, in order and each once: the
finding stands at the first line and tells the first line, the last and how many they are. A line without a match stands
between any two. -/
theorem maximal_runs_are_reported (rule : Rule) (r : Regex) (least : Int) (s : Source) :
    ∃ found : List (Nat × Nat),
      (∀ first last, (first, last) ∈ found ↔ MaximalRun r s.lines first last ∧ least ≤ (last + 1 - first : Nat)) ∧
      (found.Pairwise fun run other => ∃ n, run.2 < n ∧ n < other.1 ∧ ¬ MatchesLine r s.lines n) ∧
      ofRuns rule r least s = found.map fun (first, last) =>
        { findingAt rule s first 0 ("Lines " ++ Decimal.natText first ++ "-" ++ Decimal.natText last) with
          details := [("start_line", .nat first), ("end_line", .nat last), ("line_count", .nat (last + 1 - first))] } := by
  have among {run : Run} (mem : run ∈ (runs r s.lines).filter fun run => least ≤ run.count) :
      0 < run.count ∧ MaximalRun r s.lines run.first run.last := mem_runs_iff.mp (List.mem_filter.mp mem).1
  refine ⟨((runs r s.lines).filter fun run => least ≤ run.count).map fun run => (run.first, run.last), ?_, ?_, ?_⟩
  · intro first last
    rw [List.mem_map]
    constructor
    · rintro ⟨run, mem, same⟩
      obtain ⟨rfl, rfl⟩ := Prod.mk.inj same
      obtain ⟨pos, maximal⟩ := among mem
      have long := of_decide_eq_true (List.mem_filter.mp mem).2
      rw [Run.last_add_one pos, Nat.add_sub_cancel_left]
      exact ⟨maximal, long⟩
    · rintro ⟨maximal, long⟩
      have le := maximal.first_le
      have last_eq : (Run.mk first (last + 1 - first)).last = last := by
        show first + (last + 1 - first) - 1 = last
        omega
      refine ⟨⟨first, last + 1 - first⟩, List.mem_filter.mpr ⟨mem_runs_iff.mpr ⟨?_, ?_⟩, decide_eq_true long⟩, ?_⟩
      · show 0 < last + 1 - first
        omega
      · rw [last_eq]
        exact maximal
      · rw [last_eq]
  · rw [List.pairwise_map]
    refine List.Pairwise.imp_of_mem ?_ ((pairwise_runsFrom 1 0 (Nat.zero_le 1) _).filter _)
    intro run other mem _ apart
    obtain ⟨pos, maximal⟩ := among mem
    exact ⟨run.last + 1, Nat.lt_succ_self _, by rw [Run.last_add_one pos]; exact apart, maximal.behind⟩
  · rw [ofRuns, List.map_map]
    refine List.map_congr_left fun run mem => ?_
    obtain ⟨pos, -⟩ := among mem
    have count : run.last + 1 - run.first = run.count := by rw [Run.last_add_one pos, Nat.add_sub_cancel_left]
    simp only [Function.comp_apply, count]
    rfl

end CodeHygiene.Scan
