import CodeHygiene.Proofs.Discovery
import CodeHygiene.Proofs.Ratio
import CodeHygiene.Proofs.Severity
import CodeHygiene.Repository.Proportions

/-!
The size of a repository against its public surface, and what of it is too much.

Proved:
(1) Directories lie one below the other up to a greatest number of levels, and what is measured is that number, but no
    more than the levels that are entered (`exists_height`); a directory that a path resolves to has entries
    (`Tree.exists_entriesAt?`).
(2) The exports are those of the conventional entry points, else those of the source files below `src`, else one
    (`exportCount_eq`).
(3) A signal is told exactly where its limit is exceeded, and is high exactly where twice the limit is
    (`map_violations`); the verdict is the worst of them (`verdict_eq`). A share exceeds a whole limit exactly where the
    count that is shared exceeds so many times the exports (`excess_is_signalled`).
-/

namespace CodeHygiene.Repository

/-! ## Levels of directories -/

/-- Directories lie one below the other on so many levels, none of them skipped. -/
inductive HasLevels : Nat → Tree → Prop
  | one {entries : Tree} : HasLevels 1 entries
  | inside {n : Nat} {entries inner : Tree} {name : String} : (name, .directory inner) ∈ entries →
      name ∉ Language.skippedNames → HasLevels n inner → HasLevels (n + 1) entries

namespace HasLevels

variable {n : Nat} {entries : Tree}

theorem pos (h : HasLevels n entries) : 0 < n := by
  cases h with
  | one => exact Nat.one_pos
  | inside => exact Nat.succ_pos _

theorem succ_iff : HasLevels (n + 2) entries ↔
    ∃ x ∈ entries, x.1 ∉ Language.skippedNames ∧ ∃ inner, x.2 = .directory inner ∧ HasLevels (n + 1) inner := by
  constructor
  · intro h
    cases h with
    | inside mem entered h => exact ⟨_, mem, entered, _, rfl, h⟩
  · rintro ⟨⟨name, e⟩, mem, entered, inner, rfl, h⟩
    exact .inside mem entered h

/-- A tree is finite, so its directories end. -/
theorem le_sizeOf (h : HasLevels n entries) : n ≤ sizeOf entries := by
  induction h with
  | one =>
    rename_i entries
    cases entries with
    | nil => simp
    | cons => simp only [List.cons.sizeOf_spec]; omega
  | inside mem _ _ ih =>
    have smaller := List.sizeOf_lt_of_mem mem
    simp only [Prod.mk.sizeOf_spec, Entry.directory.sizeOf_spec] at smaller
    omega

end HasLevels

/-- Steps that each go beyond a number for some items go beyond it where there is such an item. -/
theorem lt_foldl_iff {α : Type} {n : Nat} {step : Nat → α → Nat} (goes : α → Prop)
    (each : ∀ deepest x, n < step deepest x ↔ n < deepest ∨ goes x) (items : List α) (deepest : Nat) :
    n < items.foldl step deepest ↔ n < deepest ∨ ∃ x ∈ items, goes x := by
  induction items generalizing deepest with
  | nil => simp
  | cons x rest ih =>
    rw [List.foldl_cons, ih, each, or_assoc]
    simp

theorem lt_heightOf_iff {n levels : Nat} {entries : Tree} :
    n < heightOf levels entries ↔ n < levels ∧ HasLevels (n + 1) entries := by
  induction levels generalizing n entries with
  | zero => simp [heightOf]
  | succ levels ih =>
    unfold heightOf
    cases n with
    | zero => exact iff_of_true (by omega) ⟨Nat.succ_pos _, .one⟩
    | succ n =>
      rw [Nat.add_comm 1, Nat.succ_lt_succ_iff, Nat.succ_lt_succ_iff, HasLevels.succ_iff]
      refine (lt_foldl_iff (fun x => x.1 ∉ Language.skippedNames ∧ ∃ inner, x.2 = .directory inner ∧
        n < heightOf levels inner) ?_ entries 0).trans ?_
      · rintro deepest ⟨name, e⟩
        by_cases skipped : name ∈ Language.skippedNames
        · simp [skipped]
        · cases e with
          | directory inner => simp [skipped]
          | file | link => simp [skipped]
      · simp only [ih, Nat.not_lt_zero, false_or]
        constructor
        · rintro ⟨x, mem, entered, inner, same, less, h⟩
          exact ⟨less, x, mem, entered, inner, same, h⟩
        · rintro ⟨less, x, mem, entered, inner, same, h⟩
          exact ⟨x, mem, entered, inner, same, less, h⟩

/-- There is a greatest number of levels; the height is that number, or all the levels that are entered. -/
theorem exists_height (entries : Tree) : ∃ height, IsGreatest {n | HasLevels n entries} height ∧
    ∀ levels, heightOf levels entries = min height levels := by
  have all {n : Nat} : n < heightOf (sizeOf entries) entries ↔ HasLevels (n + 1) entries := by
    rw [lt_heightOf_iff]
    exact and_iff_right_of_imp HasLevels.le_sizeOf
  refine ⟨heightOf (sizeOf entries) entries, ⟨?_, ?_⟩, fun levels => ?_⟩
  · have some : 0 < heightOf (sizeOf entries) entries := all.mpr .one
    obtain ⟨n, eq⟩ : ∃ n, heightOf (sizeOf entries) entries = n + 1 := ⟨_, (Nat.succ_pred_eq_of_pos some).symm⟩
    show HasLevels _ _
    rw [eq, ← all, eq]
    exact Nat.lt_succ_self n
  · intro n h
    obtain ⟨m, rfl⟩ : ∃ m, n = m + 1 := ⟨_, (Nat.succ_pred_eq_of_pos h.pos).symm⟩
    exact all.mpr h
  · refine eq_of_forall_lt_iff fun n => ?_
    rw [lt_min_iff, lt_heightOf_iff, all, and_comm]

namespace Tree

variable {t : Tree}

/-- The entries of a directory above, or of one below, are there. -/
theorem isSome_entriesAt?_dropLast {here : List String} (opened : (t.entriesAt? here).isSome = true) :
    (t.entriesAt? here.dropLast).isSome = true := by
  by_cases none : here = []
  · rw [none]
    rfl
  · rw [← List.dropLast_append_getLast none, entriesAt?_append] at opened
    exact Option.isSome_of_isSome_bind opened

theorem isSome_entriesAt?_snoc {here : List String} {name : String} {inner : Tree}
    (looked : (t.entriesAt? here).bind (·.lookup name) = some (.directory inner)) :
    (t.entriesAt? (here ++ [name])).isSome = true := by
  obtain ⟨entries, opened, found⟩ := Option.bind_eq_some_iff.mp looked
  rw [entriesAt?_append, opened]
  simp [entriesAt?, found]

/-- What a path resolves to, if it is a directory, is one with entries. -/
theorem isSome_entriesAt?_of_resolveFrom {links : Nat} {here parts real : List String}
    (opened : (t.entriesAt? here).isSome = true) (found : t.resolveFrom links here parts = some (.directory real)) :
    (t.entriesAt? real).isSome = true := by
  fun_induction resolveFrom t links here parts with
  | case1 =>
    cases found
    exact opened
  | case3 _ _ _ _ ih => exact ih (isSome_entriesAt?_dropLast opened) found
  | case5 _ _ _ _ _ _ looked ih => exact ih (isSome_entriesAt?_snoc looked) found
  | case12 _ _ _ _ _ _ _ _ _ _ ih => exact ih opened found
  | _ => cases found

/-- A directory that a path resolves to has entries. -/
theorem exists_entriesAt? {p : Path} {here : List String} (start : t.directory? p = some here) :
    ∃ entries, t.entriesAt? here = some entries := by
  unfold directory? resolve? at start
  split at start
  next real resolved =>
    cases start
    split at resolved
    · cases resolved
    · exact Option.isSome_iff_exists.mp (isSome_entriesAt?_of_resolveFrom rfl resolved)
  next => cases start

end Tree

/-! ## Exports -/

/-- The exports of the conventional entry points. -/
def conventionalExports (t : Tree) (root : Path) : Nat := Tally.sum (entryPoints.map (exportsOf t root))

/-- The exports of the source files below `src`. -/
def scannedExports (t : Tree) (root : Path) : Nat :=
  Tally.sum ((sourceFiles t (root.below "src") false defaultMaxFiles defaultDepth).map (exportsOf t (root.below "src")))

/-- What counts nothing does not count. -/
theorem sum_map_filter_pos (count : String → Nat) (items : List String) :
    Tally.sum ((items.filter fun x => 0 < count x).map count) = Tally.sum (items.map count) := by
  induction items with
  | nil => rfl
  | cons x rest ih =>
    by_cases some : 0 < count x
    · rw [List.filter_cons_of_pos (by simpa using some), List.map_cons, List.map_cons, Tally.sum, Tally.sum, ih]
    · rw [List.filter_cons_of_neg (by simpa using some), ih, List.map_cons, Tally.sum]
      omega

/-- The entry points are asked first, then the source files; at last one export is taken for granted. -/
theorem exportCount_eq (t : Tree) (root : Path) : ((exportCount t root).count, (exportCount t root).method) =
    if 0 < conventionalExports t root then (conventionalExports t root, .entryPoints)
    else if 0 < scannedExports t root then (scannedExports t root, .sourceScan)
    else (1, .assumed) := by
  unfold exportCount
  dsimp only
  rw [sum_map_filter_pos, ← conventionalExports, ← scannedExports]
  by_cases conventional : 0 < conventionalExports t root
  · simp only [conventional, if_true]
  · by_cases scanned : 0 < scannedExports t root
    · simp only [conventional, scanned, if_true, if_false]
    · simp only [conventional, scanned, if_false]

/-! ## Signals -/

/-- A limit, and whether what is measured exceeds one. -/
structure Signal where
  type : String
  limit : Quantity
  exceeds : Quantity → Bool

namespace Signal

def isTold (s : Signal) : Bool := s.exceeds s.limit

def severity (s : Signal) : Severity := if s.exceeds s.limit.twice then .high else .medium

end Signal

namespace Proportions

variable {p : Proportions} {l : Limits}

/-- What a repository is measured for: files for each export, lines for each export, and depth. -/
def signals (p : Proportions) (l : Limits) : List Signal :=
  [⟨"file_proliferation", l.filesPerExport, fun limit => limit.exceededBy p.filesPerExport⟩,
   ⟨"code_density", l.linesPerExport, fun limit => limit.exceededBy p.linesPerExport⟩,
   ⟨"directory_depth", l.depth, fun limit => limit.exceededByCount p.depth⟩]

/-- The signals that are told, in their order and with their severities, are the violations. -/
theorem map_violations (p : Proportions) (l : Limits) : (p.violations l).map (fun v => (v.type, v.severity)) =
    ((p.signals l).filter Signal.isTold).map fun s => (s.type, s.severity) := by
  unfold violations signals
  simp only [List.filter_cons, List.filter_nil, Signal.isTold, List.map_append]
  by_cases files : l.filesPerExport.exceededBy p.filesPerExport = true <;>
    by_cases lines : l.linesPerExport.exceededBy p.linesPerExport = true <;>
    by_cases depth : l.depth.exceededByCount p.depth = true <;>
    simp [files, lines, depth, filesViolation, linesViolation, depthViolation, severityBeyond, Signal.severity]

end Proportions

/-- The verdict of what is high or medium is the worst of it. -/
theorem verdict_eq {severities : List Severity} (graded : ∀ s ∈ severities, s ∈ [Severity.high, .medium]) :
    (Verdict.ofSeverities severities = .ok ↔ severities = []) ∧
    (Verdict.ofSeverities severities = .high ↔ Severity.high ∈ severities) ∧
    (Verdict.ofSeverities severities = .medium ↔ severities ≠ [] ∧ ∀ s ∈ severities, s = .medium) := by
  unfold Verdict.ofSeverities
  by_cases none : severities = []
  · simp [none]
  · have high : severities.any Severity.isHigh = true ↔ Severity.high ∈ severities := by
      rw [List.any_eq_true]
      constructor
      · rintro ⟨s, mem, severe⟩
        rcases List.mem_pair.mp (graded s mem) with rfl | rfl
        · exact mem
        · cases severe
      · exact fun mem => ⟨.high, mem, rfl⟩
    rw [if_neg (by simpa using none)]
    by_cases severe : Severity.high ∈ severities
    · rw [if_pos (high.mpr severe)]
      refine ⟨by simp [none], by simp [severe], ?_⟩
      refine iff_of_false (by simp) ?_
      rintro ⟨-, all⟩
      cases all _ severe
    · rw [if_neg (fun any => severe (high.mp any))]
      refine ⟨by simp [none], by simp [severe], iff_of_true rfl ⟨none, ?_⟩⟩
      intro s mem
      rcases List.mem_pair.mp (graded s mem) with rfl | rfl
      · exact absurd mem severe
      · rfl

theorem Walk.length_run_le (w : Walk) (t : Tree) (root : Path) : (w.run t root).length ≤ w.limit.toNat := by
  cases start : t.directory? root with
  | none => simp [run, start]
  | some here =>
    obtain ⟨entries, opened⟩ := Tree.exists_entriesAt? start
    rw [run_eq_take start opened, List.length_take]
    exact Nat.min_le_left _ _

namespace Proportions

theorem measure_eq_ok_iff {t : Tree} {root : Path} {p : Proportions} :
    measure t root = .ok p ↔ root.holdsNul = false ∧ p = .ofTree t root := by
  unfold measure opening
  cases nul : root.holdsNul with
  | true => simp [nul]
  | false => simp [nul, eq_comm]

end Proportions

end CodeHygiene.Repository
