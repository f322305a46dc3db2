import CodeHygiene.CommandLine.Arguments
import CodeHygiene.Proofs.Grouping
import CodeHygiene.Report.Display
import CodeHygiene.Report.Handoff

/-!
What is written of a report.

Proved:
(1) A prompt lists findings by certainty and file, each once (`sectioned_groups`), a report for the terminal by severity
    (`grouped_bySeverity`).
(2) Each of them says that nothing was found exactly where there is neither a finding nor a violation
    (`text_eq_nothingFound_iff`, `display_eq_nothingToDisplay_iff`).
(3) So what is written holds every finding once, and of a report every violation (`every_finding_is_listed_once`).
(4) A table has a row for each of the first findings, and its note tells the others where the limit is not negative
    (`rows_and_note`).
A table under a negative limit, which the command line takes, tells too many (`negative_limit_tells_too_many`).
-/

namespace CodeHygiene.Report

/-! ## Beginnings -/

/-- Texts that differ at their beginnings. -/
theorem append_ne {start whole : String} (n : Nat) (long : n ≤ start.toList.length)
    (differ : start.toList.take n ≠ whole.toList.take n) (rest : String) : start ++ rest ≠ whole := by
  rintro rfl
  exact differ (by rw [String.toList_append, List.take_append_of_le_length long])

/-! ## Findings by severity -/

theorem grouped_bySeverity (findings : List Finding) :
    Grouped (·.severity) [.critical, .high, .medium, .low] findings (bySeverity findings) :=
  grouped_filter (by decide) fun f _ => by cases f.severity <;> decide

namespace Handoff

variable {h : Handoff} {mode : Mode}

/-! ## Findings by certainty and file -/

/-- Findings in sections: these stand in the order of certainty, none is empty, and each holds the files of the findings of
its certainty in the order of their first findings among them. No finding is left out. -/
structure Sectioned (findings : List Finding) (sections : List (Certainty × FileGroups)) : Prop where
  ordered : sections.Pairwise fun part other =>
    [Certainty.high, .medium, .low].idxOf part.1 < [Certainty.high, .medium, .low].idxOf other.1
  nonempty : ∀ part ∈ sections, part.2 ≠ []
  files : ∀ part ∈ sections,
    Grouped (·.file) ((withCertainty findings part.1).map (·.file)) (withCertainty findings part.1) part.2
  whole : (sections.flatMap fun part => part.2.flatMap Prod.snd).Perm findings

theorem grouped_groups (findings : List Finding) :
    Grouped (·.certainty) [.high, .medium, .low] findings (groups findings) :=
  grouped_filter (by decide) fun f _ => by cases f.certainty <;> decide

theorem sectioned_groups (findings : List Finding) :
    Sectioned findings ((groups findings).map fun group => (group.1, byFile group.2)) where
  ordered := List.pairwise_map.mpr (grouped_groups findings).ordered
  nonempty part mem := by
    obtain ⟨group, inside, rfl⟩ := List.mem_map.mp mem
    intro empty
    have nothing := (grouped_byFile group.2).whole
    rw [show byFile group.2 = [] from empty] at nothing
    exact (grouped_groups findings).nonempty group inside nothing.nil_eq.symm
  files part mem := by
    obtain ⟨group, inside, rfl⟩ := List.mem_map.mp mem
    have own : group.2 = withCertainty findings group.1 := (grouped_groups findings).own group inside
    rw [← own]
    exact grouped_byFile group.2
  whole := by
    rw [List.flatMap_map]
    exact (List.Perm.flatMap_left _ fun group _ => (grouped_byFile group.2).whole).trans (grouped_groups findings).whole

/-! ## Nothing found -/

theorem isEmpty_iff : h.isEmpty = true ↔ h.findings = [] ∧ h.violations = [] := by
  simp [isEmpty]

theorem compactText_ne (h : Handoff) (mode : Mode) (limit : Int) : h.compactText mode limit ≠ nothingFound := by
  unfold compactText table
  simp only [String.append_assoc]
  exact append_ne 9 (by decide +kernel) (by decide +kernel) _

theorem fullText_ne (h : Handoff) (mode : Mode) : h.fullText mode ≠ nothingFound := by
  unfold fullText
  simp only [String.append_assoc]
  exact append_ne 30 (by decide +kernel) (by decide +kernel) _

theorem text_eq_nothingFound_iff (h : Handoff) (mode : Mode) (compact : Bool) (limit : Int) :
    h.text mode compact limit = nothingFound ↔ h.findings = [] ∧ h.violations = [] := by
  rw [← isEmpty_iff, text]
  by_cases empty : h.isEmpty = true
  · simp [empty]
  · cases compact <;> simp [empty, compactText_ne, fullText_ne]

end Handoff

/-- A report with something to tell begins with a headline. -/
theorem display_ne {r : Report} (some : ¬(r.findings.isEmpty && r.violations.isEmpty) = true) :
    "\n".intercalate (displayFindings r.findings ++ displayViolations r.violations ++ [displayVerdict r]) ≠
      nothingToDisplay := by
  rcases found : r.findings with _ | ⟨f, findings⟩
  · rcases violated : r.violations with _ | ⟨v, violations⟩
    · exact absurd (by rw [found, violated]; rfl) some
    · show "\n".intercalate ("=== Repository ===" :: (_ ++ _)) ≠ _
      rw [String.intercalate_cons_of_ne_nil (by simp), String.append_assoc]
      exact append_ne 1 (by decide +kernel) (by decide +kernel) _
  · show "\n".intercalate ((_ ++ _ ++ " ===") :: _) ≠ _
    rw [String.append_assoc, String.intercalate_cons_append]
    exact append_ne 1 (by decide +kernel) (by decide +kernel) _

theorem display_eq_nothingToDisplay_iff (r : Report) :
    r.display = nothingToDisplay ↔ r.findings = [] ∧ r.violations = [] := by
  constructor
  · intro eq
    rw [display] at eq
    split at eq
    next nothing => simpa using nothing
    next some =>
      exact absurd eq (display_ne some)
  · rintro ⟨noFindings, noViolations⟩
    simp [display, noFindings, noViolations]

theorem length_rows (findings : List Finding) (limit : Int) : (rows findings limit).length =
    if limit < 0 then (findings.length + limit).toNat else min limit.toNat findings.length := by
  rw [rows, List.length_take]
  split
  next negative => exact Nat.min_eq_left (by omega)
  next => rfl

/-- What the note tells; under a negative limit, too much. -/
theorem length_rows_add_untold (findings : List Finding) (limit : Int) :
    ((rows findings limit).length : Int) + (untold? findings limit).getD 0 =
      findings.length + if limit < 0 then max (findings.length : Int) (-limit) else 0 := by
  rw [length_rows, untold?]
  by_cases negative : limit < 0
  · have fewer : limit < findings.length := by omega
    rw [if_pos negative, if_pos negative, if_pos fewer, Option.getD_some]
    omega
  · rw [if_neg negative, if_neg negative]
    by_cases fewer : limit < findings.length
    · rw [if_pos fewer, Option.getD_some]
      omega
    · rw [if_neg fewer, Option.getD_none]
      omega

/-- The table of any findings under any limit: the counts by certainty come to all findings, and so do those that can be
fixed automatically and those that cannot; the rows are those of the first findings, in their order. The rows and the number
that the note tells come to all findings exactly where the limit is not negative; under a negative one the note tells as many
too many as there are findings, or as the limit is below zero where that is more. -/
theorem rows_and_note (mode : String) (findings : List Finding) (limit : Int) :
    ∃ (shown : List Finding) (note : Option Int) (automatic manual : Nat),
      table mode findings limit =
        "## Slop: " ++ mode ++ String.join ([Certainty.high, .medium, .low].map fun c =>
            "|" ++ c.initial ++ ":" ++ Decimal.natText (findings.filter (·.certainty = c)).length) ++ "\n\n"
          ++ "|File|L|Pattern|Cert|Fix|\n|---|---|---|---|---|\n" ++ String.join (shown.map rowText)
          ++ (note.map fun n => "\n_+" ++ Decimal.intText n ++ " more findings (truncated)_\n").getD ""
          ++ "\n**Auto-fixable: " ++ Decimal.natText automatic ++ "** | Manual: " ++ Decimal.natText manual ∧
      ([Certainty.high, .medium, .low].map fun c => (findings.filter (·.certainty = c)).length).sum = findings.length ∧
      automatic = findings.countP (·.remediation.isAutomatic) ∧ automatic + manual = findings.length ∧
      shown <+: findings ∧
      (shown.length = if limit < 0 then (findings.length + limit).toNat else min limit.toNat findings.length) ∧
      (note.isSome = true ↔ limit < findings.length) ∧
      (shown.length : Int) + note.getD 0 = findings.length + (if limit < 0 then max (findings.length : Int) (-limit) else 0) ∧
      ((shown.length : Int) + note.getD 0 = findings.length ↔ 0 ≤ limit) := by
  refine ⟨rows findings limit, untold? findings limit, countAutomatic findings, countManual findings, rfl,
    sum_withCertainty findings, rfl, Nat.add_sub_of_le List.countP_le_length, List.take_prefix _ _, length_rows findings limit,
    ?_, length_rows_add_untold findings limit, ?_⟩
  · rw [untold?]
    split <;> simp_all
  · rw [length_rows_add_untold]
    by_cases negative : limit < 0
    · rw [if_pos negative]
      omega
    · rw [if_neg negative]
      omega

/-- A call that is left in a script. -/
def printed : Finding :=
  { file := "a.py", line := 1, rule := "python_debugging", severity := .medium, certainty := .high, excerpt := "print(1)",
    column := 1, remediation := .remove, description := "Debug print/breakpoint statements in production" }

/-- The command line takes a limit of less than nothing, and the note on one finding without a row tells two. -/
theorem negative_limit_tells_too_many :
    (CommandLine.Arguments.read ["--compact", "--max=-1"]).toOption.map (·.max) = some (-1) ∧
      table "report" [printed] (-1) =
        "## Slop: report|H:1|M:0|L:0\n\n|File|L|Pattern|Cert|Fix|\n|---|---|---|---|---|\n" ++
          "\n_+2 more findings (truncated)_\n\n**Auto-fixable: 1** | Manual: 0" ∧
      ((rows [printed] (-1)).length : Int) + (untold? [printed] (-1)).getD 0 ≠ [printed].length := by
  refine ⟨by decide +kernel, by decide +kernel, by decide⟩

end CodeHygiene.Report
