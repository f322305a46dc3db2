import CodeHygiene.Proofs.Grouping
import CodeHygiene.Proofs.Lookup
import CodeHygiene.Report.Basic
import Mathlib.Data.List.Sort

/-!
What a summary counts.

Proved:
(1) A sort by size leaves the items of one size in their order (`filter_mergeSort`); so items that come in some order are,
    sorted, in the order of their sizes and of one size in this order (`pairwise_mergeSort_of_pairwise`).
(2) What can be fixed automatically is counted under three remediations (`countAutomatic_eq`).
(3) The rules that are named are the first of all rules in the order of their counts, of one count in that of their first
    findings (`exists_topRules`).
(4) So a summary counts every finding once in each of its counts (`summary_conserves_findings`).
-/

namespace CodeHygiene

/-! ## Sorted by size -/

section Sorted

variable {α : Type} {size : α → Nat} {items : List α}

theorem filter_mergeSort (size : α → Nat) (items : List α) (n : Nat) :
    (items.mergeSort fun a b => size b ≤ size a).filter (fun a => size a = n) = items.filter fun a => size a = n := by
  have trans (a b c : α) (ab : decide (size b ≤ size a) = true) (bc : decide (size c ≤ size b) = true) :
      decide (size c ≤ size a) = true :=
    decide_eq_true ((of_decide_eq_true bc).trans (of_decide_eq_true ab))
  have total (a b : α) : (decide (size b ≤ size a) || decide (size a ≤ size b)) = true := by
    rcases Nat.le_total (size b) (size a) with le | le <;> simp [le]
  have tied : (items.filter fun a => size a = n).Pairwise fun a b => decide (size b ≤ size a) = true := by
    refine List.pairwise_of_forall_mem_list fun a mem b mem' => decide_eq_true (Nat.le_of_eq ?_)
    rw [of_decide_eq_true (List.mem_filter.mp mem).2, of_decide_eq_true (List.mem_filter.mp mem').2]
  have sub := (List.sublist_mergeSort trans total tied List.filter_sublist).filter fun a => size a = n
  rw [List.filter_filter, funext fun a => Bool.and_self _] at sub
  exact (sub.eq_of_length ((List.mergeSort_perm items _).filter _).length_eq.symm).symm

/-- Items that come in some order, sorted. -/
theorem pairwise_mergeSort_of_pairwise {before : α → α → Prop} (ordered : items.Pairwise before) :
    (items.mergeSort fun a b => size b ≤ size a).Pairwise fun a b =>
      size b < size a ∨ size a = size b ∧ before a b := by
  have sorted : (items.mergeSort fun a b => size b ≤ size a).Pairwise fun a b => decide (size b ≤ size a) = true := by
    refine List.pairwise_mergeSort (fun a b c ab bc => ?_) (fun a b => ?_) items
    · exact decide_eq_true ((of_decide_eq_true bc).trans (of_decide_eq_true ab))
    · rcases Nat.le_total (size b) (size a) with le | le <;> simp [le]
  rw [List.pairwise_iff_forall_sublist] at sorted ordered ⊢
  intro a b sub
  rcases Nat.lt_or_eq_of_le (of_decide_eq_true (sorted sub)) with lt | eq
  · exact .inl lt
  · -- both stand among the items of their size, which the sort leaves as they come
    have kept := sub.filter fun c => size c = size a
    rw [filter_mergeSort, List.filter_eq_self.mpr (by simp [eq])] at kept
    exact .inr ⟨eq.symm, ordered (kept.trans List.filter_sublist)⟩

end Sorted

namespace Report

variable {findings : List Finding}

/-! ## Counts -/

theorem countAutomatic_eq (findings : List Finding) : countAutomatic findings =
    findings.countP (·.remediation = .remove) + findings.countP (·.remediation = .replace) +
      findings.countP (·.remediation = .annotate) := by
  induction findings with
  | nil => rfl
  | cons f findings ih =>
    rw [countAutomatic] at ih ⊢
    rcases f with ⟨_, _, _, _, _, _, _, m, _, _⟩
    cases m <;> simp [List.countP_cons, ih, Finding.isAutomatic, Remediation.isAutomatic] <;> omega

/-- The findings of each remediation, counted by its name. -/
theorem tally_remediations (findings : List Finding) : tally (findings.map (·.remediation.text)) =
    (findings.map (·.remediation)).eraseDups.map fun m => (m.text, findings.countP (·.remediation = m)) := by
  have named : findings.map (·.remediation.text) = (findings.map (·.remediation)).map Remediation.text := by
    rw [List.map_map]
    rfl
  simp only [tally_eq, count_keys]
  rw [named, eraseDups_map Remediation.text_injective, List.map_map]
  simp only [Function.comp_def, Remediation.text_injective.eq_iff]

/-! ## Rules -/

/-- A rule has more findings than another, or as many and the first of them before. -/
def Outranks (findings : List Finding) (rule other : String) : Prop :=
  findings.countP (·.rule = other) < findings.countP (·.rule = rule) ∨
    findings.countP (·.rule = rule) = findings.countP (·.rule = other) ∧
      findings.findIdx (·.rule = rule) < findings.findIdx (·.rule = other)

theorem Outranks.le {rule other : String} (ranks : Outranks findings rule other) :
    findings.countP (·.rule = other) ≤ findings.countP (·.rule = rule) :=
  ranks.elim Nat.le_of_lt fun tied => Nat.le_of_eq tied.1.symm

theorem Outranks.irrefl {rule : String} : ¬ Outranks findings rule rule := by
  rintro (lt | ⟨-, lt⟩) <;> exact Nat.lt_irrefl _ lt

theorem exists_topRules (r : Report) : ∃ ranked : List String,
    (∀ rule, rule ∈ ranked ↔ ∃ f ∈ r.findings, f.rule = rule) ∧ ranked.Pairwise (Outranks r.findings) ∧
    r.topRules = (ranked.take topLimit).map fun rule => (rule, r.findings.countP (·.rule = rule)) := by
  have tallied : tally (r.findings.map (·.rule)) =
      (r.findings.map (·.rule)).eraseDups.map fun rule => (rule, r.findings.countP (·.rule = rule)) := by
    simp only [tally_eq, count_keys]
  refine ⟨(r.findings.map (·.rule)).eraseDups.mergeSort fun rule other =>
    r.findings.countP (·.rule = other) ≤ r.findings.countP (·.rule = rule), fun rule => ?_, ?_, ?_⟩
  · rw [List.mem_mergeSort, List.mem_eraseDups, List.mem_map]
  · refine (pairwise_mergeSort_of_pairwise (pairwise_idxOf_eraseDups (r.findings.map (·.rule)))).imp fun ranks => ?_
    simp only [idxOf_keys] at ranks
    exact ranks
  · rw [topRules, tallied, List.map_take]
    congr 1
    refine (List.map_mergeSort ?_).symm
    intro rule _ other _
    rfl

/-- A report counts every finding once by severity, once by certainty and once by remediation; it tells how many of the
findings can be fixed automatically. Its findings by certainty are all its findings, those of each certainty in their order.
The rules that it names are the first five of all rules that have findings, or all of them where they are fewer, in the
order of their counts; of one count, in the order of their first findings. -/
theorem summary_conserves_findings (r : Report) :
    ∃ (remediations : List Remediation) (ranked : List String),
      r.summary = .obj [("total", .nat r.findings.length),
        ("by_severity", .obj ([.critical, .high, .medium, .low].map fun s : Severity =>
          (s.text, .nat (r.findings.countP (·.severity = s))))),
        ("by_certainty", .obj ([.high, .medium, .low].map fun c : Certainty =>
          (c.text, .nat (r.findings.countP (·.certainty = c))))),
        ("by_remediation", .obj (remediations.map fun m => (m.text, .nat (r.findings.countP (·.remediation = m))))),
        ("auto_fixable", .nat (r.findings.countP (·.remediation = .remove) + r.findings.countP (·.remediation = .replace) +
          r.findings.countP (·.remediation = .annotate))),
        ("top_rules", .arr ((ranked.take (min 5 ranked.length)).map fun rule =>
          .obj [("rule", .str rule), ("count", .nat (r.findings.countP (·.rule = rule)))]))] ∧
      ([.critical, .high, .medium, .low].map fun s : Severity => r.findings.countP (·.severity = s)).sum = r.findings.length ∧
      ([.high, .medium, .low].map fun c : Certainty => r.findings.countP (·.certainty = c)).sum = r.findings.length ∧
      (remediations.map fun m => r.findings.countP (·.remediation = m)).sum = r.findings.length ∧
      (remediations.Nodup ∧ ∀ m, m ∈ remediations ↔ ∃ f ∈ r.findings, f.remediation = m) ∧
      (r.byCertainty = [.high, .medium, .low].map fun c => (c, r.findings.filter (·.certainty = c))) ∧
      (r.byCertainty.flatMap (·.2)).Perm r.findings ∧
      (∀ rule, rule ∈ ranked ↔ ∃ f ∈ r.findings, f.rule = rule) ∧ ranked.Nodup ∧ ranked.Pairwise (Outranks r.findings) ∧
      ∀ listed ∈ ranked.take (min 5 ranked.length), ∀ left ∈ ranked.drop (min 5 ranked.length),
        r.findings.countP (·.rule = left) ≤ r.findings.countP (·.rule = listed) := by
  obtain ⟨ranked, mem_ranked, ordered, top⟩ := exists_topRules r
  have cut : r.topRules =
      (ranked.take (min 5 ranked.length)).map fun rule => (rule, r.findings.countP (·.rule = rule)) := by
    rw [top, List.take_eq_take_min]
    rfl
  refine ⟨(r.findings.map (·.remediation)).eraseDups, ranked, ?_, ?_, ?_, ?_, ⟨nodup_eraseDups _, fun m => by simp⟩, rfl,
    ?_, mem_ranked, ?_, ordered, ?_⟩
  · simp only [summary, withSeverity, withCertainty, ← List.countP_eq_length_filter, countAutomatic_eq, tally_remediations, cut,
      List.map_map]
    rfl
  · simp only [List.countP_eq_length_filter]
    exact sum_withSeverity r.findings
  · simp only [List.countP_eq_length_filter]
    exact sum_withCertainty r.findings
  · simp only [List.countP_eq_length_filter]
    exact sum_length_filter (nodup_eraseDups _) fun f mem => List.mem_eraseDups.mpr (List.mem_map_of_mem mem)
  · rw [byCertainty, List.flatMap_map]
    exact perm_flatMap_filter (by decide) fun f _ => by cases f.certainty <;> decide
  · refine ordered.imp fun ranks => ?_
    rintro rfl
    exact Outranks.irrefl ranks
  · have split := ordered
    rw [← List.take_append_drop (min 5 ranked.length) ranked] at split
    exact fun listed mem left behind => ((List.pairwise_append.mp split).2.2 listed mem left behind).le

end Report

end CodeHygiene
