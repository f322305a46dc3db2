import CodeHygiene.Proofs.Registry
import Mathlib.Data.List.Nodup

/-!
A look-up through the indices against one pass through the table.

Proved:
(1) Under a key of an index stand the rules with this key, in the order of the table
    (`bucket_indexBy`).
(2) Where no two rules have one name, a name stands under a key exactly when its rule has the key
    (`admits_indexBy`).
(3) A table is taken exactly when no two of its rules have one name (`repeated?_eq_none_iff`); a table that
    is refused is reported by the first rule whose name is that of an earlier one
    (`exists_of_repeated?_eq_some`).
(4) So a table is refused or has a registry, and a look-up in a registry finds what one pass through the
    table finds, whichever index it starts from (`registry_is_table`).
-/

namespace CodeHygiene

/-! ## Grades by name -/

theorem Severity.text_injective : Function.Injective text := by
  have reads : ofText? ∘ text = some := funext ofText?_text
  refine Function.Injective.of_comp (f := ofText?) ?_
  rw [reads]
  exact fun _ _ => Option.some.inj

theorem Remediation.text_injective : Function.Injective text := by
  have reads : ofText? ∘ text = some := funext ofText?_text
  refine Function.Injective.of_comp (f := ofText?) ?_
  rw [reads]
  exact fun _ _ => Option.some.inj

namespace Asked

variable {γ : Type} [DecidableEq γ]

/-- Whether a rule's own grade is the one that is asked for: the same grade, or one of this name. -/
def isMetBy (write : γ → String) (own : γ) : Asked γ → Bool
  | .grade g => own = g
  | .name s => write own = s

theorem isMetBy_eq {write : γ → String} (injective : Function.Injective write) (own : γ) (a : Asked γ) :
    a.isMetBy write own = decide (write own = a.text write) := by
  cases a with
  | grade g => exact decide_eq_decide.mpr injective.eq_iff.symm
  | name s => rfl

end Asked

namespace Query

/-- Whether a rule of a table meets a query. A language that no rule has stands for the reserved tag. -/
def isMetBy (q : Query) (rules : List Rule) (r : Rule) : Bool :=
  (q.language.all fun tag =>
    r.language = none || r.language = some (if rules.any (·.language = some tag) then tag else universalTag)) &&
  q.severity.all (Asked.isMetBy Severity.text r.severity) &&
  q.remediation.all (Asked.isMetBy Remediation.text r.remediation)

end Query

namespace Registry

/-! ## The indices by grade -/

theorem bucket_add (x : RuleIndex) (key k : String) (rule : Rule) :
    (x.add key rule).bucket k = x.bucket k ++ if k = key then [rule] else [] := by
  rw [RuleIndex.bucket, RuleIndex.bucket?_add, RuleIndex.bucket]
  by_cases h : k = key
  · subst h
    simp
  · simp [h]

theorem bucket_foldl_add (key : Rule → String) (rules : List Rule) (x : RuleIndex) (k : String) :
    (rules.foldl (fun x r => x.add (key r) r) x).bucket k = x.bucket k ++ rules.filter (key · = k) := by
  induction rules generalizing x with
  | nil => simp
  | cons r rest ih =>
    rw [List.foldl_cons, ih, bucket_add, List.append_assoc]
    by_cases h : key r = k
    · simp [h]
    · have other : k ≠ key r := Ne.symm h
      simp [h, other]

theorem bucket_indexBy (key : Rule → String) (rules : List Rule) (k : String) :
    (indexBy key rules).bucket k = rules.filter (key · = k) := by
  rw [indexBy, bucket_foldl_add]
  rfl

theorem admits_indexBy {rules : List Rule} (distinct : (rules.map Rule.name).Nodup) (key : Rule → String)
    (asked : Option String) {r : Rule} (mem : r ∈ rules) :
    (indexBy key rules).admits asked r = asked.all fun k => decide (key r = k) := by
  cases asked with
  | none => rfl
  | some k =>
    simp only [RuleIndex.admits, Option.all_some, bucket_indexBy]
    rw [Bool.eq_iff_iff, List.any_eq_true, decide_eq_true_iff]
    constructor
    · rintro ⟨r', mem', same⟩
      obtain ⟨inside, keyed⟩ := List.mem_filter.mp mem'
      -- The rule with this name is `r` itself.
      have eq : r' = r := List.inj_on_of_nodup_map distinct inside mem (eq_of_beq same)
      rw [← eq]
      exact of_decide_eq_true keyed
    · intro keyed
      exact ⟨r, List.mem_filter.mpr ⟨mem, decide_eq_true keyed⟩, beq_self_eq_true r.name⟩

/-! ## Names -/

theorem repeated?_eq_none_iff {rules : List Rule} {seen : List String} :
    repeated? seen rules = none ↔ (rules.map Rule.name).Nodup ∧ ∀ r ∈ rules, r.name ∉ seen := by
  induction rules generalizing seen with
  | nil => simp [repeated?]
  | cons r rest ih =>
    rw [repeated?, List.map_cons, List.nodup_cons, List.forall_mem_cons]
    by_cases known : r.name ∈ seen
    · simp [known]
    · have fresh : ¬seen.contains r.name = true := by simpa using known
      rw [if_neg fresh, ih]
      simp only [List.mem_cons, not_or, List.mem_map, not_exists, not_and]
      constructor
      · rintro ⟨distinct, later⟩
        exact ⟨⟨fun r' mem => (later r' mem).1, distinct⟩, known, fun r' mem => (later r' mem).2⟩
      · rintro ⟨⟨other, distinct⟩, -, unseen⟩
        exact ⟨distinct, fun r' mem => ⟨other r' mem, unseen r' mem⟩⟩

theorem exists_of_repeated?_eq_some {rules : List Rule} {seen : List String} {name : String}
    (h : repeated? seen rules = some name) :
    ∃ before r after, rules = before ++ r :: after ∧ r.name = name ∧ repeated? seen before = none ∧
      (name ∈ seen ∨ name ∈ before.map Rule.name) := by
  induction rules generalizing seen with
  | nil => cases h
  | cons r rest ih =>
    rw [repeated?] at h
    by_cases known : seen.contains r.name = true
    · rw [if_pos known, Option.some_inj] at h
      subst h
      exact ⟨[], r, rest, rfl, rfl, rfl, .inl (by simpa using known)⟩
    · rw [if_neg known] at h
      obtain ⟨before, r', after, rfl, named, passed, earlier⟩ := ih h
      refine ⟨r :: before, r', after, rfl, named, by rw [repeated?, if_neg known, passed], ?_⟩
      rw [List.map_cons, List.mem_cons]
      rcases earlier with here | there
      · rcases List.mem_cons.mp here with eq | old
        · exact .inr (.inl eq)
        · exact .inl old
      · exact .inr (.inr there)

theorem ofRules_eq_ok_iff {rules : List Rule} {registry : Registry} :
    ofRules rules = .ok registry ↔ (rules.map Rule.name).Nodup ∧ registry = indexed rules := by
  have taken : repeated? [] rules = none ↔ (rules.map Rule.name).Nodup := by simp [repeated?_eq_none_iff]
  rw [ofRules, ← taken]
  cases repeated? [] rules with
  | none => simp [eq_comm]
  | some name => simp

/-! ## Looking up -/

theorem standsUnder_tagUnder (rules : List Rule) (tag : String) (r : Rule) :
    standsUnder (tagUnder rules tag) r =
      (decide (r.language = none) ||
        decide (r.language = some (if rules.any (·.language = some tag) then tag else universalTag))) := by
  have tags : tagUnder rules tag = if rules.any (·.language = some tag) then tag else universalTag := by
    rw [tagUnder, knows]
    by_cases reserved : tag = universalTag
    · simp [reserved]
    · simp [reserved]
  rw [tags, standsUnder]
  cases r.language <;> simp

/-- The rules under the first criterion, as far as the others admit them, are those that meet all three. -/
theorem lookup_indexed {rules : List Rule} (distinct : (rules.map Rule.name).Nodup) (c : Criteria) :
    (indexed rules).lookup c = rules.filter fun r =>
      (c.language.all fun tag => standsUnder (tagUnder rules tag) r) &&
        ((c.severity.all fun k => decide (r.severity.text = k)) &&
          c.remediation.all fun k => decide (r.remediation.text = k)) := by
  have graded : ∀ asked, ∀ r ∈ rules, (indexed rules).bySeverity.admits asked r =
      asked.all fun k => decide (r.severity.text = k) := fun asked r mem =>
    admits_indexBy distinct (·.severity.text) asked mem
  have remedied : ∀ asked, ∀ r ∈ rules, (indexed rules).byRemediation.admits asked r =
      asked.all fun k => decide (r.remediation.text = k) := fun asked r mem =>
    admits_indexBy distinct (·.remediation.text) asked mem
  obtain ⟨language, severity, remediation⟩ := c
  cases language with
  | some tag =>
    have under := lookup_language rules tag
    simp only [lookup, RuleIndex.admits, Option.all_none, Bool.and_self, List.filter_true] at under
    rw [lookup, under, List.filter_filter]
    refine List.filter_congr fun r mem => ?_
    rw [graded severity r mem, remedied remediation r mem, Bool.and_comm]
    rfl
  | none =>
    cases severity with
    | some k =>
      have bucket : (indexed rules).bySeverity.bucket k = rules.filter (·.severity.text = k) := bucket_indexBy _ rules k
      rw [lookup, bucket, List.filter_filter]
      refine List.filter_congr fun r mem => ?_
      rw [remedied remediation r mem, Bool.and_comm]
      rfl
    | none =>
      cases remediation with
      | some k =>
        rw [lookup]
        exact bucket_indexBy _ rules k
      | none =>
        rw [lookup]
        exact (List.filter_eq_self.mpr fun _ _ => rfl).symm

theorem ask_indexed {rules : List Rule} (distinct : (rules.map Rule.name).Nodup) (q : Query) :
    (indexed rules).ask q = rules.filter (q.isMetBy rules) := by
  rw [ask, lookup_indexed distinct]
  refine List.filter_congr fun r _ => ?_
  simp only [Query.isMetBy, Query.criteria, standsUnder_tagUnder, Option.all_map, Bool.and_assoc]
  congr 1
  congr 1
  · congr 1
    funext a
    exact (Asked.isMetBy_eq Severity.text_injective r.severity a).symm
  · congr 1
    funext a
    exact (Asked.isMetBy_eq Remediation.text_injective r.remediation a).symm

/-- A table is refused by the first rule that has the name of an earlier one, and taken when there is none.
What a registry answers, whatever is asked and in whichever form, is the part of the table that meets the
query, in its order. -/
theorem registry_is_table (rules : List Rule) :
    match ofRules rules with
    | .error fault => ∃ before r after, rules = before ++ r :: after ∧ (before.map Rule.name).Nodup ∧
        r.name ∈ before.map Rule.name ∧ fault = .duplicate r.name
    | .ok registry => (rules.map Rule.name).Nodup ∧ registry.rules = rules ∧
        ∀ q : Query, registry.ask q = rules.filter (q.isMetBy rules) := by
  cases made : ofRules rules with
  | error fault =>
    rw [ofRules] at made
    cases again : repeated? [] rules with
    | none => rw [again] at made; cases made
    | some name =>
      rw [again] at made
      cases made
      obtain ⟨before, r, after, split, rfl, passed, earlier⟩ := exists_of_repeated?_eq_some again
      refine ⟨before, r, after, split, (repeated?_eq_none_iff.mp passed).1, ?_, rfl⟩
      rcases earlier with seen | there
      · cases seen
      · exact there
  | ok registry =>
    obtain ⟨distinct, rfl⟩ := ofRules_eq_ok_iff.mp made
    exact ⟨distinct, rfl, ask_indexed distinct⟩

end Registry

end CodeHygiene
