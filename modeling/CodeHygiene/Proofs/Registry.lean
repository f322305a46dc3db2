import CodeHygiene.Rule.Registry

/-!
The index by language against the table it was made from.

Proved:
(1) A rule is added under its key alone (`bucket?_add`), or under every key that is there
    (`bucket?_addToAll`).
(2) The rules under a language that the table knows are those of that language and those for every
    language, in the order of the table (`bucket?_indexByLanguage`).
(3) What is looked up for a language is that, and the rules for every language where the table does not
    know it (`lookup_language`).
-/

namespace CodeHygiene

namespace RuleIndex

/-! ## Adding a rule -/

theorem bucket?_add (x : RuleIndex) (key k : String) (rule : Rule) :
    (x.add key rule).bucket? k = if k = key then some ((x.bucket? key).getD [] ++ [rule]) else x.bucket? k := by
  induction x with
  | nil =>
    by_cases h : k = key
    · simp [add, bucket?, h]
    · simp [add, bucket?, List.lookup_cons, beq_eq_false_iff_ne.mpr h, h]
  | cons entry rest ih =>
    obtain ⟨name, rules⟩ := entry
    simp only [bucket?] at ih
    by_cases here : name = key
    · subst here
      by_cases h : k = name
      · simp [add, bucket?, h]
      · simp [add, bucket?, List.lookup_cons, beq_eq_false_iff_ne.mpr h, h]
    · by_cases h : k = name
      · subst h
        simp [add, bucket?, here]
      · have other : key ≠ name := Ne.symm here
        simp only [add, here, if_false, bucket?, List.lookup_cons, beq_eq_false_iff_ne.mpr h,
          beq_eq_false_iff_ne.mpr other]
        exact ih

theorem bucket?_addToAll (x : RuleIndex) (rule : Rule) (k : String) :
    (x.addToAll rule).bucket? k = (x.bucket? k).map (· ++ [rule]) := by
  induction x with
  | nil => rfl
  | cons entry rest ih =>
    obtain ⟨name, rules⟩ := entry
    simp only [bucket?, addToAll] at ih ⊢
    by_cases h : k = name
    · simp [h]
    · simp only [List.map_cons, List.lookup_cons, beq_eq_false_iff_ne.mpr h]
      exact ih

theorem mem_keys_add (x : RuleIndex) (key k : String) (rule : Rule) :
    k ∈ (x.add key rule).keys ↔ k ∈ x.keys ∨ k = key := by
  induction x with
  | nil => simp [add, keys]
  | cons entry rest ih =>
    obtain ⟨name, rules⟩ := entry
    simp only [keys] at ih
    by_cases here : name = key
    · simp only [add, here, if_true, keys, List.map_cons, List.mem_cons]
      constructor
      · exact Or.inl
      · rintro (mem | rfl)
        · exact mem
        · exact Or.inl rfl
    · simp only [add, here, if_false, keys, List.map_cons, List.mem_cons, ih, or_assoc]

end RuleIndex

namespace Registry

/-! ## The index by language -/

/-- Whether a rule stands under a tag. -/
def standsUnder (tag : String) (r : Rule) : Bool := r.language.all (· = tag)

/-- Puts a rule where it belongs. -/
def place (x : RuleIndex) (r : Rule) : RuleIndex :=
  match r.language with
  | none => x.addToAll r
  | some l => x.add l r

theorem bucket?_place (x : RuleIndex) (r : Rule) (tag : String)
    (known : ∀ l, r.language = some l → (x.bucket? l).isSome) :
    (place x r).bucket? tag = (x.bucket? tag).map (· ++ [r].filter (standsUnder tag)) := by
  rw [place]
  cases own : r.language with
  | none => simp [RuleIndex.bucket?_addToAll, standsUnder, own]
  | some l =>
    dsimp only
    rw [RuleIndex.bucket?_add]
    by_cases h : tag = l
    · subst h
      obtain ⟨rules, there⟩ := Option.isSome_iff_exists.mp (known tag own)
      simp [standsUnder, own, there]
    · have other : l ≠ tag := Ne.symm h
      simp [standsUnder, own, h, other]

theorem bucket?_foldl_place (rules : List Rule) (x : RuleIndex) (tag : String)
    (known : ∀ r ∈ rules, ∀ l, r.language = some l → (x.bucket? l).isSome) :
    (rules.foldl place x).bucket? tag = (x.bucket? tag).map (· ++ rules.filter (standsUnder tag)) := by
  induction rules generalizing x with
  | nil => simp
  | cons r rest ih =>
    obtain ⟨here, others⟩ := List.forall_mem_cons.mp known
    have still : ∀ r' ∈ rest, ∀ l, r'.language = some l → ((place x r).bucket? l).isSome := by
      intro r' mem l own
      rw [bucket?_place x r l here, Option.isSome_map]
      exact others r' mem l own
    rw [List.foldl_cons, ih (place x r) still, bucket?_place x r tag here, Option.map_map]
    congr 1
    funext before
    rw [show (r :: rest) = [r] ++ rest from rfl, List.filter_append, Function.comp, List.append_assoc]

theorem mem_keys_indexTagged (rules : List Rule) (tag : String) :
    tag ∈ (indexTagged rules).keys ↔ ∃ r ∈ rules, r.language = some tag := by
  have fold : ∀ (rules : List Rule) (x : RuleIndex),
      tag ∈ (rules.foldl (fun x r => match r.language with | none => x | some l => x.add l r) x).keys ↔
        tag ∈ x.keys ∨ ∃ r ∈ rules, r.language = some tag := by
    intro rules
    induction rules with
    | nil => simp
    | cons r rest ih =>
      intro x
      rw [List.foldl_cons, ih]
      cases own : r.language with
      | none => simp [own]
      | some l => simp [own, RuleIndex.mem_keys_add, or_assoc, eq_comm]
  exact (fold rules []).trans (by simp [RuleIndex.keys])

theorem bucket?_emptyIndex (keys : List String) (tag : String) :
    (emptyIndex keys).bucket? tag = if tag ∈ keys then some [] else none := by
  induction keys with
  | nil => rfl
  | cons key rest ih =>
    simp only [emptyIndex, RuleIndex.bucket?] at ih ⊢
    by_cases h : tag = key
    · simp [h]
    · simp only [List.map_cons, List.lookup_cons, beq_eq_false_iff_ne.mpr h, ih, List.mem_cons, h, false_or]

/-- Whether rules may be looked up by a tag. -/
def knows (rules : List Rule) (tag : String) : Bool := tag = universalTag || rules.any (·.language = some tag)

theorem bucket?_indexByLanguage (rules : List Rule) (tag : String) :
    (indexByLanguage rules).bucket? tag = if knows rules tag then some (rules.filter (standsUnder tag)) else none := by
  have keys : ∀ tag, (emptyIndex (universalTag :: (indexTagged rules).keys.filter (· ≠ universalTag))).bucket? tag =
      if knows rules tag then some [] else none := by
    intro tag
    rw [bucket?_emptyIndex]
    congr 1
    simp only [knows, List.mem_cons, List.mem_filter, mem_keys_indexTagged, decide_not, Bool.not_eq_true',
      decide_eq_false_iff_not, Bool.or_eq_true, decide_eq_true_eq, List.any_eq_true, eq_iff_iff]
    by_cases h : tag = universalTag <;> simp [h]
  have known : ∀ r ∈ rules, ∀ l, r.language = some l →
      ((emptyIndex (universalTag :: (indexTagged rules).keys.filter (· ≠ universalTag))).bucket? l).isSome := by
    intro r mem l own
    have there : knows rules l = true := by
      simp only [knows, Bool.or_eq_true, List.any_eq_true, decide_eq_true_eq]
      exact .inr ⟨r, mem, own⟩
    rw [keys, if_pos there]
    rfl
  have folded := bucket?_foldl_place rules _ tag known
  rw [keys] at folded
  refine folded.trans ?_
  split <;> simp

/-! ## Looking up -/

/-- The tag that stands for one that the table does not know. -/
def tagUnder (rules : List Rule) (tag : String) : String := if knows rules tag then tag else universalTag

theorem lookup_language (rules : List Rule) (tag : String) :
    (indexed rules).lookup { language := some tag } = rules.filter (standsUnder (tagUnder rules tag)) := by
  have all : ∀ x : RuleIndex, ∀ r, x.admits none r = true := fun _ _ => rfl
  have whole : ∀ rules : List Rule, rules.filter (fun _ => true) = rules := fun rules => List.filter_eq_self.mpr (by simp)
  have base : knows rules universalTag = true := by simp [knows]
  simp only [lookup, all, Bool.and_self, whole, forLanguage, universal, RuleIndex.bucket, indexed,
    bucket?_indexByLanguage, tagUnder]
  by_cases h : knows rules tag <;> simp [h, base]

theorem mem_of_mem_lookup {rules : List Rule} {tag : String} {r : Rule}
    (h : r ∈ (indexed rules).lookup { language := some tag }) : r ∈ rules := by
  rw [lookup_language] at h
  exact (List.mem_filter.mp h).1

/-- A rule for every language is looked up whatever the language. -/
theorem mem_lookup_of_isUniversal {rules : List Rule} {r : Rule} (mem : r ∈ rules) (universal : r.isUniversal = true)
    (tag : String) : r ∈ (indexed rules).lookup { language := some tag } := by
  rw [lookup_language]
  refine List.mem_filter.mpr ⟨mem, ?_⟩
  rw [Rule.isUniversal, Option.isNone_iff_eq_none] at universal
  simp [standsUnder, universal]

end Registry

end CodeHygiene
