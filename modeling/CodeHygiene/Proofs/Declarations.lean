import CodeHygiene.Measure.Stub
import CodeHygiene.Proofs.Denotation

/-!
Functions with indented bodies, by the lines that declare them.

Two measures go through a text line by line and look, on each line that declares a function, at the lines below it. What
they tell of a function does not depend on the number of its line.

Proved:
(1) What is told of a text is told of each of its lines alone (`mem_numbered_iff`), so two texts of as many lines are told
    alike exactly where each line is (`numbered_inj`).
(2) A line of which nothing is told can stand between two others. The rest is told as before, by numbers one higher below
    it, exactly where it makes no difference to any line above it (`numbered_insert_iff`).
(3) Every line that looks like a declaration declares a function (`exists_declared`).
(4) Both measures are of this kind: functions by their documentation (`Documentation.indentedFunctions_eq`) and stubs
    (`Stub.indentedStubs_eq`).
-/

namespace CodeHygiene.Measure

/-! ## Lines with those below them -/

section Numbered

variable {α : Type} {f g : Line → List Line → Option α}

/-- What is told of the lines of a text, each with those below it, by their numbers. -/
def numbered (f : Line → List Line → Option α) (number : Nat) : List Line → List (Nat × α)
  | [] => []
  | line :: rest => ((f line rest).map (number, ·)).toList ++ numbered f (number + 1) rest

theorem le_of_mem_numbered {number : Nat} {lines : List Line} {e : Nat × α} (mem : e ∈ numbered f number lines) :
    number ≤ e.1 ∧ e.1 < number + lines.length := by
  induction lines generalizing number with
  | nil => cases mem
  | cons line rest ih =>
    rw [List.length_cons]
    rcases List.mem_append.mp mem with here | later
    · obtain ⟨a, -, rfl⟩ := Option.map_eq_some_iff.mp (Option.mem_toList.mp here)
      exact ⟨Nat.le_refl _, by omega⟩
    · have := ih later
      omega

/-- What is told by the number of a line is what is told of it. -/
theorem mem_numbered_iff (number : Nat) (above : List Line) (line : Line) (rest : List Line) (a : α) :
    (number + above.length, a) ∈ numbered f number (above ++ line :: rest) ↔ f line rest = some a := by
  induction above generalizing number with
  | nil =>
    rw [List.nil_append, numbered, List.mem_append, Option.mem_toList, Option.map_eq_some_iff]
    constructor
    · rintro (⟨_, told, same⟩ | later)
      · cases same
        exact told
      · exact absurd (le_of_mem_numbered later).1 (by simp)
    · exact fun told => .inl ⟨a, told, rfl⟩
  | cons first above ih =>
    have next : number + (first :: above).length = number + 1 + above.length := by rw [List.length_cons]; omega
    rw [List.cons_append, numbered, List.mem_append, Option.mem_toList, next, ih (number + 1)]
    refine or_iff_right fun here => ?_
    obtain ⟨_, -, same⟩ := Option.map_eq_some_iff.mp here
    have := congrArg Prod.fst same
    simp at this
    omega

/-- Lines are told alike together exactly where each is told alike. -/
theorem numbered_inj {number : Nat} {lines : List Line} : numbered f number lines = numbered g number lines ↔
    ∀ above line rest, lines = above ++ line :: rest → f line rest = g line rest := by
  constructor
  · rintro same above line rest rfl
    refine Option.ext fun a => ?_
    rw [← mem_numbered_iff number above, same, mem_numbered_iff]
  · intro each
    induction lines generalizing number with
    | nil => rfl
    | cons line rest ih =>
      rw [numbered, numbered, each [] line rest rfl, ih fun above other rest' eq => each (line :: above) other rest' (by rw [eq]; rfl)]

theorem numbered_append (number : Nat) (above below : List Line) : numbered f number (above ++ below) =
    numbered (fun line rest => f line (rest ++ below)) number above ++ numbered f (number + above.length) below := by
  induction above generalizing number with
  | nil => rfl
  | cons line rest ih =>
    rw [List.cons_append, numbered, numbered, ih, List.length_cons, List.append_assoc, Nat.add_assoc, Nat.add_comm 1]

/-- What is told by numbers from `k` on is told by the next ones. -/
def shiftFrom (k : Nat) (e : Nat × α) : Nat × α := (if k ≤ e.1 then e.1 + 1 else e.1, e.2)

theorem map_shiftFrom_numbered {k number : Nat} (le : k ≤ number) (lines : List Line) :
    (numbered f number lines).map (shiftFrom k) = numbered f (number + 1) lines := by
  induction lines generalizing number with
  | nil => rfl
  | cons line rest ih =>
    have here : ((f line rest).map (number, ·)).toList.map (shiftFrom k) = ((f line rest).map (number + 1, ·)).toList := by
      cases f line rest <;> simp [shiftFrom, le]
    rw [numbered, numbered, List.map_append, here, ih (Nat.le_succ_of_le le)]

/-- A line of which nothing is told makes no difference exactly where it makes none to any line above it. -/
theorem numbered_insert_iff (number : Nat) (before after : List Line) {line : Line} (silent : f line after = none) :
    numbered f number (before ++ line :: after) =
        (numbered f number (before ++ after)).map (shiftFrom (before.length + number)) ↔
      ∀ above first front, before = above ++ first :: front → f first (front ++ line :: after) = f first (front ++ after) := by
  have above : (numbered (fun first front => f first (front ++ after)) number before).map (shiftFrom (before.length + number)) =
      numbered (fun first front => f first (front ++ after)) number before := by
    refine (List.map_congr_left fun e mem => ?_).trans (List.map_id _)
    have := (le_of_mem_numbered mem).2
    rw [shiftFrom, if_neg (by omega)]
    rfl
  have below : numbered f (number + before.length) (line :: after) =
      (numbered f (number + before.length) after).map (shiftFrom (before.length + number)) := by
    rw [map_shiftFrom_numbered (Nat.le_of_eq (Nat.add_comm _ _)), numbered, silent]
    rfl
  rw [numbered_append, numbered_append, List.map_append, above, below, List.append_left_inj, numbered_inj]

end Numbered

namespace Documentation

/-! ## Declarations -/

/-- The indentation and the name of the function that a line declares. -/
def declared? (line : Line) : Option (Nat × String) := do
  let h ← defPattern.atStart? line
  let indent ← h.groupText? line 1
  let name ← h.groupText? line 2
  return (indent.length, String.ofList name)

theorem defPattern_binds :
    Regex.bindsGroup 1 defPattern.node = true ∧ Regex.bindsGroup 2 defPattern.node = true := by decide +kernel

/-- Every line that looks like a declaration has both. -/
theorem exists_declared {line : Line} (declares : (defPattern.atStart? line).isSome = true) :
    ∃ indent name, declared? line = some (indent, name) := by
  obtain ⟨h, found⟩ := Option.isSome_iff_exists.mp declares
  have group {n : Nat} (binds : Regex.bindsGroup n defPattern.node = true) : ∃ text, h.groupText? line n = some text := by
    obtain ⟨p, q, -, -, mem, rfl⟩ := Regex.matches_of_atStart? found
    obtain ⟨span, has⟩ := Option.isSome_iff_exists.mp (Regex.isSome_lookup_of_mem binds mem)
    exact ⟨_, Option.map_eq_some_iff.mpr ⟨span, has, rfl⟩⟩
  obtain ⟨indent, one⟩ := group defPattern_binds.1
  obtain ⟨name, other⟩ := group defPattern_binds.2
  refine ⟨indent.length, String.ofList name, ?_⟩
  simp only [declared?, found, one, other, Option.bind_eq_bind, Option.bind_some]
  rfl

end Documentation

/-- What is measured of the function that a line declares, by its indentation and the lines below it, with its name. -/
def told {α : Type} (measure? : Nat → List Line → Option α) (line : Line) (rest : List Line) : Option (String × α) :=
  (Documentation.declared? line).bind fun d => (measure? d.1 rest).map fun m => (d.2, m)

/-! ## Documentation -/

namespace Documentation

/-- The two counts of a function: none without a docstring. -/
def counted? (indent : Nat) (rest : List Line) : Option (Nat × Nat) :=
  if (docstring rest).1 = 0 then none else some ((docstring rest).1, countCode indent (docstring rest).2)

def Documented.ofTold (e : Nat × String × Nat × Nat) : Documented := ⟨e.1, e.2.1, e.2.2.1, e.2.2.2⟩

theorem Documented.ofTold_injective : Function.Injective Documented.ofTold := by
  rintro ⟨line, name, doc, code⟩ ⟨line', name', doc', code'⟩ same
  cases same
  rfl

theorem documentedOn?_eq (number : Nat) (line : Line) (rest : List Line) :
    documentedOn? number line rest = (told counted? line rest).map fun t => .ofTold (number, t) := by
  cases found : defPattern.atStart? line with
  | none => simp [documentedOn?, told, declared?, found]
  | some h =>
    cases one : h.groupText? line 1 with
    | none => simp [documentedOn?, told, declared?, found, one]
    | some indent =>
      cases other : h.groupText? line 2 with
      | none => simp [documentedOn?, told, declared?, found, one, other]
      | some name =>
        by_cases none : (docstring rest).1 = 0 <;>
          simp [documentedOn?, told, declared?, found, one, other, counted?, none, Documented.ofTold]

theorem indentedFunctions_eq (number : Nat) (lines : List Line) :
    indentedFunctions number lines = (numbered (told counted?) number lines).map Documented.ofTold := by
  induction lines generalizing number with
  | nil => rfl
  | cons line rest ih =>
    have here : (documentedOn? number line rest).toList =
        ((told counted? line rest).map (number, ·)).toList.map Documented.ofTold := by
      rw [documentedOn?_eq]
      cases told counted? line rest <;> rfl
    rw [indentedFunctions, numbered, List.map_append, here, ih]

theorem functions_eq_of_lines {content : List Char} {lines : List Line} (eq : Text.lines content = lines) :
    functions .python content = (numbered (told counted?) 1 lines).map Documented.ofTold := by
  rw [← eq]
  exact indentedFunctions_eq 1 _

end Documentation

/-! ## Stubs -/

namespace Stub

/-- What a body of one line returns, with the line, where that is a placeholder. -/
def placeholder? : List Line → Option (String × String)
  | [only] => (indentedReturned? only).map fun returned => (returned, String.ofList only)
  | _ => none

/-- What the body below a declaration returns, where it is a placeholder. -/
def returned? (indent : Nat) (rest : List Line) : Option (String × String) := placeholder? (indentedBody indent none rest)

/-- What is reported of a stub apart from whether work is left. -/
def unmarked (v : Violation) : Violation :=
  { v with severity := .medium, details := v.details.filter fun e => e.1 ≠ "has_todo" }

/-- The same, by what is told of the stub. -/
def report (e : Nat × String × String × String) : Violation :=
  { type := "stub_function"
    value := "def " ++ e.2.1 ++ "(): " ++ e.2.2.2
    threshold := "1 significant line"
    severity := .medium
    details := [("function_name", .str e.2.1), ("return_value", .str e.2.2.1)]
    line := some (Int.ofNat e.1) }

theorem stubOn?_eq (number : Nat) (line : Line) (rest : List Line) :
    (stubOn? number line rest).map (fun s => unmarked (s.1.toViolation ("def " ++ s.1.name ++ "(): " ++ s.2))) =
      (told returned? line rest).map fun t => report (number, t) := by
  cases found : Documentation.defPattern.atStart? line with
  | none => simp [stubOn?, told, returned?, Documentation.declared?, found]
  | some h =>
    cases one : h.groupText? line 1 with
    | none => simp [stubOn?, told, returned?, Documentation.declared?, found, one]
    | some indent =>
      cases other : h.groupText? line 2 with
      | none => simp [stubOn?, told, returned?, Documentation.declared?, found, one, other]
      | some name =>
        simp only [stubOn?, told, returned?, Documentation.declared?, found, one, other, Option.bind_eq_bind, Option.bind_some,
          Option.pure_def]
        rcases indentedBody indent.length none rest with _ | ⟨only, _ | ⟨second, more⟩⟩
        · rfl
        · cases returned : indentedReturned? only <;> simp [placeholder?, returned, unmarked, toViolation, report]
        · rfl

theorem indentedStubs_eq (number : Nat) (lines : List Line) :
    (indentedStubs number lines).map (fun s => unmarked (s.1.toViolation ("def " ++ s.1.name ++ "(): " ++ s.2))) =
      (numbered (told returned?) number lines).map report := by
  induction lines generalizing number with
  | nil => rfl
  | cons line rest ih =>
    have here := congrArg Option.toList (stubOn?_eq number line rest)
    rw [Option.toList_map, Option.toList_map] at here
    rw [indentedStubs, numbered, List.map_append, List.map_append, ih, here]
    cases told returned? line rest <;> rfl

end Stub

end CodeHygiene.Measure
