import CodeHygiene.Regex.Search

/-!
When a search finds something.

Proved:
(1) A greedy or lazy run without an upper bound matches wherever the text goes on with enough characters
    of its set (`runEnds_ne_nil`).
(2) A search finds a match as soon as the expression matches at some place (`firstFrom_isSome_of_ends`),
    whatever stands before that place (`firstFrom_isSome`).
(3) There is a match among all of them exactly when a search finds one (`all_ne_nil_iff`).
-/

namespace CodeHygiene.Regex

/-! ## Places -/

theorem ends_one (c : Char) (before : Option Char) (offset : Nat) (rest : List Char) (groups : List (Nat × Span)) :
    ends (.set (.one c)) ⟨before, offset, c :: rest, groups⟩ = [⟨some c, offset + 1, rest, groups⟩] := by
  simp [ends, CharSet.contains_one]

theorem ends_seq_of_singleton {first second : Node} {p q : Place} (h : ends first p = [q]) :
    ends (.seq first second) p = ends second q := by
  rw [ends, h, List.flatMap_cons, List.flatMap_nil, List.append_nil]

theorem runEnds_ne_nil {s : CharSet} {groups : List (Nat × Span)} {least : Nat} {before : Option Char} {offset : Nat}
    {rest : List Char} (enough : least ≤ (rest.takeWhile s.contains).length) :
    runEnds s groups least none before offset rest ≠ [] := by
  induction rest generalizing least before offset with
  | nil =>
    have zero : least = 0 := by simpa using enough
    simp [runEnds, zero]
  | cons c more ih =>
    by_cases zero : least = 0
    · rw [runEnds, zero]
      split <;> simp
    · by_cases mem : s.contains c = true
      · rw [List.takeWhile_cons_of_pos mem, List.length_cons] at enough
        have fewer : least - 1 ≤ (more.takeWhile s.contains).length := by omega
        simpa [runEnds, zero, mem] using ih fewer
      · rw [List.takeWhile_cons_of_neg mem] at enough
        exact absurd (Nat.le_zero.mp enough) zero

theorem ends_run_ne_nil {s : CharSet} {least : Nat} {isLazy : Bool} {p : Place}
    (enough : least ≤ (p.rest.takeWhile s.contains).length) : ends (.run s least none isLazy) p ≠ [] := by
  have places : runEnds s p.groups least none p.before p.offset p.rest ≠ [] := runEnds_ne_nil enough
  cases isLazy <;> simpa [ends] using places

/-! ## Searches -/

variable {node : Node}

theorem matchAt?_isSome {p : Place} (h : ends node p ≠ []) : (matchAt? node false p).isSome := by
  obtain ⟨q, more, eq⟩ := List.exists_cons_of_ne_nil h
  simp [matchAt?, eq]

theorem firstFrom_isSome_of_ends {rest : List Char} (passed : List Char) {before : Option Char} {offset : Nat}
    (h : ends node ⟨passed.getLast?.or before, offset + passed.length, rest, []⟩ ≠ []) :
    (firstFrom node false before offset (passed ++ rest)).isSome := by
  induction passed generalizing before offset with
  | nil =>
    have here := matchAt?_isSome h
    cases rest with
    | nil => simpa [firstFrom] using here
    | cons c more =>
      obtain ⟨hit, eq⟩ := Option.isSome_iff_exists.mp here
      have eq : matchAt? node false ⟨before, offset, c :: more, []⟩ = some hit := eq
      simp [firstFrom, eq]
  | cons c more ih =>
    rw [List.cons_append, firstFrom]
    cases matchAt? node false ⟨before, offset, c :: (more ++ rest), []⟩ with
    | some hit => rfl
    | none =>
      refine ih ?_
      have last : (c :: more).getLast?.or before = more.getLast?.or (some c) := by
        rw [List.getLast?_cons]
        cases more.getLast? <;> rfl
      rwa [last, List.length_cons, Nat.add_comm more.length, ← Nat.add_assoc] at h

theorem firstFrom_isSome {rest : List Char} (h : ∀ before offset, ends node ⟨before, offset, rest, []⟩ ≠ [])
    (passed : List Char) (before : Option Char) (offset : Nat) :
    (firstFrom node false before offset (passed ++ rest)).isSome := firstFrom_isSome_of_ends passed (h _ _)

theorem all_ne_nil_iff (r : Regex) (text : List Char) : r.all text ≠ [] ↔ r.occursIn text = true := by
  simp only [all, occursIn, search?, allFrom, startOf, Option.isSome_map]
  cases firstFrom r.node false none 0 text <;> simp

end CodeHygiene.Regex
