import CodeHygiene.Proofs.Matching
import CodeHygiene.Proofs.Regex

/-!
All matches of an expression whose matches are tried from the longest to the shortest.

Proved:
(1) Each match that is found is the longest at its place (`head?_of_mem_all`).
(2) The matches come in order and do not overlap; one that is empty is alone at its place (`pairwise_all`).
(3) No place is passed over: where the expression matches, and no match that was found before reaches over the place, one
    is found (`exists_mem_all`).
-/

namespace CodeHygiene.Regex

variable {node : Node} {text : List Char} {nonEmpty : Bool} {p q : Place} {h : Hit}

/-- The places where a match can end are tried from the last to the first. -/
def LongestFirst (node : Node) : Prop := ∀ p, (ends node p).Pairwise fun q r => r.offset ≤ q.offset

/-! ## One match -/

theorem LongestFirst.le_of_head? (longest : LongestFirst node) (first : (ends node p).head? = some q) {r : Place}
    (mem : r ∈ ends node p) : r.offset ≤ q.offset := by
  obtain ⟨rest, eq⟩ := List.head?_eq_some_iff.mp first
  have order := longest p
  rw [eq, List.pairwise_cons] at order
  rw [eq] at mem
  rcases List.mem_cons.mp mem with rfl | later
  · exact Nat.le_refl _
  · exact order.1 r later

/-- The match at a place is the longest, unless it is empty and is asked to take a character. -/
theorem LongestFirst.matchAt?_eq (longest : LongestFirst node) : matchAt? node nonEmpty p =
    ((ends node p).head?.filter fun q => !nonEmpty || q.offset != p.offset).map fun q => ⟨p.offset, q.offset, q.groups⟩ := by
  rw [matchAt?]
  congr 1
  cases eq : ends node p with
  | nil => rfl
  | cons first rest =>
    have order := longest p
    rw [eq, List.pairwise_cons] at order
    rw [List.head?_cons, Option.filter_some, List.find?_cons]
    split
    next accepted => rw [if_pos accepted]
    next refused =>
      rw [if_neg (by simpa using refused), List.find?_eq_none]
      intro r later
      have low := offset_le_of_mem_ends (eq ▸ List.mem_cons_of_mem first later)
      have high := order.1 r later
      have same : nonEmpty = true ∧ first.offset = p.offset := by simpa using refused
      have stays : r.offset = p.offset := by omega
      simp [same.1, stays]

theorem LongestFirst.matchAt?_eq_none_iff (longest : LongestFirst node) : matchAt? node nonEmpty p = none ↔
    ∀ q, (ends node p).head? = some q → nonEmpty = true ∧ q.offset = p.offset := by
  rw [longest.matchAt?_eq, Option.map_eq_none_iff, Option.filter_eq_none_iff]
  refine forall_congr' fun q => imp_congr_right fun _ => ?_
  cases nonEmpty <;> simp

theorem LongestFirst.exists_of_matchAt? (longest : LongestFirst node) (matched : matchAt? node nonEmpty p = some h) :
    ∃ q, (ends node p).head? = some q ∧ h = ⟨p.offset, q.offset, q.groups⟩ ∧ (nonEmpty = true → q.offset ≠ p.offset) := by
  rw [longest.matchAt?_eq] at matched
  obtain ⟨q, found, rfl⟩ := Option.map_eq_some_iff.mp matched
  obtain ⟨first, accepted⟩ := Option.filter_eq_some_iff.mp found
  refine ⟨q, first, rfl, fun asked => ?_⟩
  simpa [asked] using accepted

/-! ## The first match -/

/-- The first match is at the place itself, as it was asked for, or behind it. -/
theorem place_of_firstAt (clean : p.groups = []) (found : firstAt node nonEmpty p = some (h, q)) :
    (q = p ∧ matchAt? node nonEmpty p = some h) ∨ (p.offset < q.offset ∧ matchAt? node false q = some h) := by
  generalize eq : p.rest = rest
  induction rest generalizing p nonEmpty with
  | nil =>
    rw [firstAt_nil clean eq] at found
    obtain ⟨hit, matched, same⟩ := Option.map_eq_some_iff.mp found
    cases same
    exact .inl ⟨rfl, matched⟩
  | cons c rest ih =>
    cases matched : matchAt? node nonEmpty p with
    | some hit =>
      rw [firstAt_of_match clean matched] at found
      cases found
      exact .inl ⟨rfl, rfl⟩
    | none =>
      rw [firstAt_cons clean eq, matched, Option.map_none, Option.none_or] at found
      refine .inr ?_
      rcases ih (p := p.past c rest) clean found rfl with ⟨rfl, here⟩ | ⟨behind, there⟩
      · exact ⟨Nat.lt_succ_self _, here⟩
      · exact ⟨Nat.lt_of_succ_lt behind, there⟩

/-- A search stops at a place with a match at the latest. -/
theorem exists_firstAt (clean : p.groups = []) (inside : p.In text) {r : Place} (there : r.In text) (clean' : r.groups = [])
    (le : p.offset ≤ r.offset) (matched : matchAt? node false r ≠ none) (behind : nonEmpty = true → p.offset < r.offset) :
    ∃ h q, firstAt node nonEmpty p = some (h, q) ∧ q.offset ≤ r.offset := by
  generalize eq : p.rest = rest
  induction rest generalizing p nonEmpty with
  | nil =>
    have last : text.length ≤ p.offset := List.drop_eq_nil_iff.mp (inside.rest.symm.trans eq)
    have low := there.le
    obtain rfl : p = r := inside.ext there (by omega) (clean.trans clean'.symm)
    cases nonEmpty with
    | true => exact absurd (behind rfl) (Nat.lt_irrefl _)
    | false =>
      obtain ⟨h, matched⟩ := Option.ne_none_iff_exists'.mp matched
      exact ⟨h, p, firstAt_of_match clean matched, Nat.le_refl _⟩
  | cons c rest ih =>
    cases here : matchAt? node nonEmpty p with
    | some h => exact ⟨h, p, firstAt_of_match clean here, le⟩
    | none =>
      have further : p.offset < r.offset := by
        rcases Nat.eq_or_lt_of_le le with same | lt
        · obtain rfl : p = r := inside.ext there same (clean.trans clean'.symm)
          cases nonEmpty with
          | true => exact behind rfl
          | false => exact absurd here matched
        · exact lt
      rw [firstAt_cons clean eq, here, Option.map_none, Option.none_or]
      exact ih (p := p.past c rest) clean (inside.past eq) further (fun no => absurd no Bool.false_ne_true) rfl

/-! ## All matches -/

/-- The place was matched already, by an empty match. -/
def IsSpent (node : Node) (nonEmpty : Bool) (p : Place) : Prop :=
  nonEmpty = true → ∃ q, (ends node p).head? = some q ∧ q.offset = p.offset

/-- Where a search for all matches stands that has found none, or a last one. -/
structure Stands (node : Node) (text : List Char) (nonEmpty : Bool) (p : Place) : Prop where
  inside : p.In text
  clean : p.groups = []
  spent : IsSpent node nonEmpty p

/-- A search finds a match from where it stands on, and then stands behind it. -/
structure Turn (node : Node) (text : List Char) (nonEmpty : Bool) (p : Place) (h : Hit) (r : Place) : Prop where
  start_le : p.offset ≤ h.start
  start_lt : nonEmpty = true → p.offset < h.start
  le : h.start ≤ h.stop
  offset : r.offset = h.stop
  stands : Stands node text (h.stop = h.start) r

theorem Stands.turn (longest : LongestFirst node) (s : Stands node text nonEmpty p)
    (found : firstAt node nonEmpty p = some (h, q)) :
    h.start = q.offset ∧ Turn node text nonEmpty p h (q.skip (h.stop - h.start)) := by
  obtain ⟨⟨passed, leads⟩, clean, b, matched⟩ := leads_of_firstAt s.clean found
  have there : q.In text := s.inside.leads leads
  have moved : nonEmpty = true → p.offset < q.offset := by
    intro asked
    rcases place_of_firstAt s.clean found with ⟨rfl, here⟩ | ⟨behind, -⟩
    · obtain ⟨r, first, -, moved⟩ := longest.exists_of_matchAt? here
      obtain ⟨r', first', stays⟩ := s.spent asked
      cases Option.some.inj (first.symm.trans first')
      exact absurd stays (moved asked)
    · exact behind
  obtain ⟨r, first, rfl, -⟩ := longest.exists_of_matchAt? matched
  have mem : r ∈ ends node q := List.mem_of_mem_head? first
  obtain ⟨taken, takes, ahead, kept⟩ := exists_skip mem
  refine ⟨rfl, leads.offset ▸ Nat.le_add_right _ _, moved, offset_le_of_mem_ends mem,
    ahead.offset.trans takes.leads.offset.symm, there.leads ahead, kept.trans clean, fun empty => ?_⟩
  -- an empty match leaves the search where it is
  have stays : r.offset = q.offset := of_decide_eq_true empty
  have none : taken = [] := List.eq_nil_of_length_eq_zero (by have := takes.leads.offset; omega)
  subst none
  have here : q.skip (r.offset - q.offset) = q := ahead.eq_of_nil kept
  exact ⟨r, (congrArg (fun place => (ends node place).head?) here).trans first, stays.trans (congrArg Place.offset here).symm⟩

theorem allFrom_cases (longest : LongestFirst node) (s : Stands node text nonEmpty p) (steps : Nat) :
    (allFrom node (steps + 1) nonEmpty p = [] ∧ firstAt node nonEmpty p = none) ∨
      ∃ h q r, firstAt node nonEmpty p = some (h, q) ∧ h.start = q.offset ∧ Turn node text nonEmpty p h r ∧
        allFrom node (steps + 1) nonEmpty p = h :: allFrom node steps (h.stop = h.start) r := by
  rw [allFrom, ← firstAt]
  cases found : firstAt node nonEmpty p with
  | none => exact .inl ⟨rfl, rfl⟩
  | some hit =>
    obtain ⟨h, q⟩ := hit
    obtain ⟨start, turn⟩ := s.turn longest found
    exact .inr ⟨h, q, _, rfl, start, turn, rfl⟩

theorem le_start_of_mem_allFrom (longest : LongestFirst node) {steps : Nat} (s : Stands node text nonEmpty p)
    (mem : h ∈ allFrom node steps nonEmpty p) : p.offset ≤ h.start ∧ (nonEmpty = true → p.offset < h.start) := by
  induction steps generalizing p nonEmpty with
  | zero => cases mem
  | succ steps ih =>
    rcases allFrom_cases longest s steps with ⟨none, -⟩ | ⟨first, q, r, -, -, turn, eq⟩
    · rw [none] at mem
      cases mem
    · rw [eq] at mem
      rcases List.mem_cons.mp mem with rfl | later
      · exact ⟨turn.start_le, turn.start_lt⟩
      · have := (ih turn.stands later).1
        have := turn.offset
        have := turn.le
        exact ⟨by have := turn.start_le; omega, fun asked => by have := turn.start_lt asked; omega⟩

theorem pairwise_allFrom (longest : LongestFirst node) (steps : Nat) (s : Stands node text nonEmpty p) :
    (allFrom node steps nonEmpty p).Pairwise fun h h' => h.start < h'.start ∧ h.stop ≤ h'.start := by
  induction steps generalizing p nonEmpty with
  | zero => exact .nil
  | succ steps ih =>
    rcases allFrom_cases longest s steps with ⟨none, -⟩ | ⟨first, q, r, -, -, turn, eq⟩
    · rw [none]
      exact .nil
    · rw [eq, List.pairwise_cons]
      refine ⟨fun h later => ?_, ih turn.stands⟩
      obtain ⟨behind, further⟩ := le_start_of_mem_allFrom longest turn.stands later
      rw [turn.offset] at behind further
      refine ⟨?_, behind⟩
      rcases Nat.eq_or_lt_of_le turn.le with empty | wide
      · exact empty ▸ further (decide_eq_true empty.symm)
      · exact Nat.lt_of_lt_of_le wide behind

/-- Each turn takes a character, or the one after it does; so twice the text that is left bounds the turns. -/
theorem exists_mem_allFrom (longest : LongestFirst node) {steps : Nat} (s : Stands node text nonEmpty p)
    (enough : 2 * p.rest.length + (if nonEmpty then 0 else 1) < steps) (there : q.In text) (clean : q.groups = [])
    (le : p.offset ≤ q.offset) (ahead : nonEmpty = true → p.offset < q.offset) (matched : ends node q ≠ [])
    (apart : ∀ h ∈ allFrom node steps nonEmpty p, h.start < q.offset → h.stop ≤ q.offset) :
    ∃ h ∈ allFrom node steps nonEmpty p, h.start = q.offset := by
  have found : matchAt? node false q ≠ none := Option.isSome_iff_ne_none.mp (matchAt?_isSome matched)
  induction steps generalizing p nonEmpty with
  | zero => exact absurd enough (Nat.not_lt_zero _)
  | succ steps ih =>
    obtain ⟨first, place, stops, before⟩ := exists_firstAt s.clean s.inside there clean le found ahead
    rcases allFrom_cases longest s steps with ⟨-, none⟩ | ⟨h, place', r, same, start, turn, eq⟩
    · rw [none] at stops
      cases stops
    · rw [stops] at same
      cases same
      rw [eq] at apart ⊢
      rcases Nat.eq_or_lt_of_le before with here | further
      · exact ⟨first, List.mem_cons_self, start.trans here⟩
      · have reaches := apart first List.mem_cons_self (start ▸ further)
        have width (o : Place) (inside : o.In text) : o.rest.length + o.offset = text.length := by
          have le := inside.le
          rw [inside.rest, List.length_drop]
          omega
        have left := width p s.inside
        have left' := width r turn.stands.inside
        have offset := turn.offset
        have start_le := turn.start_le
        have stop_le := turn.le
        have shorter : 2 * r.rest.length + (if decide (first.stop = first.start) then 0 else 1) < steps := by
          cases nonEmpty with
          | true =>
            have := turn.start_lt rfl
            split <;> simp only [decide_eq_true_eq, if_true] at * <;> omega
          | false => split <;> simp_all <;> omega
        obtain ⟨h, mem, eq⟩ := ih turn.stands shorter (offset ▸ reaches)
          (fun empty => by have := of_decide_eq_true empty; omega) fun h mem => apart h (List.mem_cons_of_mem _ mem)
        exact ⟨h, List.mem_cons_of_mem _ mem, eq⟩

theorem stands_startOf (node : Node) (text : List Char) : Stands node text false (startOf text) :=
  ⟨Place.in_startOf text, rfl, fun no => absurd no Bool.false_ne_true⟩

/-- A match that is found is the longest at its place. -/
theorem head?_of_mem_all {r : Regex} (longest : LongestFirst r.node) (mem : h ∈ r.all text) :
    ∃ p q, p.In text ∧ p.groups = [] ∧ (ends r.node p).head? = some q ∧ h = ⟨p.offset, q.offset, q.groups⟩ := by
  obtain ⟨p, b, inside, clean, matched⟩ := matchAt?_of_mem_allFrom (Place.in_startOf text) rfl mem
  obtain ⟨q, first, eq, -⟩ := longest.exists_of_matchAt? matched
  exact ⟨p, q, inside, clean, first, eq⟩

/-- The matches come in order and do not overlap. -/
theorem pairwise_all {r : Regex} (longest : LongestFirst r.node) (text : List Char) :
    (r.all text).Pairwise fun h h' => h.start < h'.start ∧ h.stop ≤ h'.start :=
  pairwise_allFrom longest _ (stands_startOf _ _)

/-- Where the expression matches, and no match before it reaches over the place, one is found. -/
theorem exists_mem_all {r : Regex} (longest : LongestFirst r.node) (there : p.In text) (clean : p.groups = [])
    (matched : ends r.node p ≠ []) (apart : ∀ h ∈ r.all text, h.start < p.offset → h.stop ≤ p.offset) :
    ∃ h ∈ r.all text, h.start = p.offset :=
  exists_mem_allFrom longest (stands_startOf _ _) (Nat.lt_succ_self _) there clean (Nat.zero_le _)
    (fun no => absurd no Bool.false_ne_true) matched apart

end CodeHygiene.Regex
