import CodeHygiene.Proofs.Matching

/-!
The texts that an expression stands for, whatever the order in which its matches are tried.

Proved:
(1) Where one of its texts follows, an expression without conditions on its surroundings has a match that takes it
    (`exists_end`). So it matches at a place exactly where one of its texts begins (`after_eq_none_iff`). What every text
    of it must hold can then be read off the expression (`Denotes.split`, `begins_literal`).
(2) A search passes over the places where no text of the expression begins, and over no other (`search?_all_iff`).
(3) A lazy run takes no more than it must for what follows it to match (`of_after_lazy`).
(4) A match leaves what is known of the groups that its expression does not have (`lookup_of_mem`), and knows every
    group that it must go through (`isSome_lookup_of_mem`).
-/

namespace CodeHygiene.Regex

variable {node part : Node} {p q : Place} {step : Place → Option Place}

/-! ## Texts of an expression -/

/-- A text begins with one of the expression. -/
def Begins (node : Node) (text : List Char) : Prop := ∃ t rest, text = t ++ rest ∧ Denotes node t

/-- No part of the expression is a condition on its surroundings. -/
def isPlain : Node → Bool
  | .seq first second => isPlain first && isPlain second
  | .alt first second => isPlain first && isPlain second
  | .many part _ _ _ => isPlain part
  | .group _ part => isPlain part
  | .anchor _ => false
  | .notAhead _ => false
  | .notBehind _ => false
  | _ => true

theorem length_le_flatten {pieces : List (List Char)} (some : ∀ u ∈ pieces, u ≠ []) : pieces.length ≤ pieces.flatten.length := by
  induction pieces with
  | nil => exact Nat.le_refl 0
  | cons u pieces ih =>
    obtain ⟨first, others⟩ := List.forall_mem_cons.mp some
    have pos := List.length_pos_iff.mpr first
    have more := ih others
    rw [List.flatten_cons, List.length_append, List.length_cons]
    omega

/-- Every text of the expression has a character, and another nowhere before it. -/
def reaches (c avoided : Char) : Node → Bool
  | .set s => s = .one c
  | .seq first second => reaches c avoided first || (avoids avoided first && reaches c avoided second)
  | .alt first second => reaches c avoided first && reaches c avoided second
  | .group _ part => reaches c avoided part
  | _ => false

theorem Denotes.split {c avoided : Char} (reach : reaches c avoided node = true) {t : List Char} (is : Denotes node t) :
    ∃ u v, t = u ++ c :: v ∧ avoided ∉ u := by
  induction node generalizing t with
  | set s =>
    obtain rfl : s = .one c := of_decide_eq_true reach
    obtain ⟨d, inside, rfl⟩ := is
    rw [CharSet.contains_one] at inside
    obtain rfl := of_decide_eq_true inside
    exact ⟨[], [], rfl, List.not_mem_nil⟩
  | seq first second ih ih' =>
    obtain ⟨u, v, rfl, is, is'⟩ := is
    rcases (Bool.or_eq_true _ _).mp reach with early | late
    · obtain ⟨x, y, rfl, none⟩ := ih early is
      exact ⟨x, y ++ v, List.append_assoc _ _ _, none⟩
    · obtain ⟨away, late⟩ := (Bool.and_eq_true _ _).mp late
      obtain ⟨x, y, rfl, none⟩ := ih' late is'
      exact ⟨u ++ x, y, (List.append_assoc _ _ _).symm, fun mem => (List.mem_append.mp mem).elim (is.notMem away) none⟩
  | alt first second ih ih' =>
    obtain ⟨one, other⟩ := (Bool.and_eq_true _ _).mp reach
    exact is.elim (ih one) (ih' other)
  | group n part ih => exact ih reach is
  | empty | run s least most isLazy | many part least most isLazy | anchor a | notAhead part | notBehind s => cases reach

theorem Begins.split {c avoided : Char} (reach : reaches c avoided node = true) {text : List Char} (begins : Begins node text) :
    ∃ u v, text = u ++ c :: v ∧ avoided ∉ u := by
  obtain ⟨t, rest, rfl, is⟩ := begins
  obtain ⟨u, v, rfl, none⟩ := is.split reach
  exact ⟨u, v ++ rest, List.append_assoc _ _ _, none⟩

/-- The pieces are taken one by one; each takes a character, so the clock is long enough. -/
theorem exists_end_many {isLazy : Bool} {pieces : List (List Char)} {clock rest : List Char} {least : Nat} {most : Option Nat}
    (each : ∀ u ∈ pieces, u ≠ [] ∧ ∀ {p : Place} {rest}, p.rest = u ++ rest → ∃ q ∈ ends part p, p.Leads u q)
    (count : Admits least most pieces.length) (goes : p.rest = pieces.flatten ++ rest) (time : pieces.length ≤ clock.length) :
    ∃ q ∈ manyEnds (ends part) isLazy clock least most p, p.Leads pieces.flatten q := by
  induction pieces generalizing p clock least most with
  | nil => exact ⟨p, mem_manyEnds_iff.mpr (.inl ⟨admits_zero.mp count, rfl⟩), .here p⟩
  | cons u pieces ih =>
    obtain ⟨⟨some, takes⟩, others⟩ := List.forall_mem_cons.mp each
    obtain ⟨further, count⟩ := admits_succ.mp count
    rw [List.flatten_cons, List.append_assoc] at goes
    obtain ⟨r, first, leads⟩ := takes goes
    have goes : r.rest = pieces.flatten ++ rest := List.append_cancel_left (leads.rest.symm.trans goes)
    obtain ⟨c, more, rfl⟩ : ∃ c more, clock = c :: more := List.exists_cons_of_length_pos (Nat.lt_of_lt_of_le (Nat.succ_pos _) time)
    obtain ⟨q, mem, leads'⟩ := ih others count goes (Nat.le_of_succ_le_succ time)
    have forward : p.offset < r.offset := by
      rw [leads.offset]
      exact Nat.lt_add_of_pos_right (List.length_pos_iff.mpr some)
    exact ⟨q, mem_manyEnds_iff.mpr (.inr ⟨c, more, rfl, further, r, first, forward, mem⟩), leads.trans leads'⟩

/-- Where one of its texts follows, a plain expression has a match that takes it. -/
theorem exists_end {t rest : List Char} (plain : isPlain node = true) (is : Denotes node t) (goes : p.rest = t ++ rest) :
    ∃ q ∈ ends node p, p.Leads t q := by
  induction node generalizing p t rest with
  | empty =>
    obtain rfl : t = [] := is
    exact ⟨p, List.mem_singleton_self p, .here p⟩
  | set s =>
    obtain ⟨c, inside, rfl⟩ := is
    exact ⟨p.past c rest, mem_ends_set.mpr ⟨c, rest, goes, inside, rfl⟩, .past goes⟩
  | seq first second ih ih' =>
    obtain ⟨u, v, rfl, is, is'⟩ := is
    obtain ⟨plain, plain'⟩ := (Bool.and_eq_true _ _).mp plain
    rw [List.append_assoc] at goes
    obtain ⟨r, early, leads⟩ := ih plain is goes
    obtain ⟨q, late, leads'⟩ := ih' plain' is' (List.append_cancel_left (leads.rest.symm.trans goes))
    exact ⟨q, List.mem_flatMap.mpr ⟨r, early, late⟩, leads.trans leads'⟩
  | alt first second ih ih' =>
    obtain ⟨plain, plain'⟩ := (Bool.and_eq_true _ _).mp plain
    rcases is with is | is
    · exact (ih plain is goes).imp fun q found => ⟨List.mem_append_left _ found.1, found.2⟩
    · exact (ih' plain' is goes).imp fun q found => ⟨List.mem_append_right _ found.1, found.2⟩
  | run s least most isLazy =>
    have leads : p.Leads t ⟨t.getLast?.or p.before, p.offset + t.length, rest, p.groups⟩ := ⟨goes, rfl, rfl⟩
    exact ⟨_, mem_ends_run.mpr ⟨t, leads, rfl, is⟩, leads⟩
  | many part least most isLazy ih =>
    obtain ⟨pieces, rfl, count, are⟩ := is
    have time : pieces.length ≤ p.rest.length := by
      have many := length_le_flatten fun u mem => (are u mem).1
      rw [goes, List.length_append]
      omega
    exact exists_end_many (fun u mem => ⟨(are u mem).1, ih plain (are u mem).2⟩) count goes time
  | group n part ih =>
    obtain ⟨q, mem, leads⟩ := ih plain is goes
    exact ⟨_, List.mem_map.mpr ⟨q, mem, rfl⟩, leads.rest, leads.offset, leads.before⟩
  | anchor a | notAhead part | notBehind s => cases plain

theorem mem_ends_of_after (found : after node some p = some q) : q ∈ ends node p := by
  obtain ⟨r, mem, same⟩ := List.exists_of_findSome?_eq_some found
  cases same
  exact mem

/-- A plain expression matches at a place exactly where one of its texts begins. -/
theorem after_eq_none_iff (plain : isPlain node = true) : after node some p = none ↔ ¬ Begins node p.rest := by
  rw [after, List.findSome?_eq_none_iff]
  constructor
  · rintro none ⟨t, rest, goes, is⟩
    obtain ⟨q, mem, -⟩ := exists_end plain is goes
    cases none q mem
  · intro none q mem
    obtain ⟨t, leads, is⟩ := denotes_of_mem mem
    exact absurd ⟨t, q.rest, leads.rest, is⟩ none

/-- What matches at the start of a text begins it. -/
theorem begins_of_atStart? {r : Regex} {text : List Char} {h : Hit} (found : r.atStart? text = some h) : Begins r.node text := by
  obtain ⟨q, mem, -⟩ := exists_of_matchAt? found
  obtain ⟨taken, leads, is⟩ := denotes_of_mem mem
  exact ⟨taken, q.rest, leads.rest, is⟩

/-! ## Characters and blanks -/

/-- Characters of their own, one by one, before an expression. -/
def literal (chars : List Char) (node : Node) : Node := chars.foldr (fun c node => .seq (.set (.one c)) node) node

theorem of_after_literal {chars : List Char} (found : after (literal chars node) step p = some q) :
    ∃ r, p.Leads chars r ∧ r.groups = p.groups ∧ after node step r = some q := by
  induction chars generalizing p with
  | nil => exact ⟨p, .here p, rfl, found⟩
  | cons c chars ih =>
    rw [literal, List.foldr_cons, after_seq] at found
    cases eq : p.rest with
    | nil =>
      rw [after_set_nil _ eq] at found
      cases found
    | cons d rest =>
      rw [after_set_cons _ eq, CharSet.contains_one] at found
      split at found
      next same =>
        obtain rfl : d = c := of_decide_eq_true same
        obtain ⟨r, leads, kept, found⟩ := ih found
        exact ⟨r, Place.Leads.trans (.past eq) leads, kept, found⟩
      next => cases found

theorem begins_literal {text : List Char} (chars : List Char) (begins : Begins node text) :
    Begins (literal chars node) (chars ++ text) := by
  induction chars with
  | nil => exact begins
  | cons c chars ih =>
    obtain ⟨t, rest, eq, is⟩ := ih
    have one : Denotes (.set (.one c)) [c] := ⟨c, by rw [CharSet.contains_one]; exact decide_eq_true rfl, rfl⟩
    exact ⟨c :: t, rest, congrArg (c :: ·) eq, [c], t, rfl, one, is⟩

theorem isRun_blanks {t : List Char} : IsRun (.ofClass .blank) 0 none t ↔ ∀ c ∈ t, Text.isBlank c = true := by
  have among (c : Char) : (CharSet.ofClass .blank).contains c = Text.isBlank c := by
    simp [CharSet.contains, CharSet.ofClass, CharItem.contains, CharClass.contains]
  simp only [isRun_unbounded, among]

/-! ## Searches -/

theorem matchAt?_eq_none_iff (plain : isPlain node = true) : matchAt? node false p = none ↔ ¬ Begins node p.rest := by
  rw [matchAt?_eq (.inl rfl), Option.map_eq_none_iff, after_eq_none_iff plain]

/-- Where a text of the expression begins, a search stops at once. -/
theorem firstAt_all_iff_of_begins (plain : isPlain node = true) (clean : p.groups = []) (begins : Begins node p.rest)
    {n : Nat} : (∀ h q, firstAt node false p = some (h, q) → p.offset + n ≤ h.start) ↔
      ∀ i < n, ¬ Begins node (p.rest.drop i) := by
  have found : matchAt? node false p ≠ none := fun none => (matchAt?_eq_none_iff plain).mp none begins
  obtain ⟨h, matched⟩ := Option.ne_none_iff_exists'.mp found
  obtain ⟨q, -, rfl⟩ := exists_of_matchAt? matched
  rw [firstAt_of_match clean matched]
  constructor
  · intro low i less
    have : p.offset + n ≤ p.offset := low _ p rfl
    omega
  · rintro none _ _ ⟨⟩
    cases n with
    | zero => exact Nat.le_refl _
    | succ n => exact absurd begins (none 0 (Nat.succ_pos n))

/-- A search passes over the places where no text of the expression begins, and over no other. -/
theorem firstAt_all_iff (plain : isPlain node = true) (clean : p.groups = []) {n : Nat} :
    (∀ h q, firstAt node false p = some (h, q) → p.offset + n ≤ h.start) ↔ ∀ i < n, ¬ Begins node (p.rest.drop i) := by
  generalize eq : p.rest = rest
  induction rest generalizing p n with
  | nil =>
    by_cases begins : Begins node p.rest
    · exact eq ▸ firstAt_all_iff_of_begins plain clean begins
    · rw [firstAt_nil clean eq, (matchAt?_eq_none_iff plain).mpr begins]
      rw [eq] at begins
      simpa using fun _ _ => begins
  | cons c rest ih =>
    by_cases begins : Begins node p.rest
    · exact eq ▸ firstAt_all_iff_of_begins plain clean begins
    · have next := ih (p := p.past c rest) (n := n - 1) clean rfl
      rw [firstAt_cons clean eq, (matchAt?_eq_none_iff plain).mpr begins, Option.map_none, Option.none_or]
      rw [eq] at begins
      cases n with
      | zero => exact iff_of_true (fun h q found => Nat.le_of_succ_le (next.mpr (by simp) h q found)) (by simp)
      | succ n =>
        rw [Place.past, Nat.succ_sub_one, Nat.add_assoc, Nat.add_comm 1] at next
        rw [Place.past, next]
        constructor
        · intro none i less
          cases i with
          | zero => exact begins
          | succ i => exact none i (Nat.lt_of_succ_lt_succ less)
        · exact fun none i less => none (i + 1) (Nat.succ_lt_succ less)

theorem search?_all_iff {r : Regex} (plain : isPlain r.node = true) {text : List Char} {n : Nat} :
    (∀ h, r.search? text = some h → n ≤ h.start) ↔ ∀ i < n, ¬ Begins r.node (text.drop i) := by
  have all := firstAt_all_iff plain (p := startOf text) (n := n) rfl
  simp only [startOf, Nat.zero_add] at all
  rw [← all, search?]
  constructor
  · intro low h q found
    exact low h (congrArg (Option.map (·.1)) found)
  · intro low h found
    obtain ⟨⟨first, q⟩, stops, rfl⟩ := Option.map_eq_some_iff.mp found
    exact low first q stops

/-! ## Lazy runs -/

/-- A lazy run takes no more than it must for what follows it to match. -/
theorem of_after_lazy {s : CharSet} (found : after (.run s 0 none true) step p = some q) :
    ∃ taken r, p.Leads taken r ∧ r.groups = p.groups ∧ step r = some q ∧
      ∀ taken' r', p.Leads taken' r' → r'.groups = p.groups → taken'.length < taken.length → step r' = none := by
  generalize eq : p.rest = rest
  induction rest generalizing p with
  | nil =>
    rw [after_run_nil s 0 none true eq, if_pos rfl] at found
    exact ⟨[], p, .here p, rfl, found, fun _ _ _ _ less => absurd less (Nat.not_lt_zero _)⟩
  | cons c rest ih =>
    simp only [after_run_cons s 0 none true eq, if_true, ne_eq, reduceCtorEq, not_false_eq_true, decide_true,
      Bool.true_and, Nat.zero_sub, Option.map_none] at found
    cases here : step p with
    | some _ =>
      rw [here, Option.some_or] at found
      exact ⟨[], p, .here p, rfl, here.trans found, fun _ _ _ _ less => absurd less (Nat.not_lt_zero _)⟩
    | none =>
      rw [here, Option.none_or] at found
      split at found
      next inside =>
        obtain ⟨taken, r, leads, kept, result, least⟩ := ih (p := p.past c rest) found rfl
        refine ⟨c :: taken, r, Place.Leads.trans (.past eq) leads, kept, result, fun taken' r' leads' kept' less => ?_⟩
        cases taken' with
        | nil => rw [leads'.eq_of_nil kept', here]
        | cons d taken' =>
          obtain ⟨rfl, -⟩ := List.cons.inj (eq.symm.trans leads'.rest)
          exact least taken' r' (leads'.of_cons eq) kept' (Nat.lt_of_succ_lt_succ less)
      next => cases found

/-! ## Groups -/

/-- The part of an expression that is the group of a number. -/
def partOf? (n : Nat) : Node → Option Node
  | .seq first second => (partOf? n first).or (partOf? n second)
  | .alt first second => (partOf? n first).or (partOf? n second)
  | .many part _ _ _ => partOf? n part
  | .group m part => if m = n then some part else partOf? n part
  | _ => none

/-- The expression has no group of this number. -/
def lacksGroup (n : Nat) : Node → Bool
  | .seq first second => lacksGroup n first && lacksGroup n second
  | .alt first second => lacksGroup n first && lacksGroup n second
  | .many part _ _ _ => lacksGroup n part
  | .group m part => n != m && lacksGroup n part
  | _ => true

theorem lookup_of_mem {n : Nat} (lacks : lacksGroup n node = true) (mem : q ∈ ends node p) :
    q.groups.lookup n = p.groups.lookup n := by
  induction node generalizing p q with
  | seq first second ih ih' =>
    obtain ⟨lacks, lacks'⟩ := (Bool.and_eq_true _ _).mp lacks
    obtain ⟨r, early, late⟩ := List.mem_flatMap.mp mem
    rw [ih' lacks' late, ih lacks early]
  | alt first second ih ih' =>
    obtain ⟨lacks, lacks'⟩ := (Bool.and_eq_true _ _).mp lacks
    exact (List.mem_append.mp mem).elim (ih lacks) (ih' lacks')
  | many part least most isLazy ih =>
    exact of_mem_manyEnds (fun r => r.groups.lookup n = p.groups.lookup n) (fun kept mem => (ih lacks mem).trans kept) rfl mem
  | group m part ih =>
    obtain ⟨other, lacks⟩ := (Bool.and_eq_true _ _).mp lacks
    obtain ⟨r, inner, rfl⟩ := List.mem_map.mp mem
    show ((m, _) :: r.groups).lookup n = _
    rw [List.lookup_cons, show (n == m) = false by simpa using other, ih lacks inner]
  | _ => rw [groups_of_mem_ends rfl mem]

/-- A match adds to the groups that were there. -/
theorem groups_suffix_of_mem (mem : q ∈ ends node p) : p.groups <:+ q.groups := by
  induction node generalizing p q with
  | seq first second ih ih' =>
    obtain ⟨r, early, late⟩ := List.mem_flatMap.mp mem
    exact (ih early).trans (ih' late)
  | alt first second ih ih' => exact (List.mem_append.mp mem).elim ih ih'
  | many part least most isLazy ih =>
    exact of_mem_manyEnds (fun r => p.groups <:+ r.groups) (fun kept mem => kept.trans (ih mem)) List.suffix_rfl mem
  | group m part ih =>
    obtain ⟨r, inner, rfl⟩ := List.mem_map.mp mem
    exact (ih inner).trans (List.suffix_cons _ _)
  | _ => exact groups_of_mem_ends rfl mem ▸ List.suffix_rfl

/-- Every match goes through the group of this number. -/
def bindsGroup (n : Nat) : Node → Bool
  | .seq first second => bindsGroup n first || bindsGroup n second
  | .alt first second => bindsGroup n first && bindsGroup n second
  | .group m part => m = n || bindsGroup n part
  | _ => false

theorem isSome_lookup_of_mem {n : Nat} (binds : bindsGroup n node = true) (mem : q ∈ ends node p) :
    (q.groups.lookup n).isSome = true := by
  induction node generalizing p q with
  | seq first second ih ih' =>
    obtain ⟨r, early, late⟩ := List.mem_flatMap.mp mem
    rcases (Bool.or_eq_true _ _).mp binds with here | there
    · obtain ⟨new, eq⟩ := groups_suffix_of_mem late
      rw [← eq, List.lookup_append, Option.isSome_or, ih here early, Bool.or_true]
    · exact ih' there late
  | alt first second ih ih' =>
    obtain ⟨one, other⟩ := (Bool.and_eq_true _ _).mp binds
    exact (List.mem_append.mp mem).elim (ih one) (ih' other)
  | group m part ih =>
    obtain ⟨r, inner, rfl⟩ := List.mem_map.mp mem
    show (((m, _) :: r.groups).lookup n).isSome = true
    rw [List.lookup_cons]
    cases same : n == m with
    | true => rfl
    | false =>
      rcases (Bool.or_eq_true _ _).mp binds with own | deeper
      · simp [of_decide_eq_true own] at same
      · exact ih deeper inner
  | _ => cases binds

end CodeHygiene.Regex
