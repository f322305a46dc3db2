import CodeHygiene.Proofs.Taken

/-!
What comes of a match when something else has to follow it.

Proved:
(1) The first of the places where a match can end at which a further step has a result (`after`) is found
    part by part: in a sequence the step follows the second part, of alternatives the first that has a result
    decides, and a repetition decides between going on and stopping here (`after_seq`, `after_alt`,
    `after_run_cons`, `loop_cons`).
(2) A search stands at a place of the text, finds a match that starts at the place or behind it (`leads_of_firstAt`), and
    goes on behind what it took (`exists_skip`); so each match that is found is one in the text (`matches_of_mem_all`).
-/

namespace CodeHygiene.Regex

/-! ## Places in a text -/

namespace Place

variable {text : List Char} {p q : Place}

/-- It is a place of the text. -/
structure In (text : List Char) (p : Place) : Prop where
  le : p.offset ≤ text.length
  before : p.before = (text.take p.offset).getLast?
  rest : p.rest = text.drop p.offset

theorem In.leads {taken : List Char} (h : p.In text) (leads : p.Leads taken q) : q.In text := by
  have behind : text.drop p.offset = taken ++ q.rest := h.rest.symm.trans leads.rest
  have total := congrArg List.length behind
  rw [List.length_drop, List.length_append] at total
  have le := h.le
  refine ⟨by rw [leads.offset]; omega, ?_, ?_⟩
  · rw [leads.before, leads.offset, List.take_add, behind, List.take_left, List.getLast?_append, h.before]
  · rw [leads.offset, ← List.drop_drop, behind, List.drop_left]

theorem In.slice {taken : List Char} (h : p.In text) (leads : p.Leads taken q) :
    Text.slice text p.offset q.offset = taken := by
  rw [Text.slice, ← h.rest, leads.rest, leads.offset, Nat.add_sub_cancel_left, List.take_left]

theorem In.past {c : Char} {rest : List Char} (h : p.In text) (eq : p.rest = c :: rest) : (p.past c rest).In text :=
  h.leads (.past eq)

theorem In.ends {node : Node} (h : p.In text) (mem : q ∈ ends node p) : q.In text := by
  obtain ⟨taken, takes⟩ := exists_taken mem
  exact h.leads takes.leads

theorem in_startOf (text : List Char) : (startOf text).In text := ⟨Nat.zero_le _, rfl, rfl⟩

/-- The place before the last character, for one that is not at the start. -/
theorem In.split {c : Char} (h : p.In text) (eq : p.before = some c) : ∃ init, text.take p.offset = init ++ [c] := by
  rw [h.before] at eq
  obtain ⟨init, last⟩ := List.getLast?_eq_some_iff.mp eq
  exact ⟨init, last⟩

theorem In.suffix (h : p.In text) (h' : q.In text) (le : q.offset ≤ p.offset) : p.rest <:+ q.rest := by
  have later : p.rest = q.rest.drop (p.offset - q.offset) := by
    rw [h.rest, h'.rest, List.drop_drop, Nat.add_sub_cancel' le]
  rw [later]
  exact List.drop_suffix _ _

theorem In.ext (h : p.In text) (h' : q.In text) (offset : p.offset = q.offset) (groups : p.groups = q.groups) : p = q := by
  have before : p.before = q.before := by rw [h.before, h'.before, offset]
  have rest : p.rest = q.rest := by rw [h.rest, h'.rest, offset]
  cases p
  cases q
  congr

end Place

/-! ## What follows a match -/

theorem findSome?_congr {α β : Type} {l : List α} {f g : α → Option β} (same : ∀ a ∈ l, f a = g a) :
    l.findSome? f = l.findSome? g := by
  induction l with
  | nil => rfl
  | cons a l ih =>
    rw [List.findSome?_cons, List.findSome?_cons, same a List.mem_cons_self,
      ih fun b mem => same b (List.mem_cons_of_mem _ mem)]

theorem findSome?_cons_eq_or {α β : Type} (a : α) (l : List α) (f : α → Option β) :
    (a :: l).findSome? f = (f a).or (l.findSome? f) := by
  rw [List.findSome?_cons]
  cases f a <;> rfl

theorem findSome?_flatMap {α β γ : Type} (l : List α) (f : α → List β) (g : β → Option γ) :
    (l.flatMap f).findSome? g = l.findSome? fun a => (f a).findSome? g := by
  induction l with
  | nil => rfl
  | cons a l ih =>
    rw [List.flatMap_cons, List.findSome?_append, ih, findSome?_cons_eq_or]

/-- The first result of a step at a place where a match can end. -/
def after (node : Node) (step : Place → Option Place) (p : Place) : Option Place := (ends node p).findSome? step

/-- The same for repetitions of a part, bounded by a clock. -/
def loop (part : Node) (isLazy : Bool) (clock : List Char) (least : Nat) (most : Option Nat) (step : Place → Option Place)
    (p : Place) : Option Place := (manyEnds (ends part) isLazy clock least most p).findSome? step

variable {text : List Char} {step step' : Place → Option Place} {p q : Place}

theorem after_congr {node : Node} (same : ∀ q ∈ ends node p, step q = step' q) : after node step p = after node step' p :=
  findSome?_congr same

theorem after_empty : after .empty step p = step p := List.findSome?_singleton

theorem after_seq (first second : Node) : after (.seq first second) step p = after first (after second step) p :=
  findSome?_flatMap _ _ _

theorem after_alt (first second : Node) :
    after (.alt first second) step p = (after first step p).or (after second step p) := List.findSome?_append

theorem after_group (n : Nat) (part : Node) :
    after (.group n part) step p =
      after part (fun q => step { q with groups := (n, ⟨p.offset, q.offset⟩) :: q.groups }) p := List.findSome?_map

theorem after_many (part : Node) (least : Nat) (most : Option Nat) (isLazy : Bool) :
    after (.many part least most isLazy) step p = loop part isLazy p.rest least most step p := rfl

theorem findSome?_if {c : Prop} [Decidable c] : (if c then [p] else []).findSome? step = if c then step p else none := by
  split
  · exact List.findSome?_singleton
  · rfl

theorem after_anchor (a : Anchor) : after (.anchor a) step p = if a.holds p then step p else none := findSome?_if

theorem after_notAhead (part : Node) :
    after (.notAhead part) step p = if after part some p = none then step p else none := by
  have none_iff : after part some p = none ↔ (ends part p).isEmpty = true := by
    rw [after, List.findSome?_eq_none_iff, List.isEmpty_iff, List.eq_nil_iff_forall_not_mem]
    exact forall_congr' fun q => by simp
  simp only [none_iff]
  exact findSome?_if

theorem after_notBehind (s : CharSet) :
    after (.notBehind s) step p = if p.before.any s.contains then none else step p := by
  rw [after, ends]
  split
  · rfl
  · exact List.findSome?_singleton

theorem after_set_nil (s : CharSet) (empty : p.rest = []) : after (.set s) step p = none := by
  rw [after, ends, empty]
  rfl

theorem after_set_cons (s : CharSet) {c : Char} {rest : List Char} (eq : p.rest = c :: rest) :
    after (.set s) step p = if s.contains c then step (p.past c rest) else none := by
  rw [after, ends, eq]
  exact findSome?_if

/-- A set takes nothing where the next character is not one of its own. -/
theorem after_set_outside {s : CharSet} (outside : p.rest.head?.any s.contains = false) : after (.set s) step p = none := by
  cases eq : p.rest with
  | nil => exact after_set_nil s eq
  | cons c rest =>
    rw [eq, List.head?_cons, Option.any_some] at outside
    rw [after_set_cons s eq, outside, if_neg Bool.false_ne_true]

theorem after_run_nil (s : CharSet) (least : Nat) (most : Option Nat) (isLazy : Bool) (empty : p.rest = []) :
    after (.run s least most isLazy) step p = if least = 0 then step p else none := by
  obtain ⟨before, offset, rest, groups⟩ := p
  obtain rfl : rest = [] := empty
  rw [after, ends]
  by_cases zero : least = 0 <;> cases isLazy <;> simp [runEnds, zero]

/-- A run goes on or stops; a greedy one rather goes on. -/
theorem after_run_cons (s : CharSet) (least : Nat) (most : Option Nat) (isLazy : Bool) {c : Char} {rest : List Char}
    (eq : p.rest = c :: rest) :
    after (.run s least most isLazy) step p =
      let here := if least = 0 then step p else none
      let further :=
        if (most ≠ some 0 && s.contains c) = true then
          after (.run s (least - 1) (most.map (· - 1)) isLazy) step (p.past c rest)
        else none
      if isLazy then here.or further else further.or here := by
  obtain ⟨before, offset, chars, groups⟩ := p
  obtain rfl : chars = c :: rest := eq
  by_cases ended : most = some 0
  · cases isLazy <;> by_cases zero : least = 0 <;> simp [after, ends, runEnds, ended, zero]
  · cases mem : s.contains c
    · cases isLazy <;> by_cases zero : least = 0 <;> simp [after, ends, runEnds, mem, zero]
    · cases isLazy <;> by_cases zero : least = 0 <;> simp [after, ends, runEnds, Place.past, ended, mem, zero, findSome?_cons_eq_or]

/-- A run ends where the next character is not one of its own. -/
theorem after_run_outside {s : CharSet} {least : Nat} {most : Option Nat} {isLazy : Bool}
    (outside : p.rest.head?.any s.contains = false) :
    after (.run s least most isLazy) step p = if least = 0 then step p else none := by
  cases eq : p.rest with
  | nil => exact after_run_nil s least most isLazy eq
  | cons c rest =>
    rw [eq, List.head?_cons, Option.any_some] at outside
    rw [after_run_cons s least most isLazy eq]
    cases isLazy <;> simp [outside]

/-- A run that may be empty is one that is not, or nothing. -/
theorem after_run_zero (s : CharSet) :
    after (.run s 0 none false) step p = (after (.run s 1 none false) step p).or (step p) := by
  cases eq : p.rest with
  | nil => rw [after_run_nil s 0 none false eq, after_run_nil s 1 none false eq]; rfl
  | cons c rest => simp [after_run_cons s _ none false eq]

theorem after_run_one (s : CharSet) {c : Char} {rest : List Char} (eq : p.rest = c :: rest) :
    after (.run s 1 none false) step p = if s.contains c then after (.run s 0 none false) step (p.past c rest) else none := by
  simp [after_run_cons s _ none false eq]

/-- A lazy run stops where it can. -/
theorem after_run_lazy (s : CharSet) (most : Option Nat) :
    (step p).or (after (.run s 0 most true) step p) = after (.run s 0 most true) step p := by
  cases eq : p.rest with
  | nil => rw [after_run_nil s 0 most true eq, if_pos rfl, Option.or_self]
  | cons c rest =>
    rw [after_run_cons s 0 most true eq]
    show (step p).or ((step p).or _) = (step p).or _
    rw [← Option.or_assoc, Option.or_self]

theorem loop_nil (part : Node) (isLazy : Bool) (least : Nat) (most : Option Nat) :
    loop part isLazy [] least most step p = if least = 0 then step p else none := findSome?_if

/-- A greedy repetition goes on or stops, and rather goes on; a part that takes something always goes on. -/
theorem loop_cons {part : Node} {c : Char} (beside : takesBeside c part = true) (d : Char) (clock : List Char)
    (least : Nat) (most : Option Nat) :
    loop part false (d :: clock) least most step p =
      (if most = some 0 then none
        else after part (loop part false clock (least - 1) (most.map (· - 1)) step) p).or
      (if least = 0 then step p else none) := by
  have further : (if most = some 0 then [] else (ends part p).flatMap fun q =>
      if p.offset < q.offset then manyEnds (ends part) false clock (least - 1) (most.map (· - 1)) q else []).findSome? step =
      if most = some 0 then none
        else after part (loop part false clock (least - 1) (most.map (· - 1)) step) p := by
    split
    · rfl
    · rw [findSome?_flatMap]
      refine findSome?_congr fun q mem => ?_
      obtain ⟨taken, h⟩ := exists_taken mem
      obtain ⟨e, inside, -⟩ := h.beside c beside
      have pos : 0 < taken.length := List.length_pos_of_mem inside
      rw [if_pos (by rw [h.leads.offset]; omega)]
      rfl
  rw [loop, manyEnds]
  by_cases zero : least = 0
  · rw [if_neg (by simpa using zero), if_pos zero, if_neg (by decide), List.findSome?_append, further, List.findSome?_singleton]
  · rw [if_pos zero, if_neg zero, further, Option.or_none]

/-- At the end of the text nothing is taken. -/
theorem after_eq_none {node : Node} {c : Char} (beside : takesBeside c node = true) (empty : ∀ d ∈ p.rest, d = c) :
    after node step p = none := by
  refine List.findSome?_eq_none_iff.mpr fun q mem => ?_
  obtain ⟨taken, h⟩ := exists_taken mem
  obtain ⟨d, inside, ne⟩ := h.beside c beside
  exact absurd (empty d (by rw [h.leads.rest]; exact List.mem_append_left _ inside)) ne

/-- With time enough on the clock, a repetition goes on or stops. -/
theorem loop_step {part : Node} {c : Char} (beside : takesBeside c part = true) {clock : List Char}
    (enough : p.rest.length ≤ clock.length) (least : Nat) (most : Option Nat) :
    loop part false clock least most step p =
      (if most = some 0 then none
        else after part (loop part false clock.tail (least - 1) (most.map (· - 1)) step) p).or
      (if least = 0 then step p else none) := by
  cases clock with
  | nil =>
    have empty : p.rest = [] := List.eq_nil_of_length_eq_zero (Nat.le_zero.mp enough)
    rw [loop_nil, after_eq_none beside (by simp [empty]), ite_self, Option.none_or]
  | cons d clock => exact loop_cons beside d clock least most

theorem after_optional {part : Node} {c : Char} (beside : takesBeside c part = true) :
    after (.many part 0 (some 1) false) step p = (after part step p).or (step p) := by
  rw [after_many]
  cases eq : p.rest with
  | nil => rw [loop_nil, if_pos rfl, after_eq_none beside (by simp [eq]), Option.none_or]
  | cons d clock =>
    have stop : loop part false clock (0 - 1) ((some 1).map (· - 1)) step = step := by
      funext q
      cases clock with
      | nil => exact loop_nil part false 0 _
      | cons e clock => exact loop_cons beside e clock 0 (some 0)
    rw [loop_cons beside, if_neg (by decide), if_pos rfl, stop]

/-! ## Searches -/

variable {node : Node} {nonEmpty : Bool} {h : Hit}

theorem exists_of_matchAt? (matched : matchAt? node nonEmpty p = some h) :
    ∃ q ∈ ends node p, h = ⟨p.offset, q.offset, q.groups⟩ := by
  obtain ⟨q, found, rfl⟩ := Option.map_eq_some_iff.mp matched
  exact ⟨q, List.mem_of_find?_eq_some found, rfl⟩

/-- A match that takes a character is the first of all, whether it is asked to take one or not. -/
theorem matchAt?_eq (any : nonEmpty = false ∨ ∃ c, takesBeside c node = true) :
    matchAt? node nonEmpty p = (after node some p).map fun q => ⟨p.offset, q.offset, q.groups⟩ := by
  rw [matchAt?, List.find?_eq_findSome?_guard]
  congr 1
  refine findSome?_congr fun q mem => ?_
  refine Option.guard_eq_some_iff.mpr ⟨rfl, ?_⟩
  rcases any with rfl | ⟨c, beside⟩
  · rfl
  · obtain ⟨taken, takes⟩ := exists_taken mem
    obtain ⟨d, inside, -⟩ := takes.beside c beside
    have pos : 0 < taken.length := List.length_pos_of_mem inside
    have moved : q.offset ≠ p.offset := by
      rw [takes.leads.offset]
      omega
    simp [moved]

/-- The first match from a place on. -/
def firstAt (node : Node) (nonEmpty : Bool) (p : Place) : Option (Hit × Place) :=
  firstFrom node nonEmpty p.before p.offset p.rest

theorem firstAt_nil (clean : p.groups = []) (empty : p.rest = []) :
    firstAt node nonEmpty p = (matchAt? node nonEmpty p).map (·, p) := by
  obtain ⟨before, offset, rest, groups⟩ := p
  obtain rfl : groups = [] := clean
  obtain rfl : rest = [] := empty
  rfl

/-- It is at the place itself, or it is the first from behind the next character on. -/
theorem firstAt_cons (clean : p.groups = []) {c : Char} {rest : List Char} (eq : p.rest = c :: rest) :
    firstAt node nonEmpty p = ((matchAt? node nonEmpty p).map (·, p)).or (firstAt node false (p.past c rest)) := by
  obtain ⟨before, offset, chars, groups⟩ := p
  obtain rfl : groups = [] := clean
  obtain rfl : chars = c :: rest := eq
  rw [firstAt, firstFrom]
  cases matchAt? node nonEmpty ⟨before, offset, c :: rest, []⟩ <;> rfl

theorem firstAt_of_match (clean : p.groups = []) (matched : matchAt? node nonEmpty p = some h) :
    firstAt node nonEmpty p = some (h, p) := by
  cases eq : p.rest with
  | nil => rw [firstAt_nil clean eq, matched]; rfl
  | cons c rest => rw [firstAt_cons clean eq, matched]; rfl

theorem leads_of_firstAt {q : Place} (clean : p.groups = []) (found : firstAt node nonEmpty p = some (h, q)) :
    (∃ passed, p.Leads passed q) ∧ q.groups = [] ∧ ∃ b, matchAt? node b q = some h := by
  generalize eq : p.rest = rest
  induction rest generalizing p nonEmpty with
  | nil =>
    rw [firstAt_nil clean eq] at found
    obtain ⟨hit, matched, same⟩ := Option.map_eq_some_iff.mp found
    cases same
    exact ⟨⟨[], .here _⟩, clean, nonEmpty, matched⟩
  | cons c rest ih =>
    cases matched : matchAt? node nonEmpty p with
    | some hit =>
      rw [firstAt_of_match clean matched] at found
      cases found
      exact ⟨⟨[], .here _⟩, clean, nonEmpty, matched⟩
    | none =>
      rw [firstAt_cons clean eq, matched, Option.map_none, Option.none_or] at found
      obtain ⟨⟨passed, leads⟩, more⟩ := ih (p := p.past c rest) clean found rfl
      exact ⟨⟨c :: passed, .trans (.past eq) leads⟩, more⟩

/-- A step over some of the characters that follow. -/
theorem leads_skip (taken : List Char) {rest : List Char} (eq : p.rest = taken ++ rest) :
    p.Leads taken (p.skip taken.length) ∧ (p.skip taken.length).groups = p.groups := by
  induction taken generalizing p with
  | nil =>
    cases p
    exact ⟨.here _, rfl⟩
  | cons c taken ih =>
    obtain ⟨before, offset, chars, groups⟩ := p
    obtain rfl : chars = c :: (taken ++ rest) := eq
    obtain ⟨leads, same⟩ := ih (p := ⟨some c, offset + 1, taken ++ rest, groups⟩) rfl
    exact ⟨Place.Leads.trans (.past rfl) leads, same⟩

/-- Behind a match the search goes on with the rest of the text, and with the groups that were there. -/
theorem exists_skip {q : Place} (mem : q ∈ ends node p) : ∃ taken, Takes node p taken q ∧
    p.Leads taken (p.skip (q.offset - p.offset)) ∧ (p.skip (q.offset - p.offset)).groups = p.groups := by
  obtain ⟨taken, takes⟩ := exists_taken mem
  have width : q.offset - p.offset = taken.length := by rw [takes.leads.offset, Nat.add_sub_cancel_left]
  rw [width]
  exact ⟨taken, takes, leads_skip taken takes.leads.rest⟩

/-- A match in a text starts at one of its places and ends at one where the expression can. -/
def Matches (node : Node) (text : List Char) (h : Hit) : Prop :=
  ∃ p q, p.In text ∧ p.groups = [] ∧ q ∈ ends node p ∧ h = ⟨p.offset, q.offset, q.groups⟩

/-- Every match of a search is the preferred one where it starts. -/
theorem matchAt?_of_mem_allFrom {steps : Nat} (inside : p.In text) (clean : p.groups = [])
    (mem : h ∈ allFrom node steps nonEmpty p) : ∃ q b, q.In text ∧ q.groups = [] ∧ matchAt? node b q = some h := by
  induction steps generalizing p nonEmpty with
  | zero => cases mem
  | succ steps ih =>
    rw [allFrom] at mem
    cases found : firstFrom node nonEmpty p.before p.offset p.rest with
    | none =>
      rw [found] at mem
      cases mem
    | some hit =>
      obtain ⟨first, q⟩ := hit
      rw [found] at mem
      obtain ⟨⟨passed, leads⟩, clean', b, matched⟩ := leads_of_firstAt clean found
      have there : q.In text := inside.leads leads
      rcases List.mem_cons.mp mem with rfl | later
      · exact ⟨q, b, there, clean', matched⟩
      · obtain ⟨r, end_, rfl⟩ := exists_of_matchAt? matched
        obtain ⟨taken, -, ahead, kept⟩ := exists_skip end_
        exact ih (there.leads ahead) (kept.trans clean') later

theorem matches_of_mem_all {r : Regex} (mem : h ∈ r.all text) : Matches r.node text h := by
  obtain ⟨p, b, inside, clean, matched⟩ := matchAt?_of_mem_allFrom (Place.in_startOf text) rfl mem
  obtain ⟨q, end_, rfl⟩ := exists_of_matchAt? matched
  exact ⟨p, q, inside, clean, end_, rfl⟩

/-- Where every match takes a character, each that is found is the first at its place. -/
theorem after_of_mem_all {r : Regex} {c : Char} (beside : takesBeside c r.node = true) (mem : h ∈ r.all text) :
    ∃ p q, p.In text ∧ p.groups = [] ∧ after r.node some p = some q ∧ h = ⟨p.offset, q.offset, q.groups⟩ := by
  obtain ⟨p, b, inside, clean, matched⟩ := matchAt?_of_mem_allFrom (Place.in_startOf text) rfl mem
  rw [matchAt?_eq (.inr ⟨c, beside⟩)] at matched
  obtain ⟨q, first, rfl⟩ := Option.map_eq_some_iff.mp matched
  exact ⟨p, q, inside, clean, first, rfl⟩

theorem matches_of_atStart? {r : Regex} (matched : r.atStart? text = some h) : Matches r.node text h := by
  obtain ⟨q, mem, eq⟩ := exists_of_matchAt? matched
  exact ⟨startOf text, q, Place.in_startOf text, rfl, mem, eq⟩

/-- Every match ends in the character. -/
def endsIn (c : Char) : Node → Bool
  | .set s => s = .one c
  | .seq _ second => endsIn c second
  | .alt first second => endsIn c first && endsIn c second
  | .group _ part => endsIn c part
  | _ => false

theorem before_of_endsIn {node : Node} {c : Char} {q : Place} (last : endsIn c node = true) (mem : q ∈ ends node p) :
    q.before = some c := by
  induction node generalizing p q with
  | set s =>
    obtain rfl : s = .one c := of_decide_eq_true last
    obtain ⟨d, rest, -, inside, rfl⟩ := mem_ends_set.mp mem
    rw [CharSet.contains_one] at inside
    exact congrArg some (of_decide_eq_true inside)
  | seq first second _ ih =>
    obtain ⟨r, -, late⟩ := List.mem_flatMap.mp mem
    exact ih last late
  | alt first second ih ih' =>
    obtain ⟨one, other⟩ := (Bool.and_eq_true _ _).mp last
    exact (List.mem_append.mp mem).elim (ih one) (ih' other)
  | group n part ih =>
    obtain ⟨r, inner, rfl⟩ := List.mem_map.mp mem
    exact (ih last inner : r.before = some c)
  | _ => cases last

theorem Matches.drop_of_endsIn {node : Node} {c : Char} (matched : Matches node text h) (last : endsIn c node = true) :
    ∃ n rest, h.stop = n + 1 ∧ text.drop n = c :: rest := by
  obtain ⟨p, q, inside, -, mem, rfl⟩ := matched
  have inside' : q.In text := inside.ends mem
  obtain ⟨init, front⟩ := inside'.split (before_of_endsIn last mem)
  have width := congrArg List.length front
  rw [List.length_take, Nat.min_eq_left inside'.le, List.length_append, List.length_singleton] at width
  refine ⟨init.length, text.drop q.offset, width, ?_⟩
  have whole := List.take_append_drop q.offset text
  rw [front, List.append_assoc] at whole
  calc text.drop init.length = (init ++ ([c] ++ text.drop q.offset)).drop init.length := by rw [whole]
    _ = c :: text.drop q.offset := List.drop_left

end CodeHygiene.Regex
