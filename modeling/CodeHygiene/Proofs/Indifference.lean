import CodeHygiene.Proofs.Sight

/-!
Expressions that returns make no difference to.

Proved:
(1) Where an expression is seen alike everywhere, its matches in a text with returns stand for those without them:
    the one at the start (`atStart?_thin`), the first (`firstAt_thin`), and all of them (`all_thin`), so it occurs in
    both texts or in neither (`occursIn_thin`).
(2) A group captures without returns what it captures with them, less the returns (`Hit.groupText?_thinned`); none are
    in it where its expression takes none, or something follows it on its line (`groupText?_of_free`).
-/

namespace CodeHygiene.Regex

open Text (thin thinOffset ReturnsEndLines)

variable {text : List Char} {p q : Place}

/-! ## Searches -/

/-- The match in the thin text. -/
def Hit.thinned (text : List Char) (h : Hit) : Hit where
  start := thinOffset text h.start
  stop := thinOffset text h.stop
  groups := h.groups.map fun entry => (entry.1, entry.2.thinned text)

/-- An expression that returns make no difference to, in texts of one line if `single` says so. -/
def indifferent (single : Bool) (node : Node) : Bool :=
  takesBeside '\r' node && sight single node .unknown .full = some .full

/-- Of a text that may have several lines nothing is asked. -/
theorem severalLines (text : List Char) : false = true → '\n' ∉ text := fun no => absurd no Bool.false_ne_true

section
variable {single : Bool} {node : Node}

theorem seesAt_some (p : Place) : SeesAt text .full some some p := Agrees.seesAt rfl

/-- At the start of a text nothing stands behind a return. -/
theorem atStart?_thin (lines : ReturnsEndLines text) (alone : single = true → '\n' ∉ text) {r : Regex} {k : Sight}
    (known : sight single r.node .unknown .full = some k) (opened : k.atReturn = true) :
    r.atStart? (thin text) = (r.atStart? text).map (Hit.thinned text) := by
  have agrees : Agrees text (after r.node some) (after r.node some) (startOf text) :=
    (seesAt_after lines alone known (follows_unknown some) (fun q _ => seesAt_some q) (Place.in_startOf text)).exact
      ⟨fun _ => opened, fun no => nomatch no⟩
  have there : (startOf text).thinned text = startOf (thin text) := rfl
  rw [Agrees, there] at agrees
  rw [atStart?, atStart?, matchAt?_eq (.inl rfl), matchAt?_eq (.inl rfl), ← agrees, Option.map_map, Option.map_map]
  rfl

theorem matchAt?_thin (lines : ReturnsEndLines text) (alone : single = true → '\n' ∉ text)
    (same : indifferent single node = true) (h : p.In text) (nonEmpty nonEmpty' : Bool) :
    matchAt? node nonEmpty (p.thinned text) = (matchAt? node nonEmpty' p).map (Hit.thinned text) := by
  obtain ⟨beside, known⟩ := (Bool.and_eq_true _ _).mp same
  have agrees : Agrees text (after node some) (after node some) p :=
    (seesAt_after lines alone (of_decide_eq_true known) (follows_unknown some) (fun q _ => seesAt_some q) h).exact
      (Sight.shows_full p)
  rw [Agrees] at agrees
  rw [matchAt?_eq (.inr ⟨_, beside⟩), matchAt?_eq (.inr ⟨_, beside⟩), ← agrees, Option.map_map, Option.map_map]
  rfl

theorem firstAt_thin (lines : ReturnsEndLines text) (alone : single = true → '\n' ∉ text)
    (same : indifferent single node = true) (h : p.In text) (clean : p.groups = []) (nonEmpty nonEmpty' : Bool) :
    firstAt node nonEmpty (p.thinned text) =
      (firstAt node nonEmpty' p).map fun found => (found.1.thinned text, found.2.thinned text) := by
  generalize eq : p.rest = rest
  induction rest generalizing p nonEmpty nonEmpty' with
  | nil =>
    have clean' : (p.thinned text).groups = [] := by rw [Place.thinned, clean]; rfl
    rw [firstAt_nil clean eq, firstAt_nil clean' (h.thinned_nil eq), matchAt?_thin lines alone same h nonEmpty nonEmpty',
      Option.map_map, Option.map_map]
    rfl
  | cons c rest ih =>
    have clean' : (p.thinned text).groups = [] := by rw [Place.thinned, clean]; rfl
    have here := matchAt?_thin lines alone same h nonEmpty nonEmpty'
    cases matched : matchAt? node nonEmpty' p with
    | some hit =>
      rw [matched] at here
      rw [firstAt_of_match clean matched, firstAt_of_match clean' here]
      rfl
    | none =>
      rw [matched] at here
      rw [firstAt_cons clean eq, matched]
      by_cases other : c = '\r'
      · subst other
        -- Behind the return the same place is looked at again.
        rw [← h.thinned_past_return eq]
        exact ih (h.past eq) clean nonEmpty false rfl
      · rw [firstAt_cons clean' (h.thinned_cons eq other), here, ← h.thinned_past eq other]
        exact ih (h.past eq) clean false false rfl

/-- A step over a piece of the text is one over that piece without its returns. -/
theorem skip_thinned (h : p.In text) {taken : List Char} (leads : p.Leads taken q) :
    (p.thinned text).skip (thinOffset text q.offset - thinOffset text p.offset) =
      (p.skip (q.offset - p.offset)).thinned text := by
  have behind : text.drop p.offset = taken ++ q.rest := h.rest.symm.trans leads.rest
  have width : q.offset - p.offset = taken.length := by rw [leads.offset, Nat.add_sub_cancel_left]
  have offset : thinOffset text q.offset = thinOffset text p.offset + (thin taken).length := by
    rw [leads.offset, Text.thinOffset_add, behind, List.take_left]
  have split : (p.thinned text).rest = thin taken ++ thin q.rest := by rw [h.thinned_rest, leads.rest, Text.thin_append]
  rw [width, offset, Nat.add_sub_cancel_left]
  obtain ⟨ahead, kept⟩ := leads_skip taken leads.rest
  obtain ⟨ahead', kept'⟩ := leads_skip (thin taken) split
  refine ((p.thinned_in text).leads ahead').ext (Place.thinned_in text _) ?_ ?_
  · show _ = thinOffset text (p.skip taken.length).offset
    rw [ahead'.offset, ahead.offset, ← leads.offset]
    exact offset.symm
  · rw [kept', Place.thinned, Place.thinned, kept]

theorem allFrom_thin (lines : ReturnsEndLines text) (alone : single = true → '\n' ∉ text)
    (same : indifferent single node = true) {steps steps' : Nat} (nonEmpty nonEmpty' : Bool) (h : p.In text)
    (clean : p.groups = []) (enough : (thin p.rest).length < steps) (enough' : (thin p.rest).length < steps') :
    allFrom node steps nonEmpty (p.thinned text) = (allFrom node steps' nonEmpty' p).map (Hit.thinned text) := by
  induction steps' generalizing steps p nonEmpty nonEmpty' with
  | zero => exact absurd enough' (Nat.not_lt_zero _)
  | succ steps' ih =>
    obtain ⟨steps, rfl⟩ : ∃ n, steps = n + 1 := ⟨steps - 1, by omega⟩
    have first := firstAt_thin lines alone same h clean nonEmpty nonEmpty'
    rw [firstAt, firstAt] at first
    rw [allFrom, allFrom, first]
    cases found : firstFrom node nonEmpty' p.before p.offset p.rest with
    | none => rfl
    | some hit =>
      obtain ⟨hit, q⟩ := hit
      obtain ⟨⟨passed, leads⟩, clean', b, matched⟩ := leads_of_firstAt clean found
      obtain ⟨e, mem, rfl⟩ := exists_of_matchAt? matched
      obtain ⟨taken, takes, ahead, kept⟩ := exists_skip mem
      have inside : q.In text := h.leads leads
      -- A match takes a character that the thin text has as well.
      have fewer : (thin (q.skip (e.offset - q.offset)).rest).length < (thin p.rest).length := by
        obtain ⟨d, some, ne⟩ := takes.beside '\r' ((Bool.and_eq_true _ _).mp same).1
        have pos : 0 < (thin taken).length := List.length_pos_of_mem (Text.mem_thin.mpr ⟨some, ne⟩)
        have split := congrArg (fun rest => (thin rest).length) (leads.trans ahead).rest
        simp only [Text.thin_append, List.length_append] at split
        omega
      show _ :: allFrom _ _ _ ((q.thinned text).skip (thinOffset text e.offset - thinOffset text q.offset)) = _ :: _
      rw [skip_thinned inside takes.leads]
      exact congrArg _ (ih _ _ (inside.leads ahead) (kept.trans clean') (by omega) (by omega))

theorem all_thin (lines : ReturnsEndLines text) (alone : single = true → '\n' ∉ text) {r : Regex}
    (same : indifferent single r.node = true) : r.all (thin text) = (r.all text).map (Hit.thinned text) := by
  have shorter := Text.length_thin_le text
  refine allFrom_thin lines alone same false false (Place.in_startOf text) rfl ?_ ?_
  · show (thin text).length < _
    omega
  · show (thin text).length < _
    omega

theorem occursIn_thin (lines : ReturnsEndLines text) (alone : single = true → '\n' ∉ text) {r : Regex}
    (same : indifferent single r.node = true) : r.occursIn (thin text) = r.occursIn text := by
  have first := firstAt_thin lines alone same (Place.in_startOf text) rfl false false
  have at_start : firstFrom r.node false none 0 (thin text) = _ := first
  rw [occursIn, occursIn, search?, search?, at_start, Option.map_map, Option.isSome_map, Option.isSome_map]
  rfl

end

/-! ## Groups -/

/-- The group holds no return: none of its sets does, or it stays on a line and something else follows it there
(`ahead` says so of what follows the whole). -/
def returnFree (single : Bool) (n : Nat) : Node → Bool → Bool
  | .seq first second, ahead =>
    returnFree single n first (follow ⟨ahead, false⟩ second).ink && returnFree single n second ahead
  | .alt first second, ahead => returnFree single n first ahead && returnFree single n second ahead
  | .many part _ _ _, ahead => returnFree single n part (ahead && (follow .unknown part).ink)
  | .group m part, ahead =>
    returnFree single n part ahead &&
      (m ≠ n || avoids '\r' part || (ahead && (single || avoids '\n' part)))
  | _, _ => true

/-- The texts of a group so far. -/
def GroupFree (text : List Char) (n : Nat) (groups : List (Nat × Span)) : Prop :=
  ∀ s, (n, s) ∈ groups → '\r' ∉ Text.slice text s.start s.stop

section
variable {single : Bool} {n : Nat}

theorem not_endsLine_of_mem {node : Node} {ahead : Bool} (ink : (follow ⟨ahead, false⟩ node).ink = true)
    (mem : q ∈ ends node p) (more : ahead = true → q.endsLine = false) : p.endsLine = false := by
  by_contra ended
  have ended : p.endsLine = true := by simpa using ended
  let step (r : Place) : Option Place := if ahead = true ∧ r.endsLine = true then none else some r
  have follows : Follows ⟨ahead, false⟩ step := .of_ink (φ := ⟨ahead, false⟩) fun given r ended => if_pos ⟨given, ended⟩
  have nothing : step q = none := List.findSome?_eq_none_iff.mp ((follows_after follows).ink ink p ended) q mem
  have stands : ¬(ahead = true ∧ q.endsLine = true) := fun both => by
    rw [more both.1] at both
    cases both.2
  rw [show step q = some q from if_neg stands] at nothing
  cases nothing

/-- What stays on a line, with something behind it there, holds no return. -/
theorem not_mem_of_leads (lines : ReturnsEndLines text) (h : p.In text) {taken : List Char} (leads : p.Leads taken q)
    (more : q.endsLine = false) (line : '\n' ∉ taken) : '\r' ∉ taken := by
  have behind := lines.drop p.offset
  rw [← h.rest, leads.rest] at behind
  cases eq : q.rest with
  | nil => simp [Place.endsLine, eq] at more
  | cons c rest =>
    have feed : c ≠ '\n' := by simpa [Place.endsLine, eq] using more
    rw [eq] at behind
    exact Text.not_mem_of_followed behind line feed

theorem not_mem_of_mem_ends (lines : ReturnsEndLines text) (alone : single = true → '\n' ∉ text) {part : Node} {ahead : Bool}
    (own : avoids '\r' part = true ∨ ahead = true ∧ (single = true ∨ avoids '\n' part = true)) (h : p.In text)
    (mem : q ∈ ends part p) (more : ahead = true → q.endsLine = false) : '\r' ∉ Text.slice text p.offset q.offset := by
  obtain ⟨taken, takes⟩ := exists_taken mem
  rw [h.slice takes.leads]
  rcases own with away | ⟨given, line⟩
  · exact takes.avoids _ away
  · refine not_mem_of_leads lines h takes.leads (more given) ?_
    rcases line with one | away
    · intro inside
      have among : '\n' ∈ p.rest := by rw [takes.leads.rest]; exact List.mem_append_left _ inside
      exact alone one (List.mem_of_mem_drop (h.rest ▸ among))
    · exact takes.avoids _ away

/-- What follows a repetition is the next one, or what follows them all. -/
theorem groupFree_of_mem_manyEnds {part : Node} {ahead isLazy : Bool} {clock : List Char} {least : Nat} {most : Option Nat}
    (each : ∀ {p q}, p.In text → q ∈ ends part p → ((ahead && (follow .unknown part).ink) = true → q.endsLine = false) →
      GroupFree text n p.groups → GroupFree text n q.groups)
    (h : p.In text) (mem : q ∈ manyEnds (ends part) isLazy clock least most p) (more : ahead = true → q.endsLine = false)
    (clean : GroupFree text n p.groups) : GroupFree text n q.groups := by
  induction clock generalizing p least most with
  | nil =>
    obtain ⟨-, rfl⟩ | ⟨_, _, no, -⟩ := mem_manyEnds_iff.mp mem
    · exact clean
    · cases no
  | cons _ clock ih =>
    obtain ⟨-, rfl⟩ | ⟨_, _, same, -, r, first, -, others⟩ := mem_manyEnds_iff.mp mem
    · exact clean
    · cases same
      have behind : (ahead && (follow .unknown part).ink) = true → r.endsLine = false := by
        intro both
        obtain ⟨given, ink⟩ := (Bool.and_eq_true _ _).mp both
        obtain ⟨-, rfl⟩ | ⟨_, _, -, -, _, next, -⟩ := mem_manyEnds_iff.mp others
        · exact more given
        · exact not_endsLine_of_mem (show (follow ⟨false, false⟩ part).ink = true from ink) next fun no => nomatch no
      exact ih (h.ends first) others (each h first behind clean)

theorem groupFree_of_mem_ends (lines : ReturnsEndLines text) (alone : single = true → '\n' ∉ text) {node : Node} {ahead : Bool}
    (free : returnFree single n node ahead = true) (h : p.In text) (mem : q ∈ ends node p)
    (more : ahead = true → q.endsLine = false) (clean : GroupFree text n p.groups) : GroupFree text n q.groups := by
  induction node generalizing p q ahead with
  | seq first second ih ih' =>
    obtain ⟨free, free'⟩ := (Bool.and_eq_true _ _).mp free
    obtain ⟨r, early, late⟩ := List.mem_flatMap.mp mem
    exact ih' free' (h.ends early) late more (ih free h early (fun ink => not_endsLine_of_mem ink late more) clean)
  | alt first second ih ih' =>
    obtain ⟨free, free'⟩ := (Bool.and_eq_true _ _).mp free
    exact (List.mem_append.mp mem).elim (fun one => ih free h one more clean) fun other => ih' free' h other more clean
  | many part least most isLazy ih => exact groupFree_of_mem_manyEnds (ih free) h mem more clean
  | group m part ih =>
    obtain ⟨r, inner, rfl⟩ := List.mem_map.mp mem
    obtain ⟨within, own⟩ := (Bool.and_eq_true _ _).mp free
    intro s listed
    rcases List.mem_cons.mp listed with here | before
    · obtain ⟨rfl, rfl⟩ := Prod.mk.inj here
      exact not_mem_of_mem_ends lines alone (by simpa using own) h inner more
    · exact ih within h inner more clean s before
  | _ => rwa [groups_of_mem_ends rfl mem]

namespace Hit

variable {h : Hit}

theorem group?_thinned (text : List Char) (h : Hit) (n : Nat) :
    (h.thinned text).group? n = (h.group? n).map (Span.thinned text) := by
  rw [group?, group?, thinned]
  induction h.groups with
  | nil => rfl
  | cons entry rest ih =>
    obtain ⟨m, s⟩ := entry
    rw [List.map_cons, List.lookup_cons, List.lookup_cons, ih]
    cases n == m <;> rfl

theorem text_thinned (text : List Char) (h : Hit) : (h.thinned text).text (thin text) = thin (h.text text) :=
  (Text.thin_slice text h.start h.stop).symm

theorem groupText?_thinned (text : List Char) (h : Hit) (n : Nat) :
    (h.thinned text).groupText? (thin text) n = (h.groupText? text n).map thin := by
  rw [groupText?, groupText?, group?_thinned, Option.map_map, Option.map_map]
  exact Option.map_congr fun s _ => (Text.thin_slice text s.start s.stop).symm

end Hit

/-- The text of a group without returns is the same in both texts. -/
theorem groupText?_of_free (lines : ReturnsEndLines text) (alone : single = true → '\n' ∉ text) {r : Regex}
    (free : returnFree single n r.node false = true) {h : Hit}
    (found : Matches r.node text h) :
    (h.thinned text).groupText? (thin text) n = h.groupText? text n := by
  obtain ⟨p, q, inside, clean, mem, rfl⟩ := found
  have none : GroupFree text n p.groups := by
    rw [clean]
    exact fun s listed => absurd listed List.not_mem_nil
  have all := groupFree_of_mem_ends lines alone free inside mem (fun no => absurd no Bool.false_ne_true) none
  rw [Hit.groupText?_thinned]
  cases listed : Hit.groupText? ⟨p.offset, q.offset, q.groups⟩ text n with
  | none => rfl
  | some part =>
    obtain ⟨s, among, rfl⟩ := Option.map_eq_some_iff.mp listed
    obtain ⟨before, after, eq, -⟩ := List.lookup_eq_some_iff.mp among
    have listed : (n, s) ∈ q.groups := (congrArg ((n, s) ∈ ·) eq).mpr (by simp)
    rw [Option.map_some, Text.thin_eq_self (all s listed)]

end

end CodeHygiene.Regex
