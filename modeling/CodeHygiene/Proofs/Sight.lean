import CodeHygiene.Proofs.Thinned

/-!
Which expressions match alike in a text with returns and in the same text without them.

A step agrees at a place if its result in the text with returns stands for its result without them (`Agrees`). Many
steps do so but for the two places at the end of a line that stand for one; a `Sight` tells at which of the two a step
does all the same. `sight` computes it for an expression from what is known of the step behind it, or gives up. No
step is ever taken to have a result of its own in the text with returns (`SeesAt.tidy`).

Proved:
(1) For each part of an expression, what is computed is so: sets (`seesAt_set`), runs (`seesAt_run`), conditions
    (`seesAt_anchor`), and repetitions (`seesAt_many`), by induction on what is left of the text.
(2) So it is for every expression (`seesAt_after`).
-/

namespace CodeHygiene.Regex

open Text (thin thinOffset ReturnsEndLines)

variable {text : List Char} {p q : Place}

/-! ## What is seen alike -/

/-- Where a step is seen alike: at the two places at the end of a line, before a return and behind it. It is
at all others. -/
structure Sight where
  atReturn : Bool
  behind : Bool
  deriving DecidableEq, Repr

namespace Sight

def full : Sight := ⟨true, true⟩

/-- Whether the place is one where it is seen alike. -/
def shows (k : Sight) (p : Place) : Prop :=
  (p.rest.head? = some '\r' → k.atReturn = true) ∧ (p.before = some '\r' → k.behind = true)

theorem shows_full (p : Place) : full.shows p := ⟨fun _ => rfl, fun _ => rfl⟩

end Sight

/-- The result in the text with returns stands for that without them. -/
def Agrees (text : List Char) (step' step : Place → Option Place) (p : Place) : Prop :=
  (step' p).map (·.thinned text) = step (p.thinned text)

structure SeesAt (text : List Char) (k : Sight) (step' step : Place → Option Place) (p : Place) : Prop where
  /-- No result is made up. -/
  tidy : step' p = none ∨ Agrees text step' step p
  exact : k.shows p → Agrees text step' step p

section
variable {step step' other other' : Place → Option Place} {k : Sight}

theorem Agrees.seesAt (h : Agrees text step' step p) : SeesAt text k step' step p := ⟨.inr h, fun _ => h⟩

theorem agrees_none (no' : step' p = none) (no : step (p.thinned text) = none) : Agrees text step' step p := by
  rw [Agrees, no', no]
  rfl

theorem Agrees.none_iff (h : Agrees text step' step p) : step' p = none ↔ step (p.thinned text) = none := by
  rw [← h, Option.map_eq_none_iff]

/-- Where nothing follows in the text without returns, nothing does in the one with them. -/
theorem SeesAt.none (h : SeesAt text k step' step p) (no : step (p.thinned text) = none) : step' p = none :=
  h.tidy.elim id fun agrees => agrees.none_iff.mpr no

theorem SeesAt.congr (h : SeesAt text k step' step p) (same' : other' p = step' p)
    (same : other (p.thinned text) = step (p.thinned text)) : SeesAt text k other' other p := by
  obtain ⟨tidy, exact⟩ := h
  rw [Agrees, ← same', ← same] at tidy exact
  exact ⟨tidy, exact⟩

theorem Agrees.or (h : Agrees text step' step p) (h' : Agrees text other' other p) :
    Agrees text (fun q => (step' q).or (other' q)) (fun q => (step q).or (other q)) p := by
  show ((step' p).or (other' p)).map _ = (step _).or (other _)
  rw [← h, ← h']
  cases step' p <;> rfl

theorem Agrees.guard {c : Prop} [Decidable c] (h : c → Agrees text step' step p) :
    Agrees text (fun q => if c then step' q else none) (fun q => if c then step q else none) p := by
  show Option.map _ (if _ then _ else _) = if _ then _ else _
  split
  next holds => exact h holds
  next => rfl

/-- What is seen alike everywhere, and something after it. -/
theorem Agrees.or_seesAt (h : Agrees text step' step p) (h' : SeesAt text k other' other p) :
    SeesAt text k (fun q => (step' q).or (other' q)) (fun q => (step q).or (other q)) p := by
  refine ⟨?_, fun shows => h.or (h'.exact shows)⟩
  rcases h'.tidy with no | agrees
  · cases first : step' p with
    | none => exact .inl (by rw [no]; rfl)
    | some r =>
      refine .inr ?_
      show ((step' p).or (other' p)).map _ = (step _).or (other _)
      rw [← h, first]
      rfl
  · exact .inr (h.or agrees)

/-- The step behind a repetition, which is taken when the repetition may end. -/
theorem SeesAt.stop (h : SeesAt text k step' step p) {least : Nat} {k' : Sight} (same : least = 0 → k' = k) :
    SeesAt text k' (fun q => if least = 0 then step' q else Option.none) (fun q => if least = 0 then step q else Option.none) p := by
  by_cases zero : least = 0
  · rw [same zero]
    exact h.congr (if_pos zero) (if_pos zero)
  · exact (agrees_none (if_neg zero) (if_neg zero)).seesAt

/-- A step that is taken only under a condition, where the condition without returns is not the stronger one. -/
theorem seesAt_if (c c' : Prop) [Decidable c] [Decidable c'] {k' : Sight} (h : SeesAt text k step' step p) (weaker : c' → c)
    (alike : k'.shows p → ((c ↔ c') ∧ k.shows p) ∨ step (p.thinned text) = none) (same' : other' p = if c' then step' p else none)
    (same : other (p.thinned text) = if c then step (p.thinned text) else none) : SeesAt text k' other' other p := by
  have blank (no : step (p.thinned text) = none) : Agrees text other' other p := by
    refine agrees_none ?_ ?_
    · rw [same', h.none no, ite_self]
    · rw [same, no, ite_self]
  by_cases holds' : c'
  · rw [if_pos holds'] at same'
    rw [if_pos (weaker holds')] at same
    refine ⟨(h.congr same' same).tidy, fun shows => ?_⟩
    rcases alike shows with ⟨-, inner⟩ | no
    · exact (h.congr same' same).exact inner
    · exact blank no
  · rw [if_neg holds'] at same'
    refine ⟨.inl same', fun shows => ?_⟩
    rcases alike shows with ⟨iff, -⟩ | no
    · rw [if_neg fun holds => holds' (iff.mp holds)] at same
      exact agrees_none same' same
    · exact blank no

end

/-! ## What an expression sees -/

def setSight (s : CharSet) (φ : Follow) (k : Sight) : Option Sight :=
  if !k.atReturn then none
  else if !s.contains '\r' then some ⟨!s.contains '\n', true⟩
  else if !s.contains '\n' && φ.ink then some .full
  else none

def runSight (s : CharSet) (least : Nat) (most : Option Nat) (isLazy : Bool) (φ : Follow) (k : Sight) : Option Sight :=
  if s.contains '\r' then
    if most ≠ none || !(k.atReturn || k.behind) || (isLazy && k ≠ .full) then none
    else if least = 0 then some ⟨true, k.behind⟩
    else if least = 1 && !isLazy && (φ.ink || (φ.glides && s.contains '\n')) then some .full
    else none
  else if s.contains '\n' || !k.atReturn then none
  else some (if least = 0 then k else .full)

/-- `single` says that the text is one line. -/
def anchorSight (single : Bool) (a : Anchor) (φ : Follow) (k : Sight) : Option Sight :=
  match a with
  | .textStart | .lineStart | .wordBoundary => some ⟨k.atReturn, φ.ink⟩
  | .textEnd => if single then some ⟨φ.ink, k.behind⟩ else none
  | .lineEnd => some ⟨φ.ink, k.behind⟩

/-- What is known of the step after a part that is repeated: the step itself, or the part again. -/
def loopFollow (part : Node) (least : Nat) (most : Option Nat) (φ : Follow) : Follow :=
  if least = 0 ∧ most = some 1 then φ else ⟨φ.ink && (follow .unknown part).ink, false⟩

/-- Where an expression before a step is seen alike. -/
def sight (single : Bool) : Node → Follow → Sight → Option Sight
  | .empty, _, k => some k
  | .set s, φ, k => setSight s φ k
  | .seq first second, φ, k => (sight single second φ k).bind (sight single first (follow φ second))
  | .alt first second, φ, k => if sight single first φ k = some .full then sight single second φ k else none
  | .run s least most isLazy, φ, k => runSight s least most isLazy φ k
  | .many part least most isLazy, φ, k =>
    let inner := loopFollow part least most φ
    if !isLazy && (takesBeside '\r' part || (inner.ink && takesBeside '\n' part)) &&
      sight single part inner k = some .full then some k
    else none
  | .group _ part, φ, k => sight single part ⟨φ.ink, false⟩ k
  | .anchor a, φ, k => anchorSight single a φ k
  | .notAhead part, _, k => if sight single part .unknown .full = some .full then some k else none
  | .notBehind _, _, _ => none

section
variable {step step' : Place → Option Place} {φ : Follow} {k k' : Sight} {single : Bool}

theorem shows_past {c : Char} {rest : List Char} (open_ : k.atReturn = true) (ne : c ≠ '\r') : k.shows (p.past c rest) :=
  ⟨fun _ => open_, fun same => absurd (Option.some.inj same) ne⟩

theorem seesAt_set (lines : ReturnsEndLines text) {s : CharSet} (known : setSight s φ k = some k') (follows : Follows φ step)
    (sees : ∀ p, p.In text → SeesAt text k step' step p) (h : p.In text) :
    SeesAt text k' (after (.set s) step') (after (.set s) step) p := by
  rw [setSight] at known
  split at known
  next => cases known
  next opened =>
  have opened : k.atReturn = true := by simpa using opened
  cases eq : p.rest with
  | nil => exact (agrees_none (after_set_nil s eq) (after_set_nil s (h.thinned_nil eq))).seesAt
  | cons c rest =>
    by_cases ret : c = '\r'
    · subst ret
      have ended := h.endsLine_at_return lines eq
      have skip (away : s.contains '\n' = false) : after (.set s) step (p.thinned text) = none :=
        after_set_outside (Place.any_head_of_endsLine away ended)
      split at known
      next without =>
        have without : s.contains '\r' = false := by simpa using without
        obtain rfl := Option.some.inj known
        have none' : after (.set s) step' p = none := by rw [after_set_cons s eq, without, if_neg Bool.false_ne_true]
        exact ⟨.inl none', fun shows => agrees_none none' (skip (by simpa using shows.1 (by rw [eq]; rfl)))⟩
      next among =>
        split at known
        next ink =>
          obtain ⟨away, ink⟩ := (Bool.and_eq_true _ _).mp ink
          have none : step ((p.past '\r' rest).thinned text) = none := by
            rw [h.thinned_past_return eq]
            exact follows.ink ink _ ended
          have none' : after (.set s) step' p = Option.none := by
            rw [after_set_cons s eq, (sees _ (h.past eq)).none none, ite_self]
          exact (agrees_none none' (skip (by simpa using away))).seesAt
        next => cases known
    · have further := (sees _ (h.past eq)).exact (shows_past opened ret)
      rw [Agrees, h.thinned_past eq ret] at further
      refine Agrees.seesAt ?_
      rw [Agrees, after_set_cons s eq, after_set_cons s (h.thinned_cons eq ret)]
      split
      next => exact further
      next => rfl

/-! ### Runs -/

/-- A run of a set without the characters that end lines goes on alike and stops alike. -/
theorem seesAt_run_inside (lines : ReturnsEndLines text) {s : CharSet} (ret : s.contains '\r' = false)
    (feed : s.contains '\n' = false) (opened : k.atReturn = true) (sees : ∀ p, p.In text → SeesAt text k step' step p)
    (isLazy : Bool) (least : Nat) (most : Option Nat) (h : p.In text) :
    SeesAt text (if least = 0 then k else .full) (after (.run s least most isLazy) step')
      (after (.run s least most isLazy) step) p := by
  have here (least : Nat) {p : Place} (h : p.In text) : SeesAt text (if least = 0 then k else .full)
      (fun q => if least = 0 then step' q else none) (fun q => if least = 0 then step q else none) p :=
    (sees p h).stop fun zero => if_pos zero
  generalize eq : p.rest = rest
  induction rest generalizing p least most with
  | nil =>
    exact (here least h).congr (after_run_nil s least most isLazy eq) (after_run_nil s least most isLazy (h.thinned_nil eq))
  | cons c rest ih =>
    cases inside : s.contains c with
    | false =>
      have outside : p.rest.head?.any s.contains = false := by rw [eq]; exact inside
      have outside' := (h.any_head_thinned lines ret feed).trans outside
      exact (here least h).congr (after_run_outside outside) (after_run_outside outside')
    | true =>
      have other : c ≠ '\r' := fun same => by
        rw [same, ret] at inside
        cases inside
      have before := h.before_ne lines eq fun same => by
        rw [same, feed] at inside
        cases inside
      have stop : Agrees text (fun q => if least = 0 then step' q else none) (fun q => if least = 0 then step q else none) p := by
        refine (here least h).exact ⟨fun head => ?_, fun behind => absurd behind before⟩
        rw [eq] at head
        exact absurd (Option.some.inj head) other
      have go : Agrees text (fun q => if (most ≠ some 0 && s.contains c) = true then
            after (.run s (least - 1) (most.map (· - 1)) isLazy) step' (q.past c rest) else none)
          (fun q => if (most ≠ some 0 && s.contains c) = true then
            after (.run s (least - 1) (most.map (· - 1)) isLazy) step (q.past c (thin rest)) else none) p := by
        refine Agrees.guard fun _ => ?_
        have further := (ih (least - 1) (most.map (· - 1)) (h.past eq) rfl).exact (by
          split
          · exact shows_past opened other
          · exact Sight.shows_full _)
        rwa [Agrees, h.thinned_past eq other] at further
      refine Agrees.seesAt ?_
      rw [Agrees, after_run_cons s least most isLazy eq, after_run_cons s least most isLazy (h.thinned_cons eq other)]
      cases isLazy with
      | true => exact stop.or go
      | false => exact go.or stop

/-- How a greedy run that may be empty, of a set with the return, is seen before a step: alike, but for a place behind a
return where the step is not. There it may have no result where the other text has one, but then that one ends there. -/
structure SeesRun (text : List Char) (s : CharSet) (k : Sight) (step' step : Place → Option Place) (p : Place) : Prop where
  tidy : Agrees text (after (.run s 0 none false) step') (after (.run s 0 none false) step) p ∨
    after (.run s 0 none false) step' p = none ∧ after (.run s 1 none false) step (p.thinned text) = none
  exact : (p.before = some '\r' → k.behind = true) →
    Agrees text (after (.run s 0 none false) step') (after (.run s 0 none false) step) p

/-- Where the run takes nothing it is seen as the step is. -/
theorem seesRun_outside {s : CharSet} (ret : s.contains '\r' = true) (sees : SeesAt text k step' step p) (h : p.In text)
    (outside : p.rest.head?.any s.contains = false) : SeesRun text s k step' step p := by
  have head : p.rest.head? ≠ some '\r' := fun same => by
    rw [same, Option.any_some, ret] at outside
    cases outside
  have outside' : (p.thinned text).rest.head?.any s.contains = false := by rwa [h.head_thinned head]
  have ended : after (.run s 1 none false) step (p.thinned text) = none :=
    (after_run_outside outside').trans (if_neg Nat.one_ne_zero)
  have same : SeesAt text k (after (.run s 0 none false) step') (after (.run s 0 none false) step) p :=
    sees.congr ((after_run_outside outside).trans (if_pos rfl)) ((after_run_outside outside').trans (if_pos rfl))
  exact ⟨same.tidy.symm.imp id fun no => ⟨no, ended⟩, fun before => same.exact ⟨fun here => absurd here head, before⟩⟩

/-- At a return, the place behind it stands for the same one. -/
theorem agrees_run_at_return {s : CharSet} (ret : s.contains '\r' = true) (opened : k.atReturn = true ∨ k.behind = true)
    (sees : SeesAt text k step' step p) (h : p.In text) {rest : List Char} (eq : p.rest = '\r' :: rest)
    (before : p.before ≠ some '\r') (further : SeesRun text s k step' step (p.past '\r' rest)) :
    Agrees text (after (.run s 0 none false) step') (after (.run s 0 none false) step) p := by
  obtain ⟨loosely, behind⟩ := further
  rw [Agrees, h.thinned_past_return eq] at behind loosely
  have shape : after (.run s 0 none false) step' p =
      (after (.run s 0 none false) step' (p.past '\r' rest)).or (step' p) := by
    simp [after_run_cons s 0 none false eq, ret]
  have whole : after (.run s 0 none false) step (p.thinned text) =
      (after (.run s 1 none false) step (p.thinned text)).or (step (p.thinned text)) := after_run_zero s
  rw [Agrees, shape]
  cases first : after (.run s 0 none false) step' (p.past '\r' rest) with
  | some r =>
    rw [first] at loosely
    exact loosely.resolve_right fun no => nomatch no.1
  | none =>
    rw [first] at behind loosely
    have blank (no : none = after (.run s 0 none false) step (p.thinned text)) :
        (none.or (step' p)).map (·.thinned text) = after (.run s 0 none false) step (p.thinned text) := by
      rw [← no, Option.none_or, sees.none (step_of_after_run no.symm)]
      rfl
    rcases opened with atReturn | known
    · rcases loosely with agrees | ⟨-, ended⟩
      · exact blank agrees
      · rw [whole, ended, Option.none_or, Option.none_or]
        exact sees.exact ⟨fun _ => atReturn, fun same => absurd same before⟩
    · exact blank (behind fun _ => known)

/-- At another character of the set the run goes on in both texts, or stops in both. -/
theorem seesRun_inside {s : CharSet} (sees : SeesAt text k step' step p) (h : p.In text) {c : Char} {rest : List Char}
    (eq : p.rest = c :: rest) (other : c ≠ '\r') (inside : s.contains c = true)
    (further : SeesRun text s k step' step (p.past c rest)) : SeesRun text s k step' step p := by
  have goes : Agrees text (after (.run s 1 none false) step') (after (.run s 1 none false) step) p := by
    have agrees := further.exact fun same => absurd (Option.some.inj same) other
    rw [Agrees, h.thinned_past eq other] at agrees
    rwa [Agrees, after_run_one s eq, if_pos inside, after_run_one s (h.thinned_cons eq other), if_pos inside]
  have whole := (goes.or_seesAt sees).congr (after_run_zero s) (after_run_zero s)
  refine ⟨whole.tidy.symm.imp id fun no => ⟨no, ?_⟩, fun before => whole.exact ⟨fun head => ?_, before⟩⟩
  · rw [after_run_zero] at no
    exact goes.none_iff.mp (Option.or_eq_none_iff.mp no).1
  · rw [eq] at head
    exact absurd (Option.some.inj head) other

theorem seesRun (lines : ReturnsEndLines text) {s : CharSet} (ret : s.contains '\r' = true)
    (opened : k.atReturn = true ∨ k.behind = true) (sees : ∀ p, p.In text → SeesAt text k step' step p) (h : p.In text) :
    SeesRun text s k step' step p := by
  generalize eq : p.rest = rest
  induction rest generalizing p with
  | nil => exact seesRun_outside ret (sees p h) h (by rw [eq]; rfl)
  | cons c rest ih =>
    have further := ih (h.past eq) rfl
    by_cases other : c = '\r'
    · subst other
      have agrees := agrees_run_at_return ret opened (sees p h) h eq (h.before_ne lines eq (by decide)) further
      exact ⟨.inl agrees, fun _ => agrees⟩
    · cases inside : s.contains c with
      | true => exact seesRun_inside (sees p h) h eq other inside further
      | false => exact seesRun_outside ret (sees p h) h (by rw [eq]; exact inside)

/-- One that takes a character at least is seen alike everywhere, if the step has no result at the end of a line
that the run could not reach by going on. -/
theorem agrees_run_one (lines : ReturnsEndLines text) {s : CharSet} (ret : s.contains '\r' = true)
    (opened : k.atReturn = true ∨ k.behind = true) (follows : Follows φ step)
    (stops : φ.ink = true ∨ φ.glides = true ∧ s.contains '\n' = true)
    (sees : ∀ p, p.In text → SeesAt text k step' step p) (h : p.In text) :
    Agrees text (after (.run s 1 none false) step') (after (.run s 1 none false) step) p := by
  cases eq : p.rest with
  | nil => exact agrees_none (after_run_nil s 1 none false eq) (after_run_nil s 1 none false (h.thinned_nil eq))
  | cons c rest =>
    by_cases other : c = '\r'
    · subst other
      have ended := h.endsLine_at_return lines eq
      have whole : after (.run s 0 none false) step (p.thinned text) = after (.run s 1 none false) step (p.thinned text) := by
        rw [after_run_zero]
        cases further : after (.run s 1 none false) step (p.thinned text) with
        | some r => rfl
        | none =>
          rw [Option.none_or]
          rcases stops with ink | ⟨glides, feed⟩
          · exact follows.ink ink _ ended
          · rcases Place.endsLine_iff.mp ended with nil | ⟨more, here⟩
            · exact follows.nil glides _ nil
            · rw [after_run_one s here, if_pos feed] at further
              rw [follows.feed glides _ more here]
              exact step_of_after_run further
      rw [Agrees, after_run_one s eq, if_pos ret, ← h.thinned_past_return eq]
      rcases (seesRun lines ret opened sees (h.past eq)).tidy with agrees | ⟨no', no⟩
      · rw [Agrees, h.thinned_past_return eq, whole] at agrees
        rw [h.thinned_past_return eq]
        exact agrees
      · rw [no', no]
        rfl
    · have further := (seesRun lines ret opened sees (h.past eq)).exact fun same => absurd (Option.some.inj same) other
      rw [Agrees, h.thinned_past eq other] at further
      rw [Agrees, after_run_one s eq, after_run_one s (h.thinned_cons eq other)]
      split
      next => exact further
      next => rfl

/-- A lazy one is seen alike where the step after it is seen alike everywhere. -/
theorem agrees_run_lazy {s : CharSet} (ret : s.contains '\r' = true)
    (sees : ∀ p, p.In text → Agrees text step' step p) (h : p.In text) :
    Agrees text (after (.run s 0 none true) step') (after (.run s 0 none true) step) p := by
  generalize eq : p.rest = rest
  induction rest generalizing p with
  | nil =>
    rw [Agrees, after_run_nil s 0 none true eq, after_run_nil s 0 none true (h.thinned_nil eq)]
    exact sees p h
  | cons c rest ih =>
    have further := ih (h.past eq) rfl
    by_cases other : c = '\r'
    · subst other
      rw [Agrees, h.thinned_past_return eq] at further
      have both : Agrees text (fun q => (step' q).or (after (.run s 0 none true) step' (p.past '\r' rest)))
          (fun q => (step q).or (after (.run s 0 none true) step q)) p := (sees p h).or further
      rw [Agrees, after_run_lazy] at both
      rw [Agrees, ← both]
      simp [after_run_cons s 0 none true eq, ret]
    · rw [Agrees, h.thinned_past eq other] at further
      have go : Agrees text
          (fun _ => if s.contains c then after (.run s 0 none true) step' (p.past c rest) else none)
          (fun _ => if s.contains c then after (.run s 0 none true) step ((p.thinned text).past c (thin rest)) else none) p :=
        Agrees.guard fun _ => further
      have both := (sees p h).or go
      rw [Agrees] at both
      simpa [Agrees, after_run_cons s 0 none true eq, after_run_cons s 0 none true (h.thinned_cons eq other)] using both

theorem seesAt_run (lines : ReturnsEndLines text) {s : CharSet} {least : Nat} {most : Option Nat} {isLazy : Bool}
    (known : runSight s least most isLazy φ k = some k') (follows : Follows φ step)
    (sees : ∀ p, p.In text → SeesAt text k step' step p) (h : p.In text) :
    SeesAt text k' (after (.run s least most isLazy) step') (after (.run s least most isLazy) step) p := by
  rw [runSight] at known
  split at known
  next ret =>
    split at known
    next => cases known
    next usable =>
      simp only [Bool.or_eq_true, decide_eq_true_eq, Bool.not_eq_true', Bool.or_eq_false_iff, Bool.and_eq_true, not_or,
        not_and, Decidable.not_not] at usable
      obtain ⟨⟨rfl, opened⟩, lazily⟩ := usable
      have opened : k.atReturn = true ∨ k.behind = true := by
        cases atReturn : k.atReturn
        · exact .inr (by simpa using opened atReturn)
        · exact .inl rfl
      split at known
      next zero =>
        obtain rfl := zero
        obtain rfl := Option.some.inj known
        cases isLazy with
        | true =>
          obtain rfl := lazily rfl
          exact (agrees_run_lazy ret (fun q inside => (sees q inside).exact (Sight.shows_full q)) h).seesAt
        | false =>
          obtain ⟨tidy, exact⟩ := seesRun lines ret opened sees h
          exact ⟨tidy.symm.imp (·.1) id, fun shows => exact shows.2⟩
      next =>
        split at known
        next one =>
          simp only [Bool.and_eq_true, decide_eq_true_eq, Bool.not_eq_true', Bool.or_eq_true] at one
          obtain ⟨⟨rfl, rfl⟩, stops⟩ := one
          exact (agrees_run_one lines ret opened follows stops sees h).seesAt
        next => cases known
  next ret =>
    split at known
    next => cases known
    next usable =>
      simp only [Bool.or_eq_true, Bool.not_eq_true', not_or, Bool.not_eq_true, Bool.not_eq_false] at usable
      obtain rfl := Option.some.inj known
      exact seesAt_run_inside lines (by simpa using ret) usable.1 usable.2 sees isLazy least most h

/-! ### Repetitions -/

/-- A place with less text behind it without returns has less with them. -/
theorem Place.In.length_lt (h : p.In text) (h' : q.In text) (lt : (thin q.rest).length < (thin p.rest).length) :
    q.rest.length < p.rest.length := by
  by_contra ge
  have total : p.offset + p.rest.length = text.length := by
    have le := h.le
    rw [h.rest, List.length_drop]
    omega
  have total' : q.offset + q.rest.length = text.length := by
    have le := h'.le
    rw [h'.rest, List.length_drop]
    omega
  have longer := ((h.suffix h' (by omega)).sublist.filter (· ≠ '\r')).length_le
  exact absurd lt (Nat.not_lt.mpr longer)

/-- What takes a character at all takes more than a return, or the place behind it is that behind a return. -/
theorem thin_lt_or_behind {part : Node} {c : Char} (beside : takesBeside c part = true) (mem : q ∈ ends part p) :
    q.rest.length < p.rest.length ∧
      ((thin q.rest).length < (thin p.rest).length ∨ q.before = some '\r' ∧ takesBeside '\r' part = false) := by
  obtain ⟨taken, h⟩ := exists_taken mem
  obtain ⟨d, inside, -⟩ := h.beside c beside
  have pos : 0 < taken.length := List.length_pos_of_mem inside
  refine ⟨by rw [h.leads.rest, List.length_append]; omega, ?_⟩
  by_cases only : thin taken = []
  · right
    have returns (e : Char) (mem : e ∈ taken) : e = '\r' := by
      by_contra ne
      have kept : e ∈ thin taken := Text.mem_thin.mpr ⟨mem, ne⟩
      rw [only] at kept
      cases kept
    have ne : taken ≠ [] := List.length_pos_iff.mp pos
    refine ⟨?_, ?_⟩
    · rw [h.leads.before, List.getLast?_eq_some_getLast ne, returns _ (List.getLast_mem ne)]
      rfl
    · by_contra solid
      obtain ⟨e, mem, ne⟩ := h.beside '\r' (by simpa using solid)
      exact ne (returns e mem)
  · left
    have some : 0 < (thin taken).length := List.length_pos_iff.mpr only
    rw [h.leads.rest, Text.thin_append, List.length_append]
    omega

theorem loop_endsLine {part : Node} {c : Char} (beside : takesBeside c part = true) (follows : Follows φ step)
    (stop : φ.ink = true) (inner : (follow .unknown part).ink = true) {p : Place} (ended : p.endsLine = true)
    (clock : List Char) (least : Nat) (most : Option Nat) : loop part false clock least most step p = none := by
  cases clock with
  | nil => rw [loop_nil, follows.ink stop p ended, ite_self]
  | cons d clock =>
    rw [loop_cons beside, follows.ink stop p ended, (follows_after (follows_unknown _)).ink inner p ended, ite_self,
      ite_self, Option.none_or]

/-- The part is seen alike everywhere, before each step that is seen alike. -/
def SeenWhole (text : List Char) (k : Sight) (φ : Follow) (part : Node) : Prop :=
  ∀ {step' step : Place → Option Place}, Follows φ step → (∀ p, p.In text → SeesAt text k step' step p) →
    ∀ {p : Place}, p.In text → Agrees text (after part step') (after part step) p

/-- It is enough that the step is seen alike where less of the text follows, and has no result behind a return that the part
may take alone. -/
theorem SeenWhole.of_shorter {part : Node} {c : Char} (beside : takesBeside c part = true) {ink : Bool}
    (whole : SeenWhole text k ⟨ink, false⟩ part) (follows : Follows ⟨ink, false⟩ step)
    (nothing : ∀ q ∈ ends part p, q.before = some '\r' → takesBeside '\r' part = false → step' q = none)
    (alike : ∀ q, q.In text → (thin q.rest).length < (thin p.rest).length → SeesAt text k step' step q) (h : p.In text) :
    Agrees text (after part step') (after part step) p := by
  let near' (q : Place) : Option Place := if (thin q.rest).length < (thin p.rest).length then step' q else none
  let near (q : Place) : Option Place := if q.rest.length < (thin p.rest).length then step q else none
  have same' : after part step' p = after part near' p := by
    refine after_congr fun q mem => ?_
    rcases (thin_lt_or_behind beside mem).2 with thinner | ⟨behind, alone⟩
    · exact (if_pos thinner).symm
    · show _ = if _ then _ else _
      rw [nothing q mem behind alone, ite_self]
  have same : after part step (p.thinned text) = after part near (p.thinned text) := by
    refine after_congr fun q mem => (if_pos ?_).symm
    have shorter := (thin_lt_or_behind beside mem).1
    rwa [h.thinned_rest] at shorter
  have near_follows : Follows ⟨ink, false⟩ near := by
    refine .of_ink (φ := ⟨ink, false⟩) fun inked q ended => ?_
    show (if _ then _ else _) = _
    rw [follows.ink inked q ended, ite_self]
  have near_alike (q : Place) (inside : q.In text) : SeesAt text k near' near q := by
    have length : (q.thinned text).rest.length = (thin q.rest).length := by rw [inside.thinned_rest]
    by_cases thinner : (thin q.rest).length < (thin p.rest).length
    · exact (alike q inside thinner).congr (if_pos thinner) (if_pos (length ▸ thinner))
    · exact (agrees_none (if_neg thinner) (if_neg (length ▸ thinner))).seesAt
  have agrees := whole near_follows near_alike h
  rwa [Agrees, ← same, ← same'] at agrees

/-- A part that is seen alike everywhere before a step that is seen alike is, when it is repeated, as the step is. -/
theorem seesAt_loop (lines : ReturnsEndLines text) {part : Node} {c : Char} (beside : takesBeside c part = true) {ink : Bool}
    (whole : SeenWhole text k ⟨ink, false⟩ part)
    (stop : ink = true → φ.ink = true ∧ (follow .unknown part).ink = true)
    (progress : takesBeside '\r' part = true ∨ ink = true) (follows : Follows φ step)
    (sees : ∀ p, p.In text → SeesAt text k step' step p) (h : p.In text) {clock' clock : List Char}
    (enough' : p.rest.length ≤ clock'.length) (enough : (thin p.rest).length ≤ clock.length) (least : Nat) (most : Option Nat) :
    SeesAt text k (loop part false clock' least most step') (loop part false clock least most step) p := by
  have ended (inked : ink = true) (clock : List Char) (least : Nat) (most : Option Nat) (q : Place) (end_ : q.endsLine = true) :
      loop part false clock least most step q = none :=
    loop_endsLine beside follows (stop inked).1 (stop inked).2 end_ clock least most
  -- The induction is on the text that is left.
  generalize size : p.rest.length = n
  induction n using Nat.strong_induction_on generalizing p clock' clock least most with
  | _ n ih =>
    subst size
    have here : SeesAt text k (fun q => if least = 0 then step' q else none) (fun q => if least = 0 then step q else none) p :=
      (sees p h).stop fun _ => rfl
    have again : Agrees text (after part (loop part false clock'.tail (least - 1) (most.map (· - 1)) step'))
        (after part (loop part false clock.tail (least - 1) (most.map (· - 1)) step)) p := by
      refine whole.of_shorter beside (.of_ink (φ := ⟨ink, false⟩) fun inked => ended inked _ _ _) (fun q mem behind alone => ?_)
        (fun q inside thinner => ?_) h
      · have inside : q.In text := h.ends mem
        have shorter := (thin_lt_or_behind beside mem).1
        have inked : ink = true := progress.resolve_left (by simp [alone])
        have alike : SeesAt text k (loop part false clock'.tail (least - 1) (most.map (· - 1)) step')
            (loop part false (thin q.rest) (least - 1) (most.map (· - 1)) step) q := by
          refine ih q.rest.length shorter inside ?_ (Nat.le_refl _) _ _ rfl
          rw [List.length_tail]
          omega
        exact alike.none (ended inked _ _ _ _ (inside.endsLine_behind_return lines behind))
      · have shorter := h.length_lt inside thinner
        refine ih q.rest.length shorter inside ?_ ?_ _ _ rfl
        · rw [List.length_tail]
          omega
        · rw [List.length_tail]
          omega
    have go : Agrees text
        (fun q => if most = some 0 then none else
          after part (loop part false clock'.tail (least - 1) (most.map (· - 1)) step') q)
        (fun q => if most = some 0 then none else
          after part (loop part false clock.tail (least - 1) (most.map (· - 1)) step) q) p := by
      show Option.map _ (if _ then _ else _) = if _ then _ else _
      split
      next => rfl
      next => exact again
    exact (go.or_seesAt here).congr (loop_step beside enough' least most)
      (loop_step beside (by rwa [h.thinned_rest]) least most)

theorem seesAt_many (lines : ReturnsEndLines text) {part : Node} {least : Nat} {most : Option Nat} {isLazy : Bool}
    (known : sight single (.many part least most isLazy) φ k = some k')
    (ih : ∀ {φ : Follow} {k k' : Sight} {other' other : Place → Option Place}, sight single part φ k = some k' →
      Follows φ other → (∀ p, p.In text → SeesAt text k other' other p) →
      ∀ p, p.In text → SeesAt text k' (after part other') (after part other) p)
    (follows : Follows φ step) (sees : ∀ p, p.In text → SeesAt text k step' step p) (h : p.In text) :
    SeesAt text k' (after (.many part least most isLazy) step') (after (.many part least most isLazy) step) p := by
  simp only [sight] at known
  split at known
  next usable =>
    obtain rfl := Option.some.inj known
    simp only [Bool.and_eq_true, Bool.not_eq_true', Bool.or_eq_true, decide_eq_true_eq] at usable
    obtain ⟨⟨rfl, progress⟩, inner⟩ := usable
    obtain ⟨c, beside⟩ : ∃ c, takesBeside c part = true := progress.elim (fun b => ⟨_, b⟩) fun b => ⟨_, b.2⟩
    have whole : SeenWhole text k (loopFollow part least most φ) part :=
      fun known alike p h => (ih inner known alike p h).exact (Sight.shows_full p)
    by_cases optional : least = 0 ∧ most = some 1
    · obtain ⟨rfl, rfl⟩ := optional
      rw [loopFollow, if_pos ⟨rfl, rfl⟩] at whole
      exact ((whole follows sees h).or_seesAt (sees p h)).congr (after_optional beside) (after_optional beside)
    · rw [loopFollow, if_neg optional] at whole progress
      refine (seesAt_loop lines beside whole (fun ink => (Bool.and_eq_true _ _).mp ink) (progress.imp id (·.1)) follows
        sees h (Nat.le_refl _) (Nat.le_refl _) least most).congr (after_many part least most false) ?_
      rw [after_many, h.thinned_rest]
  next => cases known

/-! ### Conditions -/

/-- A text of one line ends where nothing follows. -/
theorem holds_textEnd (clean : '\n' ∉ text) (h : p.In text) : Anchor.textEnd.holds p = p.rest.head?.isNone := by
  have feed : p.rest ≠ ['\n'] := fun same => by
    refine clean (List.mem_of_mem_drop (i := p.offset) ?_)
    rw [← h.rest, same]
    exact List.mem_singleton_self _
  rw [Anchor.holds, decide_eq_false feed, Bool.or_false]
  cases p.rest <;> rfl

/-- A condition on the character before a place holds behind no return. -/
theorem seesAt_looking_back (lines : ReturnsEndLines text) {a : Anchor} (follows : Follows φ step)
    (sees : ∀ p, p.In text → SeesAt text k step' step p) (h : p.In text) (behind : p.before = some '\r' → a.holds p = false)
    (alike : p.before ≠ some '\r' → a.holds (p.thinned text) = a.holds p) :
    SeesAt text ⟨k.atReturn, φ.ink⟩ (after (.anchor a) step') (after (.anchor a) step) p := by
  refine seesAt_if (a.holds (p.thinned text) = true) (a.holds p = true) (sees p h) (fun holds => ?_)
    (fun shows => ?_) (after_anchor a) (after_anchor a)
  · have before : p.before ≠ some '\r' := fun same => by
      rw [behind same] at holds
      cases holds
    rw [alike before, holds]
  · by_cases before : p.before = some '\r'
    · exact .inr (follows.ink (shows.2 before) _ (h.endsLine_behind_return lines before))
    · exact .inl ⟨by rw [alike before], shows.1, fun same => absurd same before⟩

/-- A condition on the character behind a place holds before no return. -/
theorem seesAt_looking_ahead (lines : ReturnsEndLines text) {a : Anchor} (follows : Follows φ step)
    (sees : ∀ p, p.In text → SeesAt text k step' step p) (h : p.In text)
    (atReturn : p.rest.head? = some '\r' → a.holds p = false)
    (alike : p.rest.head? ≠ some '\r' → a.holds (p.thinned text) = a.holds p) :
    SeesAt text ⟨φ.ink, k.behind⟩ (after (.anchor a) step') (after (.anchor a) step) p := by
  refine seesAt_if (a.holds (p.thinned text) = true) (a.holds p = true) (sees p h) (fun holds => ?_)
    (fun shows => ?_) (after_anchor a) (after_anchor a)
  · have head : p.rest.head? ≠ some '\r' := fun same => by
      rw [atReturn same] at holds
      cases holds
    rw [alike head, holds]
  · by_cases head : p.rest.head? = some '\r'
    · obtain ⟨rest, eq⟩ := List.head?_eq_some_iff.mp head
      exact .inr (follows.ink (shows.1 head) _ (h.endsLine_at_return lines eq))
    · exact .inl ⟨by rw [alike head], fun same => absurd same head, shows.2⟩

theorem seesAt_anchor (lines : ReturnsEndLines text) (alone : single = true → '\n' ∉ text) {a : Anchor}
    (known : anchorSight single a φ k = some k') (follows : Follows φ step)
    (sees : ∀ p, p.In text → SeesAt text k step' step p) (h : p.In text) :
    SeesAt text k' (after (.anchor a) step') (after (.anchor a) step) p := by
  cases a with
  | textStart =>
    obtain rfl := Option.some.inj known
    refine seesAt_looking_back lines follows sees h (fun before => ?_) fun before => ?_
    · rw [Anchor.holds, before]; rfl
    · rw [Anchor.holds, Anchor.holds, h.thinned_before before]
  | lineStart =>
    obtain rfl := Option.some.inj known
    refine seesAt_looking_back lines follows sees h (fun before => ?_) fun before => ?_
    · rw [Anchor.holds, before]; rfl
    · rw [Anchor.holds, Anchor.holds, h.thinned_before before]
  | wordBoundary =>
    obtain rfl := Option.some.inj known
    refine seesAt_looking_back lines follows sees h (fun before => ?_) fun before => ?_
    · have ended : p.endsLine = true := Place.endsLine_iff.mpr (h.behind_return lines before)
      have head : p.rest.head?.any Text.isWord = false := Place.any_head_of_endsLine (by decide) ended
      rw [Anchor.holds, before, head]
      decide
    · rw [Anchor.holds, Anchor.holds, h.thinned_before before, h.any_head_thinned lines (by decide) (by decide)]
  | lineEnd =>
    obtain rfl := Option.some.inj known
    refine seesAt_looking_ahead lines follows sees h (fun head => ?_) fun head => ?_
    · rw [Anchor.holds, head]; rfl
    · rw [Anchor.holds, Anchor.holds, h.head_thinned head]
  | textEnd =>
    rw [anchorSight] at known
    split at known
    next one =>
      obtain rfl := Option.some.inj known
      have clean : '\n' ∉ text := alone one
      have clean' : '\n' ∉ thin text := fun mem => clean (Text.mem_thin.mp mem).1
      refine seesAt_looking_ahead lines follows sees h (fun head => ?_) fun head => ?_
      · rw [holds_textEnd clean h, head]
        rfl
      · rw [holds_textEnd clean' (p.thinned_in text), holds_textEnd clean h, h.head_thinned head]
    next => cases known

/-- What is said to be seen alike is. -/
theorem seesAt_after (lines : ReturnsEndLines text) (alone : single = true → '\n' ∉ text) {node : Node}
    (known : sight single node φ k = some k') (follows : Follows φ step)
    (sees : ∀ p, p.In text → SeesAt text k step' step p) (h : p.In text) :
    SeesAt text k' (after node step') (after node step) p := by
  induction node generalizing φ k k' step' step p with
  | empty =>
    obtain rfl := Option.some.inj known
    exact (sees p h).congr after_empty after_empty
  | set s => exact seesAt_set lines known follows sees h
  | seq first second ih ih' =>
    obtain ⟨k₂, later, sooner⟩ := Option.bind_eq_some_iff.mp known
    exact (ih sooner (follows_after follows) (fun q inside => ih' later follows sees inside) h).congr
      (after_seq first second) (after_seq first second)
  | alt first second ih ih' =>
    rw [sight] at known
    split at known
    next everywhere =>
      have one := (ih everywhere follows sees h).exact (Sight.shows_full p)
      exact (one.or_seesAt (ih' known follows sees h)).congr (after_alt first second) (after_alt first second)
    next => cases known
  | run s least most isLazy => exact seesAt_run lines known follows sees h
  | many part least most isLazy ih => exact seesAt_many lines known (fun inner known alike _ h => ih inner known alike h) follows sees h
  | group n part ih =>
    have inner : Follows ⟨φ.ink, false⟩ fun q =>
        step { q with groups := (n, ⟨(p.thinned text).offset, q.offset⟩) :: q.groups } :=
      .of_ink fun ink q ended => follows.ink ink _ ended
    have grouped (q : Place) (inside : q.In text) :
        SeesAt text k (fun q => step' { q with groups := (n, ⟨p.offset, q.offset⟩) :: q.groups })
          (fun q => step { q with groups := (n, ⟨(p.thinned text).offset, q.offset⟩) :: q.groups }) q := by
      obtain ⟨tidy, exact⟩ :=
        sees { q with groups := (n, ⟨p.offset, q.offset⟩) :: q.groups } ⟨inside.le, inside.before, inside.rest⟩
      exact ⟨tidy, exact⟩
    exact (ih known inner grouped h).congr (after_group n part) (after_group n part)
  | anchor a => exact seesAt_anchor lines alone known follows sees h
  | notAhead part ih =>
    rw [sight] at known
    split at known
    next everywhere =>
      obtain rfl := Option.some.inj known
      have one : Agrees text (after part some) (after part some) p :=
        (ih everywhere (follows_unknown some) (fun q _ => (show Agrees text some some q from rfl).seesAt) h).exact
          (Sight.shows_full p)
      exact seesAt_if _ _ (sees p h) one.none_iff.mp (fun shows => .inl ⟨one.none_iff.symm, shows⟩) (after_notAhead part)
        (after_notAhead part)
    next => cases known
  | notBehind s => cases known

end

end CodeHygiene.Regex
