import Mathlib.Data.List.Basic

/-!
Pieces of work that share a state and are under way together.

Work is done, or accesses the state once and goes on with what it saw. An access is taken at once;
between two accesses of one piece of work any other may take any number of its own. A pool is a state
with the pieces of work that were begun on it: an event begins a further one or takes the next access
of one that was begun, and any list of events may happen, so accesses interleave in every way.

Proved:
(1) Work is sound when each access of a good state leaves it good, and the answer is then right and there
    after a bounded number of accesses. Sound work has a right answer when it is taken without a break
    (`Sound.finish`), and stays sound access by access (`Sound.step`).
(2) Where the plans for all requests are sound, every pool has a good state and only sound work
    (`Pool.inv`), whatever has happened.
(3) A piece of work is done, with the answer of its request, once enough of its own accesses were taken,
    whatever happens between them (`Pool.answer_of_count`).
-/

namespace CodeHygiene

inductive Work (σ α : Type) where
  | done (answer : α)
  /-- `next` is given the state as it was before the change. -/
  | access (change : σ → σ) (next : σ → Work σ α)

namespace Work

variable {σ τ α β : Type}

/-- Work that is followed by more, which depends on its answer. -/
def andThen (f : α → Work σ β) : Work σ α → Work σ β
  | .done answer => f answer
  | .access change next => .access change fun s => (next s).andThen f

instance : Monad (Work σ) where
  pure := .done
  bind w f := w.andThen f

/-- The next access; work that is done takes none. -/
def step (s : σ) : Work σ α → Work σ α × σ
  | .done answer => (.done answer, s)
  | .access change next => (next s, change s)

/-- All accesses, one after the other without a break. -/
def finish (s : σ) : Work σ α → α × σ
  | .done answer => (answer, s)
  | .access change next => (next s).finish (change s)

/-- Work on a part of a state. -/
def onPart (get : τ → σ) (put : σ → τ → τ) : Work σ α → Work τ α
  | .done answer => .done answer
  | .access change next => .access (fun t => put (change (get t)) t) fun t => (next (get t)).onPart get put

/-- As long as each access finds a good state, it leaves a good one, and the work ends with a right answer
after at most `n` accesses. -/
def Sound (Good : σ → Prop) (Right : α → Prop) : Work σ α → Nat → Prop
  | .done answer, _ => Right answer
  | .access change next, n => 0 < n ∧ ∀ s, Good s → Good (change s) ∧ (next s).Sound Good Right (n - 1)

variable {Good : σ → Prop} {Right : α → Prop} {w : Work σ α} {f : α → Work σ β} {s : σ} {n k : Nat}

/-! ## Without a break -/

@[simp] theorem finish_pure (a : α) (s : σ) : (pure a : Work σ α).finish s = (a, s) := rfl

@[simp] theorem finish_bind (w : Work σ α) (f : α → Work σ β) (s : σ) :
    (w >>= f).finish s = (f (w.finish s).1).finish (w.finish s).2 := by
  induction w generalizing s with
  | done answer => rfl
  | access change next ih => exact ih s (change s)

@[simp] theorem finish_access (change : σ → σ) (next : σ → Work σ α) (s : σ) :
    (Work.access change next).finish s = (next s).finish (change s) := rfl

/-- For a part that can be taken out and put back, work on the part changes nothing else. -/
theorem finish_onPart {get : τ → σ} {put : σ → τ → τ} (w : Work σ α) (get_put : ∀ s t, get (put s t) = s)
    (put_put : ∀ s s' t, put s' (put s t) = put s' t) (put_get : ∀ t, put (get t) t = t) (t : τ) :
    (w.onPart get put).finish t = ((w.finish (get t)).1, put (w.finish (get t)).2 t) := by
  induction w generalizing t with
  | done answer => rw [onPart, finish, finish, put_get]
  | access change next ih =>
    rw [onPart, finish, finish, ih, get_put, put_put]

theorem Sound.step (h : w.Sound Good Right n) (good : Good s) :
    (w.step s).1.Sound Good Right (n - 1) ∧ Good (w.step s).2 := by
  cases w with
  | done answer => exact ⟨h, good⟩
  | access change next => exact ⟨(h.2 s good).2, (h.2 s good).1⟩

theorem Sound.finish (h : w.Sound Good Right n) (good : Good s) : Right (w.finish s).1 ∧ Good (w.finish s).2 := by
  induction w generalizing s n with
  | done answer => exact ⟨h, good⟩
  | access change next ih => exact ih s (h.2 s good).2 (h.2 s good).1

theorem Sound.exists_done (h : w.Sound Good Right 0) : ∃ answer, w = .done answer := by
  cases w with
  | done answer => exact ⟨answer, rfl⟩
  | access change next => exact absurd h.1 (Nat.lt_irrefl 0)

/-! ## Sound work -/

theorem Sound.mono (h : w.Sound Good Right n) (le : n ≤ k) : w.Sound Good Right k := by
  induction w generalizing n k with
  | done answer => exact h
  | access change next ih =>
    obtain ⟨pos, rest⟩ := h
    exact ⟨by omega, fun s good => ⟨(rest s good).1, ih s (rest s good).2 (by omega)⟩⟩

/-- A single access, after which the work is done. -/
theorem sound_access {change : σ → σ} {see : σ → α} (h : ∀ s, Good s → Good (change s) ∧ Right (see s)) :
    (Work.access change fun s => pure (see s)).Sound Good Right 1 := ⟨Nat.one_pos, h⟩

theorem Sound.bind {Last : β → Prop} (h : w.Sound Good Right n) (rest : ∀ a, Right a → (f a).Sound Good Last k) :
    (w >>= f).Sound Good Last (n + k) := by
  induction w generalizing n with
  | done answer => exact (rest answer h).mono (Nat.le_add_left k n)
  | access change next ih =>
    obtain ⟨pos, more⟩ := h
    refine ⟨by omega, fun s good => ⟨(more s good).1, ?_⟩⟩
    have sum : n + k - 1 = n - 1 + k := by omega
    rw [sum]
    exact ih s (more s good).2

/-- Work on a part is sound for the whole when a good whole has a good part, and stays good when a good
part is put in its place. -/
theorem Sound.onPart {Whole : τ → Prop} {get : τ → σ} {put : σ → τ → τ} (h : w.Sound Good Right n)
    (good_get : ∀ t, Whole t → Good (get t)) (good_put : ∀ s t, Good s → Whole t → Whole (put s t)) :
    (w.onPart get put).Sound Whole Right n := by
  induction w generalizing n with
  | done answer => exact h
  | access change next ih =>
    refine ⟨h.1, fun t whole => ?_⟩
    obtain ⟨changed, rest⟩ := h.2 (get t) (good_get t whole)
    exact ⟨good_put _ t changed whole, ih _ rest⟩

end Work

/-! ## Pools -/

/-- A state and the work that was begun on it, in that order, each with its request. -/
structure Pool (ρ σ α : Type) where
  shared : σ
  works : List (ρ × Work σ α) := []

namespace Pool

inductive Event (ρ : Type) where
  | begin (request : ρ)
  /-- Takes the next access of the work at a place, if there is one. -/
  | advance (place : Nat)
  deriving DecidableEq

variable {ρ σ α : Type}

def step (plan : ρ → Work σ α) (p : Pool ρ σ α) : Event ρ → Pool ρ σ α
  | .begin request => { p with works := p.works ++ [(request, plan request)] }
  | .advance place =>
    match p.works[place]? with
    | some (request, w) =>
      { shared := (w.step p.shared).2, works := p.works.set place (request, (w.step p.shared).1) }
    | none => p

def run (plan : ρ → Work σ α) (p : Pool ρ σ α) (events : List (Event ρ)) : Pool ρ σ α :=
  events.foldl (step plan) p

variable {plan : ρ → Work σ α} {Good : σ → Prop} {direct : ρ → α} {bound : ρ → Nat} {p : Pool ρ σ α}

theorem run_append (before after : List (Event ρ)) :
    p.run plan (before ++ after) = (p.run plan before).run plan after := List.foldl_append

/-! ## What holds in every pool -/

/-- Every plan leads to the answer of its request, in a bounded number of accesses. -/
def Planned (Good : σ → Prop) (direct : ρ → α) (bound : ρ → Nat) (plan : ρ → Work σ α) : Prop :=
  ∀ request, (plan request).Sound Good (· = direct request) (bound request)

structure Inv (Good : σ → Prop) (direct : ρ → α) (bound : ρ → Nat) (p : Pool ρ σ α) : Prop where
  good : Good p.shared
  sound : ∀ w ∈ p.works, w.2.Sound Good (· = direct w.1) (bound w.1)

theorem inv_start {s : σ} (good : Good s) : Inv Good direct bound { shared := s } :=
  ⟨good, fun _ mem => (nomatch mem)⟩

theorem step_inv (planned : Planned Good direct bound plan) (h : p.Inv Good direct bound) (event : Event ρ) :
    (p.step plan event).Inv Good direct bound := by
  cases event with
  | begin request =>
    refine ⟨h.good, fun w mem => ?_⟩
    rcases List.mem_append.mp mem with old | new
    · exact h.sound w old
    · rw [List.mem_singleton.mp new]
      exact planned request
  | advance place =>
    rw [step]
    split
    · rename_i request w here
      have mem : (request, w) ∈ p.works := List.mem_of_getElem? here
      obtain ⟨sound, good⟩ := (h.sound _ mem).step h.good
      refine ⟨good, fun v changed => ?_⟩
      rcases List.mem_or_eq_of_mem_set changed with old | rfl
      · exact h.sound v old
      · exact sound.mono (Nat.sub_le _ _)
    · exact h

theorem inv (planned : Planned Good direct bound plan) (h : p.Inv Good direct bound) (events : List (Event ρ)) :
    (p.run plan events).Inv Good direct bound := by
  induction events generalizing p with
  | nil => exact h
  | cons event more ih => exact ih (step_inv planned h event)

/-! ## Schedules -/

/-- The answers that are there already, in the order in which the work was begun. -/
def answers (p : Pool ρ σ α) : List α := p.works.filterMap fun w => match w.2 with
  | .done answer => some answer
  | .access _ _ => none

/-- All requests are begun, and then the work at each place is advanced when it is its turn. -/
def schedule (plan : ρ → Work σ α) (s : σ) (requests : List ρ) (turns : List Nat) : Pool ρ σ α :=
  Pool.run plan { shared := s } (requests.map .begin ++ turns.map .advance)

theorem works_begin (requests : List ρ) :
    (p.run plan (requests.map .begin)).works = p.works ++ requests.map fun r => (r, plan r) := by
  induction requests generalizing p with
  | nil => simp [run]
  | cons request more ih =>
    rw [List.map_cons, run, List.foldl_cons, ← run, ih]
    simp [step]

theorem length_works_advance (turns : List Nat) : (p.run plan (turns.map .advance)).works.length = p.works.length := by
  induction turns generalizing p with
  | nil => rfl
  | cons place more ih =>
    rw [List.map_cons, run, List.foldl_cons, ← run, ih, step]
    split <;> simp

/-! ## Every piece of work is done in time -/

variable [DecidableEq ρ] {place : Nat} {request : ρ} {w : Work σ α}

/-- What an event does to work that was begun: an access where it is the one to advance. -/
theorem getElem?_step (plan : ρ → Work σ α) (h : p.works[place]? = some (request, w)) (event : Event ρ) :
    (p.step plan event).works[place]? =
      some (request, if event = .advance place then (w.step p.shared).1 else w) := by
  have inside : place < p.works.length := (List.getElem?_eq_some_iff.mp h).1
  cases event with
  | begin other => simp [step, List.getElem?_append_left inside, h]
  | advance other =>
    by_cases same : other = place
    · subst same
      simp only [step, h, if_true]
      rw [List.getElem?_set_self inside]
    · have differ : Event.advance other ≠ (.advance place : Event ρ) := fun e => same (Event.advance.inj e)
      rw [step]
      split
      · simp [List.getElem?_set_ne same, h, differ]
      · simp [h, differ]

/-- Work that is advanced often enough is done, whatever happens between its accesses. -/
theorem done_of_count (planned : Planned Good direct bound plan) {n : Nat} (start : p.Inv Good direct bound)
    (h : p.works[place]? = some (request, w)) (sound : w.Sound Good (· = direct request) n)
    (events : List (Event ρ)) (enough : n ≤ events.count (.advance place)) :
    (p.run plan events).works[place]? = some (request, .done (direct request)) := by
  induction events generalizing p n w with
  | nil =>
    obtain rfl : n = 0 := Nat.le_zero.mp enough
    obtain ⟨answer, rfl⟩ := sound.exists_done
    obtain rfl : answer = direct request := sound
    exact h
  | cons event more ih =>
    have next := getElem?_step plan h event
    have kept := step_inv planned start event
    by_cases own : event = .advance place
    · rw [if_pos own] at next
      rw [own, List.count_cons_self] at enough
      exact ih kept next (sound.step start.good).1 (by omega)
    · rw [if_neg own] at next
      rw [List.count_cons_of_ne own] at enough
      exact ih kept next sound enough

theorem answer_of_count (planned : Planned Good direct bound plan) (start : p.Inv Good direct bound)
    (h : p.works[place]? = some (request, w)) (events : List (Event ρ))
    (enough : bound request ≤ events.count (.advance place)) :
    (p.run plan events).works[place]? = some (request, .done (direct request)) :=
  done_of_count planned start h (start.sound _ (List.mem_of_getElem? h)) events enough

theorem count_advance (turns : List Nat) (place : Nat) :
    (turns.map .advance).count (.advance place : Event ρ) = turns.count place := by
  induction turns with
  | nil => rfl
  | cons turn more ih => simp [List.count_cons, ih]

/-- Where every work gets enough turns, the schedule does not matter. -/
theorem answers_schedule (planned : Planned Good direct bound plan) {s : σ} (good : Good s) (requests : List ρ)
    (turns : List Nat) (enough : ∀ place request, requests[place]? = some request → bound request ≤ turns.count place) :
    (schedule plan s requests turns).answers = requests.map direct := by
  have empty : Inv Good direct bound ({ shared := s } : Pool ρ σ α) := inv_start good
  have start := inv planned empty (requests.map .begin)
  have begun : (Pool.run plan { shared := s } (requests.map .begin)).works = requests.map fun r => (r, plan r) := by
    simpa using works_begin (p := { shared := s }) requests
  have done : (schedule plan s requests turns).works = requests.map fun r => (r, .done (direct r)) := by
    rw [schedule, run_append]
    refine List.ext_getElem? fun place => ?_
    cases here : requests[place]? with
    | none =>
      have beyond : requests.length ≤ place := List.getElem?_eq_none_iff.mp here
      rw [List.getElem?_eq_none, List.getElem?_eq_none]
      · simpa using beyond
      · rw [length_works_advance, begun]
        simpa using beyond
    | some request =>
      have own : bound request ≤ (turns.map .advance).count (.advance place : Event ρ) := by
        rw [count_advance]
        exact enough place request here
      rw [answer_of_count planned start (by rw [begun, List.getElem?_map, here]; rfl) _ own, List.getElem?_map, here]
      rfl
  rw [answers, done, List.filterMap_map]
  exact congrFun List.filterMap_eq_map requests

end Pool

end CodeHygiene
