import CodeHygiene.Exclusion
import CodeHygiene.Proofs.Cache
import CodeHygiene.Proofs.Work

/-!
What the matcher keeps does not show in what it answers.

Each call of the matcher is also work on the matcher (`Work`), with one access for each read, write or
clearing of one of its caches (`compiling`, `excluding`, `clearing`), so that calls may be under way
together.

Proved:
(1) Without a break, the work of a call is the call (`finish_compiling`, `finish_excluding`, `finish_call`).
(2) Every access keeps the matcher faithful: both caches within their room, every kept glob the glob
    of its key, every kept answer the answer for its key. The work of a call leads to the answer that is
    found without a cache, in a bounded number of accesses (`sound_call`).
(3) So a call of a faithful matcher has that answer and leaves the matcher faithful
    (`Matcher.Faithful.answer`), and so do a series of calls (`Matcher.Faithful.answers`) and the choice
    from a list (`Matcher.Faithful.keep`).
(4) Caching is invisible, for calls one after the other and for calls whose accesses interleave
    (`caching_is_invisible`).
-/

namespace CodeHygiene.Exclusion

/-! ## Which files are left out -/

theorem slashed_slashed (path : String) : slashed (slashed path) = slashed path := by
  have once : ∀ c : Char, (if (if c = '\\' then '/' else c) = '\\' then '/' else if c = '\\' then '/' else c) =
      if c = '\\' then '/' else c := by
    intro c
    by_cases h : c = '\\' <;> simp [h]
  rw [slashed, slashed, String.map_map]
  congr 1
  exact funext once

theorem excludes_slashed (path : String) (globs : List String) : excludes (slashed path) globs = excludes path globs := by
  simp only [excludes, slashed_slashed]

theorem globExcludes_iff {g : Glob} {path : String} :
    globExcludes g path = true ↔ g.accepts path.toList = true ∨ g.accepts (lastComponent path).toList = true := by
  by_cases whole : lastComponent path = path <;> simp [globExcludes, whole]

theorem excludes_iff {path : String} {globs : List String} :
    excludes path globs = true ↔ ∃ text ∈ globs, (Glob.ofText text).accepts (slashed path).toList = true ∨
      (Glob.ofText text).accepts (lastComponent (slashed path)).toList = true := by
  simp only [excludes, List.any_eq_true, globExcludes_iff]

namespace Matcher

variable {patterns results : Nat} {m : Matcher}

/-- Both caches are the memory of what is found without them. -/
structure Faithful (patterns results : Nat) (m : Matcher) : Prop where
  patterns : m.patterns.Faithful patterns Glob.ofText
  results : m.results.Faithful results fun key => excludes key.1 key.2

theorem faithful_empty (patterns results : Nat) : (Matcher.empty patterns results).Faithful patterns results :=
  ⟨Cache.faithful_empty _ _, Cache.faithful_empty _ _⟩

/-! ## Single accesses -/

def readGlob (text : String) : Work Matcher (Option Glob) :=
  .access (fun m => { m with patterns := (m.patterns.get text).2 }) fun m => pure (m.patterns.get text).1

def keepGlob (text : String) (g : Glob) : Work Matcher Unit :=
  .access (fun m => { m with patterns := m.patterns.set text (some g) }) fun _ => pure ()

def readAnswer (path : String) (globs : List String) : Work Matcher (Option Bool) :=
  .access (fun m => { m with results := (m.results.get (path, globs)).2 }) fun m =>
    pure (m.results.get (path, globs)).1

def keepAnswer (path : String) (globs : List String) (answer : Bool) : Work Matcher Unit :=
  .access (fun m => { m with results := m.results.set (path, globs) (some answer) }) fun _ => pure ()

def clearGlobs : Work Matcher Unit := .access (fun m => { m with patterns := m.patterns.clear }) fun _ => pure ()

def clearAnswers : Work Matcher Unit := .access (fun m => { m with results := m.results.clear }) fun _ => pure ()

/-! ## The work of a call -/

def compiling (text : String) : Work Matcher Glob := do
  match ← readGlob text with
  | some g => pure g
  | none =>
    keepGlob text (Glob.ofText text)
    pure (Glob.ofText text)

def asking (path : String) : List String → Work Matcher Bool
  | [] => pure false
  | text :: more => do
    let g ← compiling text
    if globExcludes g path then pure true else asking path more

def excluding (path : String) (globs : List String) : Work Matcher Bool :=
  if globs.isEmpty then pure false
  else do
    match ← readAnswer (slashed path) globs with
    | some answer => pure answer
    | none =>
      let answer ← asking (slashed path) globs
      keepAnswer (slashed path) globs answer
      pure answer

def clearing : Work Matcher Unit := do
  clearGlobs
  clearAnswers

/-- The work of choosing what no glob leaves out. -/
def keeping {α : Type} (path : String) (globsOf : α → List String) : List α → Work Matcher (List α)
  | [] => pure []
  | item :: more => do
    let excluded ← excluding path (globsOf item)
    let kept ← keeping path globsOf more
    pure (if excluded then kept else item :: kept)

/-! ## Without a break, the work of a call is the call -/

theorem finish_compiling (text : String) (m : Matcher) : (compiling text).finish m = m.compiled text := by
  simp only [compiling, Work.finish_bind, readGlob, Work.finish_access, Work.finish_pure, compiled]
  rcases m.patterns.get text with ⟨_ | g, cache⟩ <;> rfl

theorem finish_asking (path : String) (globs : List String) (m : Matcher) :
    (asking path globs).finish m = m.anyExcludes path globs := by
  induction globs generalizing m with
  | nil => rfl
  | cons text more ih =>
    simp only [asking, Work.finish_bind, finish_compiling, anyExcludes]
    split
    · rfl
    · exact ih _

theorem finish_excluding (path : String) (globs : List String) (m : Matcher) :
    (excluding path globs).finish m = m.isExcluded path globs := by
  rw [excluding, isExcluded]
  split
  · rfl
  · simp only [Work.finish_bind, readAnswer, Work.finish_access, Work.finish_pure]
    rcases m.results.get (slashed path, globs) with ⟨_ | answer, cache⟩
    · simp only [Work.finish_bind, finish_asking, keepAnswer, Work.finish_access, Work.finish_pure]
    · rfl

theorem finish_keeping {α : Type} (path : String) (globsOf : α → List String) (items : List α) (m : Matcher) :
    (keeping path globsOf items).finish m = m.keep path globsOf items := by
  induction items generalizing m with
  | nil => rfl
  | cons item more ih => simp only [keeping, keep, Work.finish_bind, finish_excluding, ih, Work.finish_pure]

/-! ## Every access keeps the matcher faithful -/

theorem sound_readGlob (text : String) :
    (readGlob text).Sound (Faithful patterns results) (fun found => ∀ g, found = some g → g = Glob.ofText text) 1 :=
  Work.sound_access fun _ h => ⟨⟨h.patterns.get text, h.results⟩, fun _ found => h.patterns.eq_of_get found⟩

theorem sound_keepGlob (text : String) :
    (keepGlob text (Glob.ofText text)).Sound (Faithful patterns results) (fun _ => True) 1 :=
  Work.sound_access fun _ h => ⟨⟨h.patterns.set text, h.results⟩, trivial⟩

theorem sound_readAnswer (path : String) (globs : List String) :
    (readAnswer path globs).Sound (Faithful patterns results)
      (fun found => ∀ answer, found = some answer → answer = excludes path globs) 1 :=
  Work.sound_access fun _ h => ⟨⟨h.patterns, h.results.get (path, globs)⟩, fun _ found => h.results.eq_of_get found⟩

theorem sound_keepAnswer (path : String) (globs : List String) :
    (keepAnswer path globs (excludes path globs)).Sound (Faithful patterns results) (fun _ => True) 1 :=
  Work.sound_access fun _ h => ⟨⟨h.patterns, h.results.set (path, globs)⟩, trivial⟩

theorem sound_clearing : clearing.Sound (Faithful patterns results) (fun _ => True) 2 := by
  have globs : clearGlobs.Sound (Faithful patterns results) (fun _ => True) 1 :=
    Work.sound_access fun _ h => ⟨⟨h.patterns.clear, h.results⟩, trivial⟩
  have answers : clearAnswers.Sound (Faithful patterns results) (fun _ => True) 1 :=
    Work.sound_access fun _ h => ⟨⟨h.patterns, h.results.clear⟩, trivial⟩
  exact globs.bind fun _ _ => answers

theorem sound_compiling (text : String) :
    (compiling text).Sound (Faithful patterns results) (· = Glob.ofText text) 2 := by
  refine (sound_readGlob text).bind (k := 1) fun found known => ?_
  cases found with
  | some g => exact known g rfl
  | none => exact (sound_keepGlob text).bind (k := 0) fun _ _ => rfl

theorem sound_asking (path : String) (globs : List String) :
    (asking path globs).Sound (Faithful patterns results)
      (· = globs.any fun text => globExcludes (Glob.ofText text) path) (2 * globs.length) := by
  induction globs with
  | nil => exact rfl
  | cons text more ih =>
    refine ((sound_compiling text).bind (k := 2 * more.length) fun g eq => ?_).mono (by simp only [List.length_cons]; omega)
    subst eq
    cases leaves : globExcludes (Glob.ofText text) path with
    | true => simp [leaves, Work.Sound, pure]
    | false => simpa [leaves] using ih

theorem sound_excluding (path : String) (globs : List String) :
    (excluding path globs).Sound (Faithful patterns results) (· = excludes path globs) (2 * globs.length + 2) := by
  rw [excluding]
  by_cases none : globs.isEmpty
  · rw [if_pos none, List.isEmpty_iff.mp none]
    exact rfl
  · rw [if_neg none]
    refine ((sound_readAnswer (slashed path) globs).bind (k := 2 * globs.length + 1) fun found known => ?_).mono (by omega)
    rw [excludes_slashed] at known
    cases found with
    | some answer => exact known answer rfl
    | none =>
      refine (sound_asking (slashed path) globs).bind (k := 1) fun answer eq => ?_
      have direct : answer = excludes (slashed path) globs := by rw [eq, excludes, slashed_slashed]
      rw [direct]
      exact (sound_keepAnswer (slashed path) globs).bind (k := 0) fun _ _ => excludes_slashed path globs

/-- The accesses that choosing from a list takes at most. -/
def keepingBound {α : Type} (globsOf : α → List String) : List α → Nat
  | [] => 0
  | item :: more => 2 * (globsOf item).length + 2 + keepingBound globsOf more

theorem sound_keeping {α : Type} (path : String) (globsOf : α → List String) (items : List α) :
    (keeping path globsOf items).Sound (Faithful patterns results)
      (· = items.filter fun item => !excludes path (globsOf item)) (keepingBound globsOf items) := by
  induction items with
  | nil => exact rfl
  | cons item more ih =>
    refine (sound_excluding path (globsOf item)).bind fun excluded eq => ih.bind (k := 0) fun kept rest => ?_
    show (if excluded then kept else item :: kept) = _
    rw [eq, rest]
    cases leaves : excludes path (globsOf item) <;> simp [leaves]

end Matcher

/-! ## Requests -/

/-- What may be asked of a matcher. -/
inductive Request where
  | isExcluded (path : String) (globs : List String)
  | compiled (text : String)
  | clear
  deriving DecidableEq, Repr

inductive Answer where
  | excluded (answer : Bool)
  | glob (g : Glob)
  | cleared
  deriving DecidableEq, Repr

namespace Request

def answer (m : Matcher) : Request → Answer × Matcher
  | .isExcluded path globs => (.excluded (m.isExcluded path globs).1, (m.isExcluded path globs).2)
  | .compiled text => (.glob (m.compiled text).1, (m.compiled text).2)
  | .clear => (.cleared, m.clear)

/-- The work of answering a request. -/
def call : Request → Work Matcher Answer
  | .isExcluded path globs => do return .excluded (← Matcher.excluding path globs)
  | .compiled text => do return .glob (← Matcher.compiling text)
  | .clear => do
    Matcher.clearing
    return .cleared

/-- The answer that is found without a cache. -/
def direct : Request → Answer
  | .isExcluded path globs => .excluded (excludes path globs)
  | .compiled text => .glob (Glob.ofText text)
  | .clear => .cleared

/-- The most accesses that a call takes. -/
def accesses : Request → Nat
  | .isExcluded _ globs => 2 * globs.length + 2
  | .compiled _ => 2
  | .clear => 2

end Request

theorem finish_call (request : Request) (m : Matcher) : request.call.finish m = request.answer m := by
  cases request with
  | isExcluded path globs => simp only [Request.call, Request.answer, Work.finish_bind, Matcher.finish_excluding, Work.finish_pure]
  | compiled text => simp only [Request.call, Request.answer, Work.finish_bind, Matcher.finish_compiling, Work.finish_pure]
  | clear => rfl

theorem sound_call (patterns results : Nat) :
    Pool.Planned (Matcher.Faithful patterns results) Request.direct Request.accesses Request.call := by
  intro request
  cases request with
  | isExcluded path globs =>
    exact (Matcher.sound_excluding path globs).bind (k := 0) fun _ eq => congrArg Answer.excluded eq
  | compiled text =>
    exact (Matcher.sound_compiling text).bind (k := 0) fun _ eq => congrArg Answer.glob eq
  | clear => exact Matcher.sound_clearing.bind (k := 0) fun _ _ => rfl

/-! ## Calls one after the other -/

namespace Matcher

/-- The answers to a series of calls, each made when the one before it is done. -/
def answers (m : Matcher) : List Request → List Answer × Matcher
  | [] => ([], m)
  | request :: more =>
    let (answer, m) := request.answer m
    let (rest, m) := m.answers more
    (answer :: rest, m)

namespace Faithful

variable {patterns results : Nat} {m : Matcher}

theorem answer (h : m.Faithful patterns results) (request : Request) :
    (request.answer m).1 = request.direct ∧ (request.answer m).2.Faithful patterns results := by
  rw [← finish_call]
  exact (sound_call patterns results request).finish h

theorem answers (h : m.Faithful patterns results) (requests : List Request) :
    (m.answers requests).1 = requests.map Request.direct ∧ (m.answers requests).2.Faithful patterns results := by
  induction requests generalizing m with
  | nil => exact ⟨rfl, h⟩
  | cons request more ih =>
    obtain ⟨eq, kept⟩ := h.answer request
    obtain ⟨rest, after⟩ := ih kept
    refine ⟨?_, after⟩
    simp only [Matcher.answers, List.map_cons, eq, rest]

/-- What is kept of a list is what no glob leaves out. -/
theorem keep {α : Type} (h : m.Faithful patterns results) (path : String) (globsOf : α → List String)
    (items : List α) :
    (m.keep path globsOf items).1 = items.filter (fun item => !excludes path (globsOf item)) ∧
      (m.keep path globsOf items).2.Faithful patterns results := by
  rw [← finish_keeping]
  exact (sound_keeping path globsOf items).finish h

end Faithful

theorem ofCapacities_eq (patterns results : Nat) : ofCapacities patterns results = .ok (.empty patterns results) := by
  have fits : ∀ n : Nat, ¬(n : Int) < 0 := fun n => by omega
  simp only [ofCapacities, Cache.ofCapacity, fits, if_false, Int.toNat_natCast]
  rfl

end Matcher

/-! ## Caching is invisible -/

/-- For every two capacities: a series of calls has the answers of a matcher without room and leaves the
matcher faithful. So does every interleaving of the accesses of calls, where a call is done in time. The
answer of a matcher without room is whether some glob stands for the path, with slashes, or for its last
component. -/
theorem caching_is_invisible (patterns results : Nat) :
    Matcher.ofCapacities patterns results = .ok (.empty patterns results) ∧
    (∀ requests : List Request,
      let (answers, m) := (Matcher.empty patterns results).answers requests
      answers = requests.map (fun request => (request.answer (.empty 0 0)).1) ∧ m.Faithful patterns results) ∧
    (∀ events : List (Pool.Event Request),
      let p := Pool.run Request.call { shared := .empty patterns results } events
      p.shared.Faithful patterns results ∧
      (∀ request answer, (request, .done answer) ∈ p.works → answer = (request.answer (.empty 0 0)).1) ∧
      ∀ place request w, p.works[place]? = some (request, w) →
        ∀ later : List (Pool.Event Request), request.accesses ≤ later.count (.advance place) →
          (p.run Request.call later).works[place]? = some (request, .done (request.answer (.empty 0 0)).1)) ∧
    ∀ path globs,
      ((Matcher.empty 0 0).isExcluded path globs).1 = excludes path globs ∧
      (excludes path globs = true ↔ ∃ text ∈ globs, (Glob.ofText text).accepts (slashed path).toList = true ∨
        (Glob.ofText text).accepts (lastComponent (slashed path)).toList = true) := by
  have uncached : ∀ request : Request, (request.answer (.empty 0 0)).1 = request.direct := fun request =>
    ((Matcher.faithful_empty 0 0).answer request).1
  refine ⟨Matcher.ofCapacities_eq patterns results, fun requests => ?_, fun events => ?_, fun path globs => ?_⟩
  · simp only [uncached]
    exact (Matcher.faithful_empty patterns results).answers requests
  · have planned := sound_call patterns results
    have now := Pool.inv planned (Pool.inv_start (Matcher.faithful_empty patterns results)) events
    refine ⟨now.good, fun request answer mem => ?_, fun place request w here later enough => ?_⟩
    · rw [uncached]
      exact now.sound _ mem
    · rw [uncached]
      exact Pool.answer_of_count planned now here later enough
  · exact ⟨Answer.excluded.inj (uncached (.isExcluded path globs)), excludes_iff⟩

end CodeHygiene.Exclusion
