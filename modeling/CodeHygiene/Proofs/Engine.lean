import CodeHygiene.Proofs.Exclusion
import CodeHygiene.Scan.Engine

/-!
What an engine keeps does not show in what it finds.

The analysis of a text, and that of a file, are also work on an engine (`analyzing`, `analyzingFile`):
one access for each read or write of what the engine keeps, so that files may be analyzed together.

Proved:
(1) Whatever was asked of an engine, and however far files that are analyzed together have come, its
    caches are faithful and the rules it keeps for a language are those the table selects
    (`Left.kept`).
(2) Such an engine finds in a text what an engine of its own with both caches off finds there
    (`Kept.analyze`), in a file what is found in its text (`Kept.analyzeFile`), and in a series of files
    what is found in each (`Kept.analyzeFiles`).
(3) What is found in a file does not depend on the capacities of the caches or the number of workers
    (`ofFile_executedBy`).
(4) The work of a file leads to what is found in it, in a bounded number of accesses
    (`sound_analyzingFile`).
-/

namespace CodeHygiene

open Repository (Tree Path)

/-! ## Answers that may be missing -/

theorem bind_eq_ok_iff {ε α β : Type} {x : Except ε α} {f : α → Except ε β} {b : β} :
    (x >>= f) = .ok b ↔ ∃ a, x = .ok a ∧ f a = .ok b := by
  cases x with
  | error fault => simp [bind, Except.bind]
  | ok a => simp [bind, Except.bind]

theorem pure_eq_ok_iff {ε α : Type} {a b : α} : (pure a : Except ε α) = .ok b ↔ b = a := by
  simp [pure, Except.pure, eq_comm]

theorem mapError_eq_ok_iff {ε ε' α : Type} {x : Except ε α} {f : ε → ε'} {a : α} :
    x.mapError f = .ok a ↔ x = .ok a := by
  cases x with
  | error fault => simp [Except.mapError]
  | ok a' => simp [Except.mapError]

namespace Settings

/-- Other workers and other caches; all else stays. -/
def executedBy (s : Settings) (workers : Within 1 64) (caches : Caches) : Settings := { s with workers, caches }

/-- Both caches off. -/
def uncached (s : Settings) : Settings := s.executedBy s.workers { patterns := ⟨0, by decide⟩, results := ⟨0, by decide⟩ }

end Settings

namespace Engine

open Exclusion (Matcher)

/-! ## What is found without anything kept -/

/-- The findings in the text of a file on an engine of its own with both caches off. -/
def alone (registry : Registry) (s : Settings) (file : String) (content : List Char) :
    Except Measure.Fault (List Finding) :=
  ((start registry s.uncached).analyze content (Exclusion.slashed file)
    ((Language.ofPath? file).map Language.tag)).map (·.1)

/-- What a file comes to on its own: none when it is left out or cannot be read as text. -/
def ofFile (registry : Registry) (s : Settings) (t : Tree) (root : Option Path) (file : String) :
    Except Scan.Fault (Option (List Finding)) :=
  if !s.admitsLanguage (Language.ofPath? file) then .ok none
  else match t.openText (locate root file) with
    | .error f => .error (.repository f)
    | .ok none => .ok none
    | .ok (some content) => ((alone registry s file content).mapError .measure).map some

/-- What the rules that are selected, and leave a text in, say about it. -/
def analysis (registry : Registry) (s : Settings) (content : List Char) (path : String) (language : Option String) :
    Except Measure.Fault (List Finding) :=
  let language := Language.tagFor language (some path)
  let rules := (start registry s).select (lookupTag language)
  judge s (rules.filter fun rule => !Exclusion.excludes path rule.excludes) { path, content } language

/-- What the rules with an analyzer add to what the patterns find. -/
def added (s : Settings) (rules : List Rule) (src : Scan.Source) : Option String → Except Measure.Fault (List Finding)
  | none => .ok []
  | some tag => if s.isQuick then .ok [] else Scan.ofAnalyzers s src tag rules

theorem judge_eq_ok_iff {s : Settings} {rules : List Rule} {src : Scan.Source} {language : Option String}
    {found : List Finding} :
    judge s rules src language = .ok found ↔
      ∃ more, added s rules src language = .ok more ∧ found = Scan.ofPatterns rules src ++ more := by
  cases language with
  | none => simp [judge, added, eq_comm]
  | some tag =>
    by_cases quick : s.isQuick = true
    · simp [judge, added, quick, eq_comm]
    · simp only [judge, added, quick, Bool.false_eq_true, if_false, bind_eq_ok_iff, pure_eq_ok_iff]

/-! ## The work of an analysis -/

def readRules (tag : String) : Work Engine (Option (List Rule)) := .access id fun e => pure (e.selected.lookup tag)

/-- Selects the rules once more and keeps them. -/
def keepRules (tag : String) : Work Engine (List Rule) :=
  .access (fun e => { e with selected := (tag, e.select tag) :: e.selected }) fun e => pure (e.select tag)

def readSettings : Work Engine Settings := .access id fun e => pure e.settings

def selecting (language : Option String) : Work Engine (List Rule) := do
  match ← readRules (lookupTag language) with
  | some rules => pure rules
  | none => keepRules (lookupTag language)

def setMatcher (e : Engine) (matcher : Matcher) : Engine := { e with matcher }

/-- The work of leaving out the rules that leave a path out. -/
def leavingOut (path : String) (rules : List Rule) : Work Engine (List Rule) :=
  (Matcher.keeping path Rule.excludes rules).onPart matcher fun m e => e.setMatcher m

def analyzing (content : List Char) (path : String) (language : Option String) :
    Work Engine (Except Measure.Fault (List Finding)) := do
  let rules ← selecting (Language.tagFor language (some path))
  let rules ← leavingOut path rules
  let s ← readSettings
  pure (judge s rules { path, content } (Language.tagFor language (some path)))

def analyzingFile (t : Tree) (root : Option Path) (file : String) :
    Work Engine (Except Scan.Fault (Option (List Finding))) := do
  let s ← readSettings
  if !s.admitsLanguage (Language.ofPath? file) then pure (.ok none)
  else match t.openText (locate root file) with
    | .error f => pure (.error (.repository f))
    | .ok none => pure (.ok none)
    | .ok (some content) =>
      let found ← analyzing content (Exclusion.slashed file) ((Language.ofPath? file).map Language.tag)
      pure ((found.mapError .measure).map some)

theorem finish_selecting (language : Option String) (e : Engine) : (selecting language).finish e = e.rulesFor language := by
  simp only [selecting, Work.finish_bind, readRules, Work.finish_access, Work.finish_pure, rulesFor, id]
  cases e.selected.lookup (lookupTag language) <;> rfl

theorem finish_leavingOut (path : String) (rules : List Rule) (e : Engine) :
    (leavingOut path rules).finish e =
      ((e.matcher.keep path Rule.excludes rules).1, e.setMatcher (e.matcher.keep path Rule.excludes rules).2) := by
  rw [leavingOut, Work.finish_onPart, Matcher.finish_keeping]
  · intro m e; rfl
  · intro m m' e; rfl
  · intro e; rfl

/-- Without a break, the work of an analysis is the analysis. -/
theorem finish_analyzing (content : List Char) (path : String) (language : Option String) (e : Engine) :
    e.analyze content path language =
      ((analyzing content path language).finish e).1.map fun found =>
        (found, ((analyzing content path language).finish e).2) := by
  simp only [analyzing, Work.finish_bind, finish_selecting, finish_leavingOut, readSettings, Work.finish_access,
    Work.finish_pure, analyze, id, setMatcher]
  generalize judge _ _ _ _ = judged
  cases judged <;> rfl

theorem finish_analyzingFile (t : Tree) (root : Option Path) (file : String) (e : Engine) :
    e.analyzeFile t root file =
      ((analyzingFile t root file).finish e).1.map fun found => (found, ((analyzingFile t root file).finish e).2) := by
  simp only [analyzeFile, analyzingFile, Work.finish_bind, readSettings, Work.finish_access, Work.finish_pure, id]
  by_cases left : (!e.settings.admitsLanguage (Language.ofPath? file)) = true
  · simp only [left, if_true]; rfl
  · simp only [left, Bool.false_eq_true, if_false]
    rcases t.openText (locate root file) with f | _ | content
    · rfl
    · rfl
    · simp only [Work.finish_bind, Work.finish_pure]
      rw [finish_analyzing]
      cases ((analyzing content (Exclusion.slashed file) ((Language.ofPath? file).map Language.tag)).finish e).1 <;> rfl

/-! ## Every access keeps what is kept right -/

/-- Faithful caches, and for every language that rules are kept for, those that the table selects. -/
structure Kept (registry : Registry) (s : Settings) (e : Engine) : Prop where
  settings_eq : e.settings = s
  registry_eq : e.registry = (start registry s).registry
  matcher : e.matcher.Faithful s.caches.patterns.val.toNat s.caches.results.val.toNat
  selected : ∀ entry ∈ e.selected, entry.2 = (start registry s).select entry.1

variable {registry : Registry} {s : Settings} {e : Engine}

theorem kept_start (registry : Registry) (s : Settings) : Kept registry s (start registry s) where
  settings_eq := rfl
  registry_eq := rfl
  matcher := Matcher.faithful_empty _ _
  selected := by intro entry mem; cases mem

theorem Kept.select (h : Kept registry s e) (tag : String) : e.select tag = (start registry s).select tag := by
  rw [Engine.select, h.settings_eq, h.registry_eq]
  rfl

theorem Kept.setMatcher (h : Kept registry s e) {m : Matcher}
    (faithful : m.Faithful s.caches.patterns.val.toNat s.caches.results.val.toNat) : Kept registry s (e.setMatcher m) :=
  ⟨h.settings_eq, h.registry_eq, faithful, h.selected⟩

theorem sound_readSettings : readSettings.Sound (Kept registry s) (· = s) 1 :=
  Work.sound_access fun _ h => ⟨h, h.settings_eq⟩

theorem sound_readRules (tag : String) :
    (readRules tag).Sound (Kept registry s) (fun found => ∀ rules, found = some rules → rules = (start registry s).select tag) 1 := by
  refine Work.sound_access fun e h => ⟨h, fun rules found => ?_⟩
  obtain ⟨before, after, split, -⟩ := List.lookup_eq_some_iff.mp found
  have mem : (tag, rules) ∈ e.selected := by rw [split]; simp
  exact h.selected _ mem

theorem sound_keepRules (tag : String) :
    (keepRules tag).Sound (Kept registry s) (· = (start registry s).select tag) 1 := by
  refine Work.sound_access fun e h => ⟨⟨h.settings_eq, h.registry_eq, h.matcher, fun entry mem => ?_⟩, h.select tag⟩
  rcases List.mem_cons.mp mem with rfl | old
  · exact h.select tag
  · exact h.selected entry old

theorem sound_selecting (language : Option String) :
    (selecting language).Sound (Kept registry s) (· = (start registry s).select (lookupTag language)) 2 := by
  refine (sound_readRules (lookupTag language)).bind (k := 1) fun found known => ?_
  cases found with
  | some rules => exact known rules rfl
  | none => exact sound_keepRules (lookupTag language)

theorem sound_leavingOut (path : String) (rules : List Rule) :
    (leavingOut path rules).Sound (Kept registry s) (· = rules.filter fun rule => !Exclusion.excludes path rule.excludes)
      (Matcher.keepingBound Rule.excludes rules) :=
  (Matcher.sound_keeping path Rule.excludes rules).onPart (fun _ h => h.matcher) fun _ _ faithful h => h.setMatcher faithful

/-- The accesses that an analysis takes at most. -/
def analysisBound (registry : Registry) (s : Settings) (path : String) (language : Option String) : Nat :=
  2 + (Matcher.keepingBound Rule.excludes ((start registry s).select (lookupTag (Language.tagFor language (some path)))) + 1)

theorem sound_analyzing (content : List Char) (path : String) (language : Option String) :
    (analyzing content path language).Sound (Kept registry s) (· = analysis registry s content path language)
      (analysisBound registry s path language) := by
  refine (sound_selecting (Language.tagFor language (some path))).bind fun rules eq => ?_
  subst eq
  refine (sound_leavingOut path _).bind fun kept eq => ?_
  subst eq
  refine sound_readSettings.bind (k := 0) fun s' eq => ?_
  subst eq
  rfl

/-- An analysis finds what is found without anything kept. -/
theorem Kept.analyze (h : Kept registry s e) (content : List Char) (path : String) (language : Option String) :
    ∃ e', Kept registry s e' ∧
      e.analyze content path language = (analysis registry s content path language).map fun found => (found, e') := by
  obtain ⟨eq, kept⟩ := (sound_analyzing content path language).finish h
  refine ⟨_, kept, ?_⟩
  rw [finish_analyzing, eq]

theorem Kept.analyze_eq_ok_iff (h : Kept registry s e) (content : List Char) (path : String) (language : Option String)
    (found : List Finding) :
    (∃ e', e.analyze content path language = .ok (found, e')) ↔
      analysis registry s content path language = .ok found := by
  obtain ⟨e', -, eq⟩ := h.analyze content path language
  rw [eq]
  cases analysis registry s content path language <;> simp [Except.map]

/-! ## Workers and capacities -/

/-- Settings under which each analyzer sees the same come to the same. -/
theorem ofAnalyzers_congr {s' : Settings}
    (same : ∀ rule content tag a, Scan.violationsIn s rule content tag a = Scan.violationsIn s' rule content tag a)
    (src : Scan.Source) (tag : String) (rules : List Rule) :
    Scan.ofAnalyzers s src tag rules = Scan.ofAnalyzers s' src tag rules := by
  induction rules with
  | nil => rfl
  | cons rule rest ih =>
    simp only [Scan.ofAnalyzers, Scan.ofAnalyzer, same, ih]

theorem ofAnalyzers_executedBy (workers : Settings.Within 1 64) (caches : Settings.Caches) (src : Scan.Source)
    (tag : String) (rules : List Rule) :
    Scan.ofAnalyzers (s.executedBy workers caches) src tag rules = Scan.ofAnalyzers s src tag rules := by
  refine ofAnalyzers_congr (fun rule content tag a => ?_) src tag rules
  rfl

theorem analysis_executedBy (workers : Settings.Within 1 64) (caches : Settings.Caches) (content : List Char)
    (path : String) (language : Option String) :
    analysis registry (s.executedBy workers caches) content path language = analysis registry s content path language := by
  have same : ∀ rules src language, judge (s.executedBy workers caches) rules src language = judge s rules src language := by
    intro rules src language
    cases language with
    | none => rfl
    | some tag => simp only [judge, ofAnalyzers_executedBy]; rfl
  exact same _ _ _

theorem alone_eq (registry : Registry) (s : Settings) (file : String) (content : List Char) :
    alone registry s file content =
      analysis registry s content (Exclusion.slashed file) ((Language.ofPath? file).map Language.tag) := by
  obtain ⟨e', -, eq⟩ := (kept_start registry s.uncached).analyze content (Exclusion.slashed file)
    ((Language.ofPath? file).map Language.tag)
  rw [alone, eq, Settings.uncached, analysis_executedBy]
  cases analysis registry s content _ _ <;> rfl

theorem ofFile_executedBy (workers : Settings.Within 1 64) (caches : Settings.Caches) (t : Tree) (root : Option Path)
    (file : String) : ofFile registry (s.executedBy workers caches) t root file = ofFile registry s t root file := by
  simp only [ofFile, alone_eq, analysis_executedBy]
  rfl

/-! ## Files -/

/-- The accesses that the analysis of a file takes at most. -/
def fileBound (registry : Registry) (s : Settings) (file : String) : Nat :=
  1 + analysisBound registry s (Exclusion.slashed file) ((Language.ofPath? file).map Language.tag)

theorem sound_analyzingFile (t : Tree) (root : Option Path) :
    Pool.Planned (Kept registry s) (ofFile registry s t root) (fileBound registry s) (analyzingFile t root) := by
  intro file
  refine sound_readSettings.bind fun s' eq => ?_
  subst eq
  rw [ofFile]
  by_cases left : (!s'.admitsLanguage (Language.ofPath? file)) = true
  · simp only [left, if_true]
    rfl
  · simp only [left, Bool.false_eq_true, if_false]
    rcases t.openText (locate root file) with f | _ | content
    · rfl
    · rfl
    · refine (sound_analyzing content _ _).bind (k := 0) fun found eq => ?_
      rw [eq, ← alone_eq]
      rfl

theorem Kept.analyzeFile (h : Kept registry s e) (t : Tree) (root : Option Path) (file : String) :
    ∃ e', Kept registry s e' ∧ e.analyzeFile t root file = (ofFile registry s t root file).map fun found => (found, e') := by
  obtain ⟨eq, kept⟩ := (sound_analyzingFile t root file).finish h
  refine ⟨_, kept, ?_⟩
  rw [finish_analyzingFile, eq]

theorem Kept.analyzeFiles (h : Kept registry s e) (t : Tree) (root : Option Path) (files : List String) :
    ∃ e', Kept registry s e' ∧
      e.analyzeFiles t root files = (files.mapM (ofFile registry s t root)).map fun found => (found, e') := by
  induction files generalizing e with
  | nil => exact ⟨e, h, rfl⟩
  | cons file rest ih =>
    obtain ⟨e₁, kept₁, here⟩ := h.analyzeFile t root file
    obtain ⟨e₂, kept₂, more⟩ := ih kept₁
    refine ⟨e₂, kept₂, ?_⟩
    rw [Engine.analyzeFiles, here, List.mapM_cons]
    cases ofFile registry s t root file with
    | error f => rfl
    | ok found =>
      simp only [Except.map, bind, Except.bind] at more ⊢
      rw [more]
      cases rest.mapM (ofFile registry s t root) <;> rfl

end Engine

end CodeHygiene
