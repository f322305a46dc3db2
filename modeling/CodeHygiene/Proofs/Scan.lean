import CodeHygiene.Proofs.Engine

/-!
A scan is made of analyses that have nothing to do with each other.

Proved:
(1) A scan by an engine of which anything was asked before comes to what its files come to, each on an
    engine of its own with both caches off, and what such an engine says about the repository
    (`Kept.scan`); it has no answer exactly when one of them has none (`gathered_eq_ok_iff`).
(2) Whatever was asked of an engine before, scans and analyses that had no answer included, leaves it
    with caches that are faithful and rules that are those of the table (`Left.kept`).
(3) So the report does not depend on what was asked before, on the number of workers, on the
    capacities, or on the order in which the accesses of the files are taken; files that are discovered
    are scanned like files that are named (`scan_decomposes`).
A path that holds a NUL is the one thing that keeps a scan without an answer where every analyzer has
one (`scan_nul`).
-/

namespace CodeHygiene

open Repository (Tree Path)

namespace Settings

/-- The files of languages that are asked for. -/
def admitted (s : Settings) (files : List String) : List String :=
  files.filter fun file => s.admitsLanguage (Language.ofPath? file)

end Settings

namespace Engine

variable {registry : Registry} {s : Settings} {e : Engine}

/-- The files that are there and are text, with their texts. -/
def texts (t : Tree) (root : Option Path) (files : List String) : List (String × List Char) :=
  files.filterMap fun file => (t.text? (locate root file)).map fun content => (file, content)

theorem mem_texts {t : Tree} {root : Option Path} {files : List String} {file : String} {content : List Char}
    (mem : file ∈ files) (read : t.text? (locate root file) = some content) : (file, content) ∈ texts t root files := by
  refine List.mem_filterMap.mpr ⟨file, mem, ?_⟩
  rw [read]
  rfl

/-- The report that is put together from what the files came to, in their order. -/
def gathered (e : Engine) (t : Tree) (root : Option Path) (given : List String)
    (answers : List (Except Scan.Fault (Option (List Finding)))) : Except Scan.Fault Report := do
  let perFile ← answers.mapM id
  let (findings, violations) ← e.repositoryPart t root
  let read := perFile.filterMap id
  return { findings := read.flatten ++ findings
           violations
           filesRequested := answers.length
           filesAnalyzed := read.length
           filesFiltered := given.length - answers.length }

/-! ## Repositories -/

theorem judgeRepository_executedBy (workers : Settings.Within 1 64) (caches : Settings.Caches) (t : Tree) (root : Path)
    (rules : List Rule) : judgeRepository (s.executedBy workers caches) t root rules = judgeRepository s t root rules := by
  induction rules with
  | nil => rfl
  | cons rule rest ih =>
    rw [judgeRepository, judgeRepository, ih]
    rfl

theorem repositoryPart_executedBy (workers : Settings.Within 1 64) (caches : Settings.Caches) (t : Tree)
    (root : Option Path) :
    (start registry (s.executedBy workers caches)).repositoryPart t root = (start registry s).repositoryPart t root := by
  cases root with
  | none => rfl
  | some root =>
    have judged := judgeRepository_executedBy (s := s) workers caches t root (start registry s).repositoryRules
    simp only [repositoryPart, analyzeRepository]
    rw [show (start registry s).settings = s from rfl, ← judged]
    rfl

theorem Kept.repositoryPart (h : Kept registry s e) (t : Tree) (root : Option Path) :
    e.repositoryPart t root = (start registry s).repositoryPart t root := by
  have rules : e.repositoryRules = (start registry s).repositoryRules := by
    rw [repositoryRules, h.settings_eq, h.registry_eq]
    rfl
  cases root with
  | none => rfl
  | some root =>
    simp only [Engine.repositoryPart, analyzeRepository, rules, h.settings_eq]
    rfl

/-- Nothing is said without a root or in a quick scan, and else what the rules for repositories say. -/
theorem repositoryPart_eq_ok_iff {t : Tree} {root : Option Path} {part : List Finding × List Violation} :
    (start registry s).repositoryPart t root = .ok part ↔
      ((∀ r, root = some r → s.isQuick = true) ∧ part = ([], [])) ∨
      ∃ r, root = some r ∧ s.isQuick = false ∧ judgeRepository s t r (start registry s).repositoryRules = .ok part := by
  have own : (start registry s).settings.isQuick = s.isQuick := rfl
  have nothing : (Except.ok ([], []) : Except Scan.Fault _) = .ok part ↔ part = ([], []) := pure_eq_ok_iff
  cases root with
  | none => simp [Engine.repositoryPart, nothing]
  | some r =>
    rw [Engine.repositoryPart, own]
    cases quick : s.isQuick with
    | true => simp [nothing]
    | false =>
      simp only [Option.some.injEq, forall_eq', exists_eq_left', Bool.false_eq_true, if_false, false_and, false_or,
        true_and]
      rfl

/-! ## Scans -/

theorem mapM_id_map {α β ε : Type} (f : α → Except ε β) (l : List α) : (l.map f).mapM id = l.mapM f := by
  rw [List.mapM_map]
  rfl

/-- A scan comes to what its files and its repository come to. -/
theorem Kept.scan (h : Kept registry s e) (t : Tree) (files : Option (List String)) (root : Option Path) :
    ∃ e', Kept registry s e' ∧
      e.scan t files root = (do
        let given ← (filesToScan s t files root).mapError .repository
        let report ← (start registry s).gathered t root given ((s.admitted given).map (ofFile registry s t root))
        return (report, e')) := by
  rw [Engine.scan, h.settings_eq]
  cases filesToScan s t files root with
  | error f => exact ⟨e, h, rfl⟩
  | ok given =>
    obtain ⟨e', kept, perFile⟩ := h.analyzeFiles t root (s.admitted given)
    refine ⟨e', kept, ?_⟩
    simp only [Settings.admitted] at perFile
    simp only [Except.mapError, bind, Except.bind, perFile, gathered, mapM_id_map, Settings.admitted, List.length_map]
    cases (given.filter fun file => s.admitsLanguage (Language.ofPath? file)).mapM (ofFile registry s t root) with
    | error f => rfl
    | ok found =>
      simp only [Except.map, kept.repositoryPart t root]
      cases (start registry s).repositoryPart t root <;> rfl

/-! ## When a scan has an answer -/

theorem mapM_cons_eq_ok {α β ε : Type} {f : α → Except ε β} {a : α} {l : List α} {out : List β} :
    (a :: l).mapM f = .ok out ↔ ∃ b rest, f a = .ok b ∧ l.mapM f = .ok rest ∧ out = b :: rest := by
  simp only [List.mapM_cons, bind_eq_ok_iff, pure_eq_ok_iff, exists_and_left]

theorem exists_of_mapM {α β ε : Type} {f : α → Except ε β} {l : List α} {out : List β} (h : l.mapM f = .ok out)
    {a : α} (mem : a ∈ l) : ∃ b ∈ out, f a = .ok b := by
  induction l generalizing out with
  | nil => cases mem
  | cons a' l ih =>
    obtain ⟨b, rest, here, more, rfl⟩ := mapM_cons_eq_ok.mp h
    rcases List.mem_cons.mp mem with rfl | later
    · exact ⟨b, List.mem_cons_self, here⟩
    · obtain ⟨b', mem', eq⟩ := ih more later
      exact ⟨b', List.mem_cons_of_mem b mem', eq⟩

theorem exists_of_mem_mapM {α β ε : Type} {f : α → Except ε β} {l : List α} {out : List β} (h : l.mapM f = .ok out)
    {b : β} (mem : b ∈ out) : ∃ a ∈ l, f a = .ok b := by
  induction l generalizing out with
  | nil =>
    cases h
    cases mem
  | cons a l ih =>
    obtain ⟨b', rest, here, more, rfl⟩ := mapM_cons_eq_ok.mp h
    rcases List.mem_cons.mp mem with rfl | later
    · exact ⟨a, List.mem_cons_self, here⟩
    · obtain ⟨a', mem', eq⟩ := ih more later
      exact ⟨a', List.mem_cons_of_mem a mem', eq⟩

theorem mapM_isOk {α β ε : Type} {f : α → Except ε β} {l : List α} (h : ∀ a ∈ l, ∃ b, f a = .ok b) :
    ∃ out, l.mapM f = .ok out := by
  induction l with
  | nil => exact ⟨[], rfl⟩
  | cons a l ih =>
    obtain ⟨here, others⟩ := List.forall_mem_cons.mp h
    obtain ⟨b, eq⟩ := here
    obtain ⟨out, more⟩ := ih others
    exact ⟨b :: out, mapM_cons_eq_ok.mpr ⟨b, out, eq, more, rfl⟩⟩

theorem openText_eq (t : Tree) (p : Path) :
    t.openText p = if p.holdsNul then .error .nulInPath else .ok (t.text? p) := by
  simp [Tree.openText, Repository.opening]

/-- Files come to findings exactly when no path holds a NUL and every text has findings; what they come to
is the findings in the texts. -/
theorem mapM_ofFile_eq_ok {t : Tree} {root : Option Path} {files : List String}
    (admitted : ∀ file ∈ files, s.admitsLanguage (Language.ofPath? file) = true) (found : List (List Finding)) :
    (∃ perFile, files.mapM (ofFile registry s t root) = .ok perFile ∧ perFile.filterMap id = found) ↔
      (∀ file ∈ files, (locate root file).holdsNul = false) ∧
        (texts t root files).mapM (fun text => alone registry s text.1 text.2) = .ok found := by
  induction files generalizing found with
  | nil => exact ⟨fun ⟨_, mapped, flat⟩ => by cases mapped; cases flat; exact ⟨by simp, rfl⟩,
      fun ⟨_, all⟩ => ⟨[], rfl, by cases all; rfl⟩⟩
  | cons file rest ih =>
    obtain ⟨here, others⟩ := List.forall_mem_cons.mp admitted
    simp only [mapM_cons_eq_ok, List.forall_mem_cons]
    rw [ofFile, here, openText_eq]
    cases nul : (locate root file).holdsNul with
    | true => simp
    | false =>
      simp only [Bool.not_true, Bool.false_eq_true, if_false, true_and]
      cases text : t.text? (locate root file) with
      | none =>
        have skip : texts t root (file :: rest) = texts t root rest := by simp [texts, text]
        rw [skip, ← ih others]
        constructor
        · rintro ⟨perFile, ⟨b, more, eq, all, rfl⟩, flat⟩
          cases eq
          exact ⟨more, all, flat⟩
        · rintro ⟨more, all, flat⟩
          exact ⟨none :: more, ⟨none, more, rfl, all, rfl⟩, flat⟩
      | some content =>
        have take : texts t root (file :: rest) = (file, content) :: texts t root rest := by simp [texts, text]
        rw [take, mapM_cons_eq_ok]
        dsimp only
        constructor
        · rintro ⟨perFile, ⟨b, more, eq, all, rfl⟩, flat⟩
          cases own : alone registry s file content with
          | error f => rw [own] at eq; cases eq
          | ok findings =>
            rw [own] at eq
            cases eq
            obtain ⟨clean, read⟩ := (ih others (more.filterMap id)).mp ⟨more, all, rfl⟩
            exact ⟨clean, findings, _, rfl, read, flat.symm⟩
        · rintro ⟨clean, findings, read, own, all, rfl⟩
          obtain ⟨more, mapped, flat⟩ := (ih others read).mpr ⟨clean, all⟩
          refine ⟨some findings :: more, ⟨some findings, more, ?_, mapped, rfl⟩, ?_⟩
          · rw [own]; rfl
          · show findings :: more.filterMap id = findings :: read
            rw [flat]

theorem admits_of_mem_admitted {files : List String} {file : String} (h : file ∈ s.admitted files) :
    s.admitsLanguage (Language.ofPath? file) = true := (List.mem_filter.mp h).2

theorem length_of_mapM {α β ε : Type} {f : α → Except ε β} {l : List α} {out : List β} (h : l.mapM f = .ok out) :
    out.length = l.length := by
  induction l generalizing out with
  | nil => cases h; rfl
  | cons a l ih =>
    obtain ⟨b, rest, -, more, rfl⟩ := mapM_cons_eq_ok.mp h
    simp [ih more]

theorem gathered_eq_ok_iff (t : Tree) (root : Option Path) (given : List String) (report : Report) :
    e.gathered t root given ((s.admitted given).map (ofFile registry s t root)) = .ok report ↔
      ∃ found part,
        (∀ file ∈ s.admitted given, (locate root file).holdsNul = false) ∧
        (texts t root (s.admitted given)).mapM (fun text => alone registry s text.1 text.2) = .ok found ∧
        e.repositoryPart t root = .ok part ∧
        report = { findings := found.flatten ++ part.1
                   violations := part.2
                   filesRequested := (s.admitted given).length
                   filesAnalyzed := (texts t root (s.admitted given)).length
                   filesFiltered := given.length - (s.admitted given).length } := by
  rw [gathered, mapM_id_map, List.length_map]
  constructor
  · intro eq
    cases mapped : (s.admitted given).mapM (ofFile registry s t root) with
    | error f => rw [mapped] at eq; cases eq
    | ok perFile =>
      obtain ⟨clean, read⟩ := (mapM_ofFile_eq_ok (fun _ => admits_of_mem_admitted) _).mp ⟨perFile, mapped, rfl⟩
      cases said : e.repositoryPart t root with
      | error f => rw [mapped, said] at eq; cases eq
      | ok part =>
        rw [mapped, said] at eq
        cases eq
        refine ⟨_, part, clean, read, rfl, ?_⟩
        rw [← length_of_mapM read]
  · rintro ⟨found, part, clean, read, said, rfl⟩
    obtain ⟨perFile, mapped, flat⟩ := (mapM_ofFile_eq_ok (fun _ => admits_of_mem_admitted) found).mpr ⟨clean, read⟩
    rw [mapped, said, ← length_of_mapM read, ← flat]
    rfl

/-! ## What was asked before -/

/-- The engines that calls leave behind. -/
inductive Left (registry : Registry) (s : Settings) : Engine → Prop
  | start : Left registry s (start registry s)
  | rulesFor {e : Engine} (language : Option String) : Left registry s e → Left registry s (e.rulesFor language).2
  /-- The matcher of an engine may be asked, and cleared, by itself. -/
  | request {e : Engine} (r : Exclusion.Request) : Left registry s e → Left registry s (e.setMatcher (r.answer e.matcher).2)
  /-- Also where an analyzer has no answer. -/
  | analyze {e : Engine} (content : List Char) (path : String) (language : Option String) :
      Left registry s e → Left registry s ((analyzing content path language).finish e).2
  /-- Files that are analyzed together, however far they have come, and also where some have no answer. -/
  | files {e : Engine} (t : Tree) (root : Option Path) (events : List (Pool.Event String)) :
      Left registry s e → Left registry s (Pool.run (analyzingFile t root) { shared := e } events).shared
  | scan {e e' : Engine} {t : Tree} {files : Option (List String)} {root : Option Path} {report : Report} :
      Left registry s e → e.scan t files root = .ok (report, e') → Left registry s e'

theorem Kept.rulesFor (h : Kept registry s e) (language : Option String) : Kept registry s (e.rulesFor language).2 := by
  rw [← finish_selecting]
  exact ((sound_selecting language).finish h).2

theorem Kept.of_scan {e' : Engine} {t : Tree} {files : Option (List String)} {root : Option Path} {report : Report}
    (h : Kept registry s e) (eq : e.scan t files root = .ok (report, e')) : Kept registry s e' := by
  obtain ⟨e₂, kept, closed⟩ := h.scan t files root
  rw [closed] at eq
  cases given : filesToScan s t files root with
  | error f => rw [given] at eq; cases eq
  | ok given' =>
    rw [given] at eq
    cases made : (start registry s).gathered t root given' ((s.admitted given').map (ofFile registry s t root)) with
    | error f => simp [Except.mapError, bind, Except.bind, made] at eq
    | ok r =>
      simp only [Except.mapError, bind, Except.bind, made, pure, Except.pure, Except.ok.injEq, Prod.mk.injEq] at eq
      exact eq.2 ▸ kept

theorem Left.kept (h : Left registry s e) : Kept registry s e := by
  induction h with
  | start => exact kept_start registry s
  | rulesFor language _ ih => exact ih.rulesFor language
  | request r _ ih => exact ih.setMatcher (ih.matcher.answer r).2
  | analyze content path language _ ih => exact ((sound_analyzing content path language).finish ih).2
  | files t root events _ ih => exact (Pool.inv (sound_analyzingFile t root) (Pool.inv_start ih) events).good
  | scan _ eq ih => exact ih.of_scan eq

/-! ## Scans decompose -/

theorem gathered_executedBy (workers : Settings.Within 1 64) (caches : Settings.Caches) (t : Tree)
    (root : Option Path) (given : List String) (answers : List (Except Scan.Fault (Option (List Finding)))) :
    (start registry (s.executedBy workers caches)).gathered t root given answers =
      (start registry s).gathered t root given answers := by
  rw [gathered, gathered, repositoryPart_executedBy]

/-- The report of an engine that was asked anything before, without the engine. -/
theorem Kept.scan_fst (h : Kept registry s e) (t : Tree) (files : Option (List String)) (root : Option Path) :
    (e.scan t files root).map (·.1) = (do
      let given ← (filesToScan s t files root).mapError .repository
      (start registry s).gathered t root given ((s.admitted given).map (ofFile registry s t root))) := by
  obtain ⟨e', -, closed⟩ := h.scan t files root
  rw [closed]
  cases filesToScan s t files root with
  | error f => rfl
  | ok given =>
    simp only [Except.mapError, bind, Except.bind]
    cases (start registry s).gathered t root given ((s.admitted given).map (ofFile registry s t root)) <;> rfl

/-- A scan has a report exactly when the files are known and their answers come to it. -/
theorem Kept.scan_eq_ok_iff (h : Kept registry s e) (t : Tree) (files : Option (List String)) (root : Option Path)
    (report : Report) :
    (∃ e', e.scan t files root = .ok (report, e')) ↔ ∃ given, filesToScan s t files root = .ok given ∧
      (start registry s).gathered t root given ((s.admitted given).map (ofFile registry s t root)) = .ok report := by
  obtain ⟨e', -, closed⟩ := h.scan t files root
  rw [closed]
  cases filesToScan s t files root with
  | error f => simp [Except.mapError, bind, Except.bind]
  | ok given =>
    simp only [Except.mapError, bind, Except.bind, Except.ok.injEq, exists_eq_left']
    cases (start registry s).gathered t root given ((s.admitted given).map (ofFile registry s t root)) with
    | error f => simp
    | ok made => simp [pure, Except.pure]

/-- For every engine that calls have left behind:
- a scan has a report exactly when the files are known, no path of an admitted file holds a NUL and no
  analyzer lacks an answer, and it is then made of the findings in each text on an engine of its own with
  both caches off, in the order of the files, and of what such an engine says about the repository;
- the outcome is the same for all workers and capacities and whatever was asked before;
- it is the same for every schedule of the accesses that the analyses of the files make;
- without files, those that are discovered are scanned. -/
theorem scan_decomposes (h : Left registry s e) (t : Tree) (files : Option (List String)) (root : Option Path) :
    (∀ report, (∃ e', e.scan t files root = .ok (report, e')) ↔
      ∃ given found part,
        filesToScan s t files root = .ok given ∧
        (∀ file ∈ s.admitted given, (locate root file).holdsNul = false) ∧
        (texts t root (s.admitted given)).mapM (fun text => alone registry s text.1 text.2) = .ok found ∧
        (start registry s.uncached).repositoryPart t root = .ok part ∧
        report = { findings := found.flatten ++ part.1
                   violations := part.2
                   filesRequested := (s.admitted given).length
                   filesAnalyzed := (texts t root (s.admitted given)).length
                   filesFiltered := given.length - (s.admitted given).length }) ∧
    (∀ workers caches other, Left registry (s.executedBy workers caches) other →
      (other.scan t files root).map (·.1) = (e.scan t files root).map (·.1)) ∧
    (∀ given turns, filesToScan s t files root = .ok given →
      (∀ place file, (s.admitted given)[place]? = some file → fileBound registry s file ≤ turns.count place) →
        (start registry s.uncached).gathered t root given
            (Pool.schedule (analyzingFile t root) e (s.admitted given) turns).answers =
          (e.scan t files root).map (·.1)) ∧
    ∀ root, e.scan t none (some root) = (do
      let found ← (Repository.discover t root s.maxFiles.val).mapError .repository
      e.scan t (some found) (some root)) := by
  have kept := h.kept
  refine ⟨fun report => ?_, fun workers caches other left => ?_, fun given turns known enough => ?_, fun root => ?_⟩
  · have part : (start registry s.uncached).repositoryPart t root = (start registry s).repositoryPart t root :=
      repositoryPart_executedBy _ _ t root
    simp only [kept.scan_eq_ok_iff, gathered_eq_ok_iff, part]
    constructor
    · rintro ⟨given, known, found, said, parts⟩
      exact ⟨given, found, said, known, parts⟩
    · rintro ⟨given, found, said, known, parts⟩
      exact ⟨given, known, found, said, parts⟩
  · rw [kept.scan_fst, left.kept.scan_fst]
    have same : ofFile registry (s.executedBy workers caches) t root = ofFile registry s t root :=
      funext fun file => ofFile_executedBy workers caches t root file
    simp only [gathered_executedBy, same]
    rfl
  · rw [Pool.answers_schedule (sound_analyzingFile t root) kept _ turns enough, kept.scan_fst, known]
    exact gathered_executedBy _ _ t root given _
  · rw [Engine.scan, h.kept.settings_eq]
    cases found : Repository.discover t root s.maxFiles.val with
    | error f => simp [filesToScan, found, Except.mapError, bind, Except.bind]
    | ok files =>
      simp only [filesToScan, found, Except.mapError, bind, Except.bind]
      rw [Engine.scan, h.kept.settings_eq]
      rfl

theorem bytes?_of_lookup {t : Tree} {name : String} {bytes : List UInt8} (plain : name ≠ "..")
    (h : t.lookup name = some (.file bytes)) : t.bytes? ⟨.here, [name]⟩ = some bytes := by
  simp [Tree.bytes?, Tree.resolve?, Path.isAbsolute, Tree.resolveFrom, Tree.entriesAt?, plain, h]

theorem text?_of_lookup {t : Tree} {name : String} {bytes : List UInt8} (plain : name ≠ "..")
    (h : t.lookup name = some (.file bytes)) : t.text? ⟨.here, [name]⟩ = (Tree.textOf bytes).toOption := by
  rw [Tree.text?, bytes?_of_lookup plain h]
  rfl

theorem bytes?_of_missing {t : Tree} {name : String} (plain : name ≠ "..") (h : t.lookup name = none) :
    t.bytes? ⟨.here, [name]⟩ = none := by
  simp [Tree.bytes?, Tree.resolve?, Path.isAbsolute, Tree.resolveFrom, Tree.entriesAt?, plain, h]

theorem text?_of_missing {t : Tree} {name : String} (plain : name ≠ "..") (h : t.lookup name = none) :
    t.text? ⟨.here, [name]⟩ = none := by
  rw [Tree.text?, bytes?_of_missing plain h]
  rfl

/-- A scan of a file that is all there is comes to what is found in its text. -/
theorem scan_one_file (name : String) {bytes : List UInt8} {content : List Char} {found : List Finding}
    (plain : name ≠ "..") (place : locate none name = ⟨.here, [name]⟩) (clean : (locate none name).holdsNul = false)
    (text : Tree.textOf bytes = .ok content) (admitted : s.admitsLanguage (Language.ofPath? name) = true)
    (own : analysis registry s content (Exclusion.slashed name) ((Language.ofPath? name).map Language.tag) = .ok found) :
    ∃ e', (start registry s).scan [(name, .file bytes)] (some [name]) none =
      .ok ({ findings := found, violations := [], filesRequested := 1, filesAnalyzed := 1, filesFiltered := 0 }, e') := by
  have asked : s.admitted [name] = [name] := by simp [Settings.admitted, admitted]
  have read : Tree.text? [(name, .file bytes)] (locate none name) = some content := by
    rw [place, text?_of_lookup plain List.lookup_cons_self, text]
    rfl
  have texts_eq : texts [(name, .file bytes)] none [name] = [(name, content)] := by simp [texts, read]
  have all : (texts [(name, .file bytes)] none [name]).mapM (fun text => alone registry s text.1 text.2) = .ok [found] := by
    rw [texts_eq]
    exact mapM_cons_eq_ok.mpr ⟨found, [], by rw [alone_eq, own], rfl, rfl⟩
  refine ((kept_start registry s).scan_eq_ok_iff _ _ _ _).mpr ⟨[name], rfl, (gathered_eq_ok_iff _ _ _ _).mpr ?_⟩
  rw [asked]
  refine ⟨[found], ([], []), List.forall_mem_singleton.mpr clean, all, rfl, ?_⟩
  rw [texts_eq]
  simp

/-- One file that is text, and one that is not there. -/
theorem scan_decomposes_two_files :
    ∃ report e',
      (start (.indexed [Catalog.openaiApiKey]) {}).scan [("a", .file [120])] (some ["a", "b"]) none = .ok (report, e') ∧
        report.filesRequested = 2 ∧ report.filesAnalyzed = 1 := by
  have asked : ({} : Settings).admitted ["a", "b"] = ["a", "b"] := by decide
  have first : Tree.text? [("a", .file [120])] (locate none "a") = some ['x'] := by
    have text : Tree.textOf [120] = .ok ['x'] := by rfl
    rw [show locate none "a" = ⟨.here, ["a"]⟩ by decide, text?_of_lookup (by decide) rfl, text]
    rfl
  have second : Tree.text? [("a", .file [120])] (locate none "b") = none := by
    rw [show locate none "b" = ⟨.here, ["b"]⟩ by decide]
    exact text?_of_missing (by decide) (by decide)
  have read : texts [("a", .file [120])] none ["a", "b"] = [("a", ['x'])] := by simp [texts, first, second]
  have total : (alone (.indexed [Catalog.openaiApiKey]) {} "a" ['x']).toOption.isSome := by decide +kernel
  cases own : alone (.indexed [Catalog.openaiApiKey]) {} "a" ['x'] with
  | error f => rw [own] at total; cases total
  | ok found =>
    have all : (texts [("a", .file [120])] none (({} : Settings).admitted ["a", "b"])).mapM
        (fun text => alone (.indexed [Catalog.openaiApiKey]) {} text.1 text.2) = .ok [found] := by
      rw [asked, read]
      simp only [List.mapM_cons, own]
      rfl
    obtain ⟨e', eq⟩ := ((scan_decomposes .start [("a", .file [120])] (some ["a", "b"]) none).1 _).mpr
      ⟨["a", "b"], [found], ([], []), rfl, by decide, all, rfl, rfl⟩
    exact ⟨_, e', eq, by rw [asked]; rfl, by rw [asked, read]; rfl⟩

/-- A name that holds a NUL keeps a scan without a report, though no analyzer is asked anything. -/
theorem scan_nul :
    texts [] none ["a\x00.py"] = [] ∧ (start .builtIn {}).repositoryPart [] none = .ok ([], []) ∧
      ∀ report e', (start .builtIn {}).scan [] (some ["a\x00.py"]) none ≠ .ok (report, e') := by
  have fault : (start .builtIn {}).scan [] (some ["a\x00.py"]) none = .error (.repository .nulInPath) := rfl
  refine ⟨?_, rfl, fun report e' eq => ?_⟩
  · have nothing : Tree.text? [] (locate none "a\x00.py") = none := by
      rw [show locate none "a\x00.py" = ⟨.here, ["a\x00.py"]⟩ by decide]
      exact text?_of_missing (by decide) rfl
    simp [texts, nothing]
  · rw [fault] at eq
    cases eq

end Engine

end CodeHygiene
