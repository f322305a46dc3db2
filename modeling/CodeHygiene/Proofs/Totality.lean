import CodeHygiene.Proofs.Catalog
import CodeHygiene.Proofs.Scan
import Mathlib.Data.List.Forall2

/-!
With the built-in rules, a scan has a report.

Proved:
(1) Settings take the place of thresholds and never of their names (`lookup_thresholdsFor`), so that each
    threshold an analyzer asks for is there; what a count is divided by is one or more; a claim quotes the
    text that its violation has among its details. All of this holds whatever the settings are, members
    that are not known included (`sufficient`).
(2) A text without a NUL names a path without one (`holdsNul_ofText`), and a file is below a root that
    holds a NUL unless its path is absolute (`holdsNul_locate`).
(3) A file that cannot be read as text might as well not be named (`texts_readable`).
(4) So the analysis of a text has an answer, and a scan has a report unless the root holds a NUL and either
    a file is looked for below it or the repository itself is looked at (`scan_is_total`).
A root that holds a NUL keeps a scan of one file from its report (`scan_below_nul`).
-/

namespace CodeHygiene

open Repository (Tree Path)
open Settings (Thresholds overridden)

/-! ## What analyzers ask for -/

/-- The thresholds that an analyzer asks for. -/
def Analyzer.thresholdNames : Analyzer → List String
  | .docRatio => ["min_function_lines", "max_ratio"]
  | .verbosityRatio => ["min_code_lines", "max_comment_ratio"]
  | .duplicateStrings => ["max_occurrences", "min_length"]
  | .overEngineering => ["file_ratio_threshold", "lines_per_export_threshold", "depth_threshold"]
  | .claimEvidence => ["min_evidence_matches"]
  | .stubFunctions => []

/-- The thresholds of the section that is about an analyzer. -/
def Settings.thresholdsOf (s : Settings) : Analyzer → Thresholds
  | .docRatio => s.documentation.thresholds
  | .verbosityRatio => s.commentary.thresholds
  | .duplicateStrings => s.literals.thresholds
  | .overEngineering => s.proportions.thresholds
  | .claimEvidence => s.claims.thresholds
  | .stubFunctions => []

theorem lookup_thresholdsFor (s : Settings) (name : String) (usual : Json.Object) (key : String) :
    ((s.thresholdsFor name usual).lookup key).isSome = (usual.lookup key).isSome := by
  rw [Settings.thresholdsFor]
  cases s.sections.lookup name with
  | none => rfl
  | some members =>
    dsimp only
    rw [lookup_overridden, Option.isSome_map]

/-- Whether a rule names every threshold that its analyzer asks for. -/
def Rule.isComplete (rule : Rule) : Bool :=
  rule.analyzer?.all fun a => a.thresholdNames.all fun key => (rule.thresholds.lookup key).isSome

theorem Catalog.all_isComplete : rules.all Rule.isComplete = true := rfl

theorem threshold_of_builtIn (s : Settings) {rule : Rule} (mem : rule ∈ Catalog.rules) {a : Analyzer}
    (own : rule.analyzer? = some a) {key : String} (asked : key ∈ a.thresholdNames) :
    ∃ q, Scan.threshold (overridden rule.thresholds (s.thresholdsOf a)) key = .ok q := by
  have complete := List.all_eq_true.mp Catalog.all_isComplete rule mem
  rw [Rule.isComplete, own, Option.all_some] at complete
  exact threshold_isOk (List.all_eq_true.mp complete key asked) _

/-! ## Claims -/

/-- A finding quotes the claim that a violation has among its details. -/
def Finding.Quotes (f : Finding) (v : Violation) : Prop :=
  ∃ claim, v.details.get? "claim" = some (.str claim) ∧ f.excerpt = Scan.quoted claim.toList

theorem quotes_of_ofRepository {s : Settings} {t : Tree} {root : Path} {said : List Finding × List Violation}
    (run : Scan.ofRepository s Catalog.buzzwordInflation t root = .ok said) :
    List.Forall₂ Finding.Quotes said.1 said.2 := by
  obtain ⟨gaps, -, eq⟩ := bind_eq_ok_iff.mp run
  obtain rfl := pure_eq_ok_iff.mp eq
  rw [List.forall₂_map_left_iff, List.forall₂_map_right_iff, List.forall₂_same]
  intro g _
  exact ⟨g.claim.text, rfl, rfl⟩

/-! ## Whatever the settings are -/

/-- Nothing that a measure needs is missing:
- a section sets thresholds and never takes the name of one away, whatever members it has;
- every threshold that the analyzer of a built-in rule asks for is there;
- bodies that count have a line of code, and every repository has an export, so that each ratio has a
  divisor of one or more;
- each violation of a claim comes with a finding that quotes the claim from its details. -/
structure Sufficient (s : Settings) : Prop where
  names : ∀ name usual key, ((s.thresholdsFor name usual).lookup key).isSome = (usual.lookup key).isSome
  thresholds : ∀ rule ∈ Catalog.rules, ∀ a, rule.analyzer? = some a → ∀ key ∈ a.thresholdNames,
    ∃ q, Scan.threshold (overridden rule.thresholds (s.thresholdsOf a)) key = .ok q
  documentation : ∀ least, Scan.threshold (overridden Catalog.docCodeRatio.thresholds s.documentation.thresholds)
    "min_function_lines" = .ok least → ∀ l content, ∀ d ∈ Measure.Documentation.functions l content,
      least.toInt ≤ d.codeLines → 1 ≤ d.codeLines
  commentary : ∀ least, Scan.threshold (overridden Catalog.verbosityRatio.thresholds s.commentary.thresholds)
    "min_code_lines" = .ok least → ∀ l content, ∀ b ∈ Measure.Commentary.bodies l content,
      least.toInt ≤ b.counts.code → 1 ≤ b.counts.code
  exports : ∀ t root, 1 ≤ (Repository.exportCount t root).count
  claims : ∀ t root said, Scan.ofRepository s Catalog.buzzwordInflation t root = .ok said →
    List.Forall₂ Finding.Quotes said.1 said.2

theorem sufficient (s : Settings) : Sufficient s where
  names := lookup_thresholdsFor s
  thresholds := fun _ mem _ own _ asked => threshold_of_builtIn s mem own asked
  documentation := by
    intro least set l content d _ reaching
    have pos : 1 ≤ least.toInt := threshold_pos (m := 3) rfl (by decide) (by decide) set
    omega
  commentary := by
    intro least set l content b _ reaching
    have pos : 1 ≤ least.toInt := threshold_pos (m := 3) rfl (by decide) (by decide) set
    omega
  exports := Repository.exportCount_pos
  claims := fun _ _ _ run => quotes_of_ofRepository run

/-! ## Paths -/

namespace Repository.Path

theorem mem_of_mem_split {text part : List Char} (mem : part ∈ split text) {c : Char} (inside : c ∈ part) : c ∈ text := by
  induction text generalizing part with
  | nil =>
    rw [split, List.mem_singleton] at mem
    rw [mem] at inside
    cases inside
  | cons first rest ih =>
    rw [split] at mem
    by_cases slash : first = '/'
    · rw [if_pos slash] at mem
      rcases List.mem_cons.mp mem with rfl | later
      · cases inside
      · exact List.mem_cons_of_mem first (ih later inside)
    · rw [if_neg slash] at mem
      cases parts : split rest with
      | nil =>
        rw [parts, List.mem_singleton] at mem
        rw [mem, List.mem_singleton] at inside
        rw [inside]
        exact List.mem_cons_self
      | cons here more =>
        rw [parts] at mem
        rcases List.mem_cons.mp mem with rfl | later
        · rcases List.mem_cons.mp inside with rfl | deeper
          · exact List.mem_cons_self
          · have among : here ∈ split rest := by rw [parts]; exact List.mem_cons_self
            exact List.mem_cons_of_mem first (ih among deeper)
        · have among : part ∈ split rest := by rw [parts]; exact List.mem_cons_of_mem here later
          exact List.mem_cons_of_mem first (ih among inside)

theorem holdsNul_ofText {s : String} (clean : '\x00' ∉ s.toList) : (ofText s).holdsNul = false := by
  rw [holdsNul, List.any_eq_false]
  intro part mem nul
  obtain ⟨among, -⟩ := List.mem_filter.mp mem
  obtain ⟨chars, split, rfl⟩ := List.mem_map.mp among
  rw [String.toList_ofList, List.contains_iff_mem] at nul
  exact clean (mem_of_mem_split split nul)

end Repository.Path

namespace Engine

variable {s : Settings} {e : Engine} {t : Tree} {files : Option (List String)} {root : Option Path}

/-- Only below a root that holds a NUL is a clean file not to be opened. -/
theorem holdsNul_locate (root : Option Path) {file : String} (clean : '\x00' ∉ file.toList) :
    (locate root file).holdsNul = false ↔
      ∀ r, root = some r → r.holdsNul = true → (Path.ofText file).isAbsolute = true := by
  have own := Path.holdsNul_ofText clean
  cases root with
  | none =>
    simp [locate, own]
  | some r =>
    simp only [locate, Path.below, Path.join, Option.some.injEq, forall_eq']
    by_cases absolute : (Path.ofText file).isAbsolute = true
    · simp [absolute, own]
    · have below : (Path.holdsNul ⟨r.start, r.parts ++ (Path.ofText file).parts⟩) = r.holdsNul := by
        have parts : (Path.ofText file).parts.any (fun part => part.toList.contains '\x00') = false := own
        rw [Path.holdsNul, List.any_append, parts, Bool.or_false]
        rfl
      simp [absolute, below]

/-! ## Repositories -/

theorem ofRepository_nul (s : Settings) {rule : Rule} (whole : rule.isProjectLevel = true) (t : Tree) {root : Path}
    (nul : root.holdsNul = true) (said : List Finding × List Violation) : Scan.ofRepository s rule t root ≠ .ok said := by
  have shut : ∀ {α : Type} (answer a : α), Repository.opening [root] answer ≠ .ok a := by
    intro α answer a
    simp [Repository.opening, nul]
  intro run
  rw [Rule.isProjectLevel] at whole
  rw [Scan.ofRepository] at run
  cases own : rule.analyzer? with
  | none =>
    rw [own] at whole
    cases whole
  | some a =>
    rw [own] at whole run
    cases a with
    | overEngineering =>
      obtain ⟨vs, measured, -⟩ := bind_eq_ok_iff.mp run
      obtain ⟨limits, -, measured⟩ := bind_eq_ok_iff.mp measured
      obtain ⟨p, opened, -⟩ := bind_eq_ok_iff.mp measured
      exact shut _ p (mapError_eq_ok_iff.mp opened)
    | claimEvidence =>
      obtain ⟨gaps, audited, -⟩ := bind_eq_ok_iff.mp run
      obtain ⟨required, -, audited⟩ := bind_eq_ok_iff.mp audited
      obtain ⟨a, opened, -⟩ := bind_eq_ok_iff.mp audited
      exact shut _ a (mapError_eq_ok_iff.mp opened)
    | docRatio => cases whole
    | verbosityRatio => cases whole
    | stubFunctions => cases whole
    | duplicateStrings => cases whole

/-- A repository is answered for unless its path holds a NUL and a rule looks at it. -/
theorem repositoryPart_isOk_iff (s : Settings) (t : Tree) (root : Option Path) :
    (∃ part, (start .builtIn s).repositoryPart t root = .ok part) ↔
      ∀ r, root = some r → r.holdsNul = true → s.isQuick = true ∨ (start .builtIn s).repositoryRules = [] := by
  constructor
  · rintro ⟨part, said⟩ r own nul
    rcases repositoryPart_eq_ok_iff.mp said with ⟨quick, -⟩ | ⟨r', same, -, judged⟩
    · exact .inl (quick r own)
    · right
      cases own.symm.trans same
      cases rules : (start .builtIn s).repositoryRules with
      | nil => rfl
      | cons rule rest =>
        have mem : rule ∈ (start .builtIn s).repositoryRules := by rw [rules]; exact List.mem_cons_self
        have whole : rule.isProjectLevel = true := (of_mem_repositoryRules mem).2.1
        rw [rules, judgeRepository] at judged
        obtain ⟨here, answer, -⟩ := bind_eq_ok_iff.mp judged
        exact absurd answer (ofRepository_nul s whole t nul here)
  · intro looked
    by_cases clean : ∀ r, root = some r → r.holdsNul = false
    · exact repositoryPart_builtIn_isOk s t clean
    · obtain ⟨r, own, nul⟩ : ∃ r, root = some r ∧ r.holdsNul = true := by simpa using clean
      rcases looked r own nul with quick | without
      · exact ⟨_, repositoryPart_eq_ok_iff.mpr (.inl ⟨fun _ _ => quick, rfl⟩)⟩
      · cases quick : s.isQuick with
        | true => exact ⟨_, repositoryPart_eq_ok_iff.mpr (.inl ⟨fun _ _ => quick, rfl⟩)⟩
        | false => exact ⟨([], []), repositoryPart_eq_ok_iff.mpr (.inr ⟨r, own, quick, by rw [without]; rfl⟩)⟩

/-! ## Files that cannot be read -/

/-- The files that are there and are text. -/
def readable (t : Tree) (root : Option Path) (files : List String) : List String :=
  files.filter fun file => (t.text? (locate root file)).isSome

theorem texts_readable (t : Tree) (root : Option Path) (files : List String) :
    texts t root (s.admitted (readable t root files)) = texts t root (s.admitted files) := by
  have comm : s.admitted (readable t root files) = readable t root (s.admitted files) := List.filter_comm _ _ _
  rw [comm, readable, texts, List.filterMap_filter, texts]
  refine List.filterMap_congr fun file _ => ?_
  cases text : t.text? (locate root file) <;> simp

/-! ## A scan has a report -/

/-- With the built-in rules, an engine that was asked anything before, and files whose paths hold no NUL:
- the analysis of a text has an answer;
- a scan has a report, unless its root holds a NUL and either a file is looked for below it or the
  repository itself is looked at;
- the report is that of the files that can be read as text, whatever else is named beside them;
- nothing is missing that a measure needs. -/
theorem scan_is_total (h : Left .builtIn s e) {given : List String} (known : filesToScan s t files root = .ok given)
    (clean : ∀ file ∈ given, '\x00' ∉ file.toList) :
    (∀ content path language, ∃ found e', e.analyze content path language = .ok (found, e')) ∧
    ((∃ report e', e.scan t files root = .ok (report, e')) ↔ ∀ r, root = some r → r.holdsNul = true →
      (∀ file ∈ s.admitted given, (Path.ofText file).isAbsolute = true) ∧
        (s.isQuick = true ∨ (start .builtIn s).repositoryRules = [])) ∧
    (∀ report e', e.scan t files root = .ok (report, e') →
      ∃ report' e'', e.scan t (some (readable t root given)) root = .ok (report', e'') ∧
        report'.findings = report.findings ∧ report'.violations = report.violations ∧
        report'.filesAnalyzed = report.filesAnalyzed) ∧
    Sufficient s := by
  refine ⟨fun content path language => ?_, ?_, fun report e' scanned => ?_, sufficient s⟩
  · obtain ⟨found, answer⟩ := analysis_builtIn_isOk s content path language
    exact ⟨found, (h.kept.analyze_eq_ok_iff content path language found).mpr answer⟩
  · have named : ∀ file ∈ s.admitted given, '\x00' ∉ file.toList := fun file mem => clean file (List.mem_filter.mp mem).1
    simp only [h.kept.scan_eq_ok_iff, gathered_eq_ok_iff]
    constructor
    · rintro ⟨report, given', known', found, part, located, -, said, -⟩ r own nul
      cases known.symm.trans known'
      exact ⟨fun file mem => (holdsNul_locate root (named file mem)).mp (located file mem) r own nul,
        (repositoryPart_isOk_iff s t root).mp ⟨part, said⟩ r own nul⟩
    · intro outside
      obtain ⟨found, all⟩ : ∃ found, (texts t root (s.admitted given)).mapM
          (fun text => alone .builtIn s text.1 text.2) = .ok found :=
        mapM_isOk fun _ _ => alone_builtIn_isOk s _ _
      obtain ⟨part, said⟩ := (repositoryPart_isOk_iff s t root).mpr fun r own nul => (outside r own nul).2
      have located : ∀ file ∈ s.admitted given, (locate root file).holdsNul = false := fun file mem =>
        (holdsNul_locate root (named file mem)).mpr fun r own nul => (outside r own nul).1 file mem
      exact ⟨_, given, known, found, part, located, all, said, rfl⟩
  · obtain ⟨given', known', made⟩ := (h.kept.scan_eq_ok_iff t files root report).mp ⟨e', scanned⟩
    cases known.symm.trans known'
    obtain ⟨found, part, located, all, said, rfl⟩ := (gathered_eq_ok_iff t root given report).mp made
    have still : ∀ file ∈ s.admitted (readable t root given), (locate root file).holdsNul = false := by
      intro file mem
      obtain ⟨inside, admitted⟩ := List.mem_filter.mp mem
      exact located file (List.mem_filter.mpr ⟨(List.mem_filter.mp inside).1, admitted⟩)
    have same := texts_readable (s := s) t root given
    obtain ⟨e'', again⟩ := (h.kept.scan_eq_ok_iff t (some (readable t root given)) root _).mpr
      ⟨readable t root given, rfl, (gathered_eq_ok_iff t root _ _).mpr
        ⟨found, part, still, by rw [same]; exact all, said, rfl⟩⟩
    exact ⟨_, e'', again, rfl, rfl, by rw [same]⟩

/-- A file that is not text, a directory, and a file that is not there. -/
theorem scan_is_total_unreadable :
    ∃ report e', (start .builtIn {}).scan [("a.py", .file [255]), ("b", .directory [])] (some ["a.py", "b", "c"])
      (some (.ofText ".")) = .ok (report, e') := by
  have known : filesToScan {} [("a.py", .file [255]), ("b", .directory [])] (some ["a.py", "b", "c"])
      (some (.ofText ".")) = .ok ["a.py", "b", "c"] := rfl
  obtain ⟨-, reported, -⟩ := scan_is_total .start known (by decide)
  refine reported.mpr fun r own nul => ?_
  cases own
  exact absurd nul (by decide)

/-- The file that is named holds no NUL; the root does. -/
theorem scan_below_nul :
    (∀ file ∈ ["a.py"], '\x00' ∉ file.toList) ∧
      ∀ report e', (start .builtIn {}).scan [] (some ["a.py"]) (some (.ofText "\x00")) ≠ .ok (report, e') := by
  refine ⟨by decide, fun report e' scanned => ?_⟩
  have fault : (start .builtIn {}).scan [] (some ["a.py"]) (some (.ofText "\x00")) = .error (.repository .nulInPath) := rfl
  rw [fault] at scanned
  cases scanned

end Engine

end CodeHygiene
