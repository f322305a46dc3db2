import CodeHygiene.CommandLine.Run
import CodeHygiene.Proofs.Catalog
import CodeHygiene.Proofs.Regex
import CodeHygiene.Proofs.Scan

/-!
A key in a line is found whatever stands around it.

Proved:
(1) A rule that looks at each line, and asks for no entropy, has a finding in every line in which its
    expression occurs (`mem_ofPattern`); so has a text, whatever the other rules find in it
    (`mem_analysis`).
(2) The expression for keys occurs in every line that holds one (`occursIn_key`), also when carriage
    returns behind the line are dropped (`HoldsKey.dropReturns`).
(3) With the built-in rules a scan of known files has a report, unless the path of one that is admitted
    holds a NUL (`scan_builtIn_isOk_iff`); the report tells of every key (`tellsKey_of_scan`).
(4) So exactly without such a path, a key in a file that is asked for and not left out is reported as
    critical and certain, the verdict is high, and a run of the program has status 2 (`key_is_reported`).
A file with a NUL in its name keeps the keys in all others from being reported (`key_beside_nul`).
-/

namespace CodeHygiene

open Repository (Tree Path)

/-! ## Lines -/

namespace Text

theorem dropReturns_append (before : List Char) {c : Char} (ne : c ≠ '\r') (after : List Char) :
    dropReturns (before ++ c :: after) = before ++ c :: dropReturns after := by
  have turned : (before ++ c :: after).reverse = after.reverse ++ c :: before.reverse := by simp
  rw [dropReturns, turned, List.dropWhile_append, dropReturns]
  split
  next none_left =>
    rw [List.isEmpty_iff.mp none_left, List.dropWhile_cons_of_neg (by simpa using ne)]
    simp
  next => simp

end Text

namespace Scan

variable {rule : Rule} {r : Regex} {src : Source}

theorem hitIn?_isSome (certain : rule.leastEntropy = none) {line : Line} (occurs : r.occursIn line = true) :
    (hitIn? rule r line).isSome := by
  have every : counts rule r line = fun _ => true := by
    funext h
    simp [counts, certain]
  obtain ⟨h, more, eq⟩ := List.exists_cons_of_ne_nil ((Regex.all_ne_nil_iff r line).mpr occurs)
  simp [hitIn?, eq, every]

theorem mem_ofLines (certain : rule.leastEntropy = none) {n : Nat} {line : Line} (there : src.lines[n]? = some line)
    (occurs : r.occursIn line = true) :
    ∃ column excerpt, findingAt rule src (n + 1) column excerpt ∈ ofLines rule r src := by
  obtain ⟨h, hit⟩ := Option.isSome_iff_exists.mp (hitIn?_isSome certain occurs)
  have numbered : (line, n + 1) ∈ src.lines.zipIdx 1 :=
    List.mk_mem_zipIdx_iff_le_and_getElem?_sub.mpr ⟨Nat.le_add_left 1 n, by simpa using there⟩
  refine ⟨h.start + 1, quoted line, List.mem_filterMap.mpr ⟨(line, n + 1), numbered, ?_⟩⟩
  simp only [hit, Option.map_some]

/-- A rule for each line that asks for no entropy. -/
structure LineRule (rule : Rule) : Prop where
  scope : rule.scope = .line
  consecutive : rule.consecutive = none
  leastEntropy : rule.leastEntropy = none

theorem mem_ofPattern (h : LineRule rule) {n : Nat} {line : Line} (there : src.lines[n]? = some line)
    (occurs : r.occursIn line = true) :
    ∃ column excerpt, findingAt rule src (n + 1) column excerpt ∈ ofPattern rule r src := by
  have each : ofPattern rule r src = ofLines rule r src := by
    simp [ofPattern, h.scope, h.consecutive]
  rw [each]
  exact mem_ofLines h.leastEntropy there occurs

theorem mem_ofPatterns {rules : List Rule} (mem : rule ∈ rules) (own : rule.pattern? = some r) {f : Finding}
    (found : f ∈ ofPattern rule r src) : f ∈ ofPatterns rules src := by
  refine List.mem_flatMap.mpr ⟨rule, mem, ?_⟩
  rw [own]
  exact found

end Scan

/-! ## Keys -/

/-- A line holds a key: `sk-` and, right after it, at least 32 ASCII letters or digits. -/
def HoldsKey (line : List Char) : Prop :=
  ∃ before key after, line = before ++ 's' :: 'k' :: '-' :: (key ++ after) ∧ 32 ≤ key.length ∧
    ∀ c ∈ key, c.isAlphanum = true

/-- The letters of a key. -/
def keyLetters : Regex.CharSet := { items := [.range 'a' 'z', .range 'A' 'Z', .range '0' '9'] }

theorem keyLetters_contains {c : Char} (h : c.isAlphanum = true) : keyLetters.contains c = true := by
  simp only [keyLetters, Regex.CharSet.contains, Regex.CharItem.contains, List.any_cons, List.any_nil,
    Bool.false_eq_true, if_false, Bool.bne_false, Bool.or_false, Bool.or_eq_true, Bool.and_eq_true, decide_eq_true_eq]
  rcases Bool.or_eq_true_iff.mp h with alpha | digit
  · rcases Bool.or_eq_true_iff.mp alpha with upper | lower
    · exact .inr (.inl (of_decide_eq_true upper))
    · obtain ⟨low, high⟩ := Bool.and_eq_true_iff.mp lower
      exact .inl ⟨of_decide_eq_true low, of_decide_eq_true high⟩
  · obtain ⟨low, high⟩ := Bool.and_eq_true_iff.mp digit
    exact .inr (.inr ⟨of_decide_eq_true low, of_decide_eq_true high⟩)

theorem HoldsKey.dropReturns {line : List Char} (h : HoldsKey line) : HoldsKey (Text.dropReturns line) := by
  obtain ⟨before, key, after, rfl, enough, letters⟩ := h
  -- The last letter of the key is no carriage return.
  obtain ⟨most, last, rfl⟩ : ∃ most last, key = most ++ [last] := by
    rcases List.eq_nil_or_concat key with rfl | ⟨most, last, rfl⟩
    · cases enough
    · exact ⟨most, last, List.concat_eq_append⟩
  have letter : last.isAlphanum = true := letters last (by simp)
  have ne : last ≠ '\r' := by
    rintro rfl
    cases letter
  refine ⟨before, most ++ [last], Text.dropReturns after, ?_, enough, letters⟩
  have kept := Text.dropReturns_append (before ++ 's' :: 'k' :: '-' :: most) ne after
  simpa using kept

namespace Catalog

theorem openaiApiKey_mem : openaiApiKey ∈ rules := List.mem_of_getElem? (i := 30) rfl

theorem lineRule_openaiApiKey : Scan.LineRule openaiApiKey := ⟨rfl, rfl, rfl⟩

theorem pattern?_openaiApiKey :
    openaiApiKey.pattern?.map (·.node) =
      some (.seq (.set (.one 's')) (.seq (.set (.one 'k')) (.seq (.set (.one '-')) (.run keyLetters 32 none false)))) := by
  decide +kernel

theorem occursIn_key {r : Regex} (own : openaiApiKey.pattern? = some r) {line : List Char} (h : HoldsKey line) :
    r.occursIn line = true := by
  have node := pattern?_openaiApiKey
  rw [own, Option.map_some, Option.some_inj] at node
  obtain ⟨before, key, after, rfl, enough, letters⟩ := h
  have run : 32 ≤ ((key ++ after).takeWhile keyLetters.contains).length := by
    rw [List.takeWhile_append_of_pos fun c mem => keyLetters_contains (letters c mem), List.length_append]
    omega
  have here : ∀ place offset, Regex.ends r.node ⟨place, offset, 's' :: 'k' :: '-' :: (key ++ after), []⟩ ≠ [] := by
    intro place offset
    rw [node, Regex.ends_seq_of_singleton (Regex.ends_one 's' _ _ _ _),
      Regex.ends_seq_of_singleton (Regex.ends_one 'k' _ _ _ _), Regex.ends_seq_of_singleton (Regex.ends_one '-' _ _ _ _)]
    exact Regex.ends_run_ne_nil run
  rw [Regex.occursIn, Regex.search?, Option.isSome_map]
  exact Regex.firstFrom_isSome here before none 0

end Catalog

/-! ## Texts -/

namespace Engine

variable {s : Settings} {e : Engine}

theorem mem_judge {rules : List Rule} {src : Scan.Source} {language : Option String} {found : List Finding}
    (judged : judge s rules src language = .ok found) {f : Finding} (mem : f ∈ Scan.ofPatterns rules src) : f ∈ found := by
  obtain ⟨more, -, rfl⟩ := judge_eq_ok_iff.mp judged
  exact List.mem_append_left more mem

/-- What a built-in rule for every language finds with its pattern is among what is found, unless the rule
may not report or leaves the file out. -/
theorem mem_analysis {rule : Rule} {r : Regex} (mem : rule ∈ Catalog.rules) (universal : rule.isUniversal = true)
    (own : rule.pattern? = some r) (selected : s.selects rule = true) {content : List Char} {path : String}
    (kept : Exclusion.excludes path rule.excludes = false) {language : Option String} {found : List Finding}
    (analyzed : analysis .builtIn s content path language = .ok found) {f : Finding}
    (finding : f ∈ Scan.ofPattern rule r { path, content }) : f ∈ found := by
  refine mem_judge analyzed (Scan.mem_ofPatterns (List.mem_filter.mpr ⟨mem_select mem universal selected _, ?_⟩) own finding)
  rw [kept]
  rfl

/-- A finding that tells of a key. -/
structure TellsKey (file : String) (line : Nat) (f : Finding) : Prop where
  file : f.file = file
  line : f.line = line
  rule : f.rule = "openai_api_key"
  severity : f.severity = .critical
  certainty : f.certainty = .high

theorem tellsKey_of_analysis (selected : s.selects Catalog.openaiApiKey = true) {content : List Char} {path : String}
    (kept : Exclusion.excludes path Catalog.openaiApiKey.excludes = false) {language : Option String} {found : List Finding}
    (analyzed : analysis .builtIn s content path language = .ok found) {n : Nat} {line : List Char}
    (there : (Text.lines content)[n]? = some line) (key : HoldsKey line) : ∃ f ∈ found, TellsKey path (n + 1) f := by
  obtain ⟨r, own⟩ : ∃ r, Catalog.openaiApiKey.pattern? = some r := ⟨_, rfl⟩
  have trimmed : ({ path, content } : Scan.Source).lines[n]? = some (Text.dropReturns line) := by
    simp [there]
  obtain ⟨column, excerpt, mem⟩ := Scan.mem_ofPattern Catalog.lineRule_openaiApiKey trimmed
    (Catalog.occursIn_key own key.dropReturns)
  have reported := mem_analysis Catalog.openaiApiKey_mem rfl own selected kept analyzed mem
  exact ⟨_, reported, rfl, rfl, rfl, rfl, rfl⟩

/-! ## Reports -/

/-- A root below which a file was read holds no NUL. -/
theorem root_clean {t : Tree} {root : Path} {file : String} {content : List Char}
    (read : t.openText (locate (some root) file) = .ok (some content)) : root.holdsNul = false := by
  rw [openText_eq] at read
  cases nul : (locate (some root) file).holdsNul with
  | true => rw [nul] at read; cases read
  | false =>
    simp only [nul, Bool.false_eq_true, if_false, Except.ok.injEq] at read
    simp only [locate, Path.below, Path.join] at nul read
    by_cases absolute : (Path.ofText file).isAbsolute = true
    · simp [absolute, Tree.text?, Tree.bytes?, Tree.resolve?] at read
    · simp only [absolute, Bool.false_eq_true, if_false, Path.holdsNul, List.any_append, Bool.or_eq_false_iff] at nul
      exact nul.1

/-- With the built-in rules, nothing but a NUL in a path keeps a scan of known files without a report. -/
theorem scan_builtIn_isOk_iff (h : Left .builtIn s e) {t : Tree} {files : Option (List String)} {root : Option Path}
    {given : List String} (known : filesToScan s t files root = .ok given)
    (rooted : ∀ r, root = some r → r.holdsNul = false) :
    (∀ file ∈ s.admitted given, (locate root file).holdsNul = false) ↔
      ∃ report e', e.scan t files root = .ok (report, e') := by
  simp only [h.kept.scan_eq_ok_iff, gathered_eq_ok_iff]
  constructor
  · intro clean
    obtain ⟨part, said⟩ := repositoryPart_builtIn_isOk s t rooted
    obtain ⟨found, all⟩ : ∃ found, (texts t root (s.admitted given)).mapM
        (fun text => alone .builtIn s text.1 text.2) = .ok found :=
      mapM_isOk fun _ _ => alone_builtIn_isOk s _ _
    exact ⟨_, given, known, found, part, clean, all, said, rfl⟩
  · rintro ⟨report, given', known', found, part, clean, -⟩
    cases known.symm.trans known'
    exact clean

end Engine

namespace Report

variable {r : Report} {f : Finding}

theorem hasCritical_of_mem (mem : f ∈ r.findings) (critical : f.severity = .critical) : r.hasCritical = true := by
  simp only [hasCritical, severities, List.contains_iff_mem, List.mem_append]
  exact .inl (List.mem_map.mpr ⟨f, mem, critical⟩)

theorem verdict_of_hasCritical (h : r.hasCritical = true) : r.verdict = .high := by
  have mem : Severity.critical ∈ r.severities := by simpa [hasCritical] using h
  have worst : r.severities.any Severity.isHigh = true := List.any_eq_true.mpr ⟨.critical, mem, rfl⟩
  have reporting : r.severities.isEmpty = false := by
    cases eq : r.severities with
    | nil => rw [eq] at mem; cases mem
    | cons => rfl
  simp [verdict, Verdict.ofSeverities, reporting, worst]

end Report

/-! ## Runs -/

namespace CommandLine

/-- A run with settings that are valid ends as its scan does. -/
theorem run_eq_ok_iff {t : Tree} {words : List String} {a : Arguments} {s : Settings}
    (asked : Arguments.read words = .ok a) (loaded : Settings.load t a.config (some a.path) a.settings = .ok s)
    (outcome : Outcome) :
    run t words = .ok outcome ↔
      ∃ report e', (Engine.start .builtIn s).scan t a.files (some (.ofText a.path)) = .ok (report, e') ∧
        outcome = { status := statusOf report, out := a.render report ++ "\n" } := by
  simp only [run, asked, execute, loaded, scanWith]
  cases (Engine.start .builtIn s).scan t a.files (some (.ofText a.path)) with
  | error f => simp [Except.mapError, bind, Except.bind]
  | ok made =>
    obtain ⟨report, e'⟩ := made
    simp [Except.mapError, bind, Except.bind, pure, Except.pure, eq_comm]

end CommandLine

/-! ## Keys are reported -/

namespace Engine

variable {s : Settings} {e : Engine}

theorem selects_openaiApiKey (enabled : s.isEnabled "openai_api_key" = true)
    (severe : ∀ severities, s.severities = some severities → .critical ∈ severities) :
    s.selects Catalog.openaiApiKey = true := by
  refine Bool.and_eq_true_iff.mpr ⟨enabled, ?_⟩
  cases own : s.severities with
  | none => rfl
  | some severities => exact List.contains_iff_mem.mpr (severe severities own)

theorem excludes_openaiApiKey {path : String}
    (kept : ∀ glob ∈ ["*.test.*", "*.spec.*", "*.example.*"],
      ∀ name ∈ [Exclusion.slashed path, Exclusion.lastComponent (Exclusion.slashed path)],
        (Glob.ofText glob).accepts name.toList = false) :
    Exclusion.excludes (Exclusion.slashed path) Catalog.openaiApiKey.excludes = false := by
  rw [Exclusion.excludes_slashed, Bool.eq_false_iff]
  intro out
  obtain ⟨glob, mem, accepted⟩ := Exclusion.excludes_iff.mp out
  have neither := kept glob mem
  simp only [List.mem_cons, List.not_mem_nil, or_false, forall_eq_or_imp, forall_eq] at neither
  rcases accepted with whole | last
  · exact absurd whole (Bool.eq_false_iff.mp neither.1)
  · exact absurd last (Bool.eq_false_iff.mp neither.2)

/-- A scan that has a report tells of every key in a file that is read and not left out. -/
theorem tellsKey_of_scan (h : Left .builtIn s e) {t : Tree} {files : Option (List String)} {root : Option Path}
    {given : List String} (known : filesToScan s t files root = .ok given)
    (selected : s.selects Catalog.openaiApiKey = true) {p : String} (asked : p ∈ s.admitted given)
    (kept : Exclusion.excludes (Exclusion.slashed p) Catalog.openaiApiKey.excludes = false) {content : List Char}
    (read : t.text? (locate root p) = some content) {n : Nat} {line : List Char}
    (there : (Text.lines content)[n]? = some line) (key : HoldsKey line) {report : Report} {e' : Engine}
    (scanned : e.scan t files root = .ok (report, e')) :
    (∃ f ∈ report.findings, TellsKey (Exclusion.slashed p) (n + 1) f) ∧ report.hasCritical = true ∧
      report.verdict = .high := by
  obtain ⟨given', known', made⟩ := (h.kept.scan_eq_ok_iff t files root report).mp ⟨e', scanned⟩
  cases known.symm.trans known'
  obtain ⟨found, part, -, all, -, parts⟩ := (gathered_eq_ok_iff t root given report).mp made
  obtain ⟨inFile, mem, own⟩ := exists_of_mapM all (mem_texts asked read)
  rw [alone_eq] at own
  obtain ⟨f, among, tells⟩ := tellsKey_of_analysis selected kept own there key
  have reported : f ∈ report.findings := by
    rw [parts]
    exact List.mem_append_left part.1 (List.mem_flatten.mpr ⟨inFile, mem, among⟩)
  have critical := Report.hasCritical_of_mem reported tells.severity
  exact ⟨⟨f, reported, tells⟩, critical, Report.verdict_of_hasCritical critical⟩

/-- With the built-in rules, an engine that was asked anything before, a file that is read, and a line of it
that holds a key, where the rule for keys may report and leaves the file out by neither its path nor its
last component: exactly when no path of an admitted file holds a NUL,
- a scan has a report, which tells of the key in its line as critical and certain, and whose verdict is
  high;
- a run of the program that asks for this scan, in whatever form it prints the report, has status 2. -/
theorem key_is_reported (h : Left .builtIn s e) {t : Tree} {files : Option (List String)} {root : Option Path}
    {given : List String} (known : filesToScan s t files root = .ok given) {p : String} (listed : p ∈ given)
    (enabled : s.isEnabled "openai_api_key" = true)
    (severe : ∀ severities, s.severities = some severities → .critical ∈ severities)
    (admitted : s.admitsLanguage (Language.ofPath? p) = true) {content : List Char}
    (read : t.openText (locate root p) = .ok (some content))
    (kept : ∀ glob ∈ ["*.test.*", "*.spec.*", "*.example.*"],
      ∀ name ∈ [Exclusion.slashed p, Exclusion.lastComponent (Exclusion.slashed p)],
        (Glob.ofText glob).accepts name.toList = false)
    {n : Nat} {line : List Char} (there : (Text.lines content)[n]? = some line) (key : HoldsKey line) :
    ((∀ file ∈ s.admitted given, (locate root file).holdsNul = false) ↔
      ∃ report e', e.scan t files root = .ok (report, e') ∧
        (∃ f ∈ report.findings, TellsKey (Exclusion.slashed p) (n + 1) f) ∧
        report.hasCritical = true ∧ report.verdict = .high) ∧
    ∀ words a, CommandLine.Arguments.read words = .ok a → a.files = files → some (.ofText a.path) = root →
      Settings.load t a.config (some a.path) a.settings = .ok s →
        ((∀ file ∈ s.admitted given, (locate root file).holdsNul = false) ↔
          ∃ outcome, CommandLine.run t words = .ok outcome ∧ outcome.status = 2) := by
  have asked : p ∈ s.admitted given := List.mem_filter.mpr ⟨listed, admitted⟩
  have text : t.text? (locate root p) = some content := by
    rw [openText_eq] at read
    split at read
    · cases read
    · exact Except.ok.inj read
  have rooted : ∀ r, root = some r → r.holdsNul = false := by
    rintro r rfl
    exact root_clean read
  have selected := selects_openaiApiKey enabled severe
  have inside := excludes_openaiApiKey kept
  refine ⟨?_, ?_⟩
  · rw [scan_builtIn_isOk_iff h known rooted]
    constructor
    · rintro ⟨report, e', scanned⟩
      exact ⟨report, e', scanned, tellsKey_of_scan h known selected asked inside text there key scanned⟩
    · rintro ⟨report, e', scanned, -⟩
      exact ⟨report, e', scanned⟩
  · rintro words a asked' rfl rfl loaded
    rw [scan_builtIn_isOk_iff .start known rooted]
    constructor
    · rintro ⟨report, e', scanned⟩
      obtain ⟨-, critical, -⟩ := tellsKey_of_scan .start known selected asked inside text there key scanned
      refine ⟨_, (CommandLine.run_eq_ok_iff asked' loaded _).mpr ⟨report, e', scanned, rfl⟩, ?_⟩
      simp [CommandLine.statusOf, critical]
    · rintro ⟨outcome, ran, -⟩
      obtain ⟨report, e', scanned, -⟩ := (CommandLine.run_eq_ok_iff asked' loaded outcome).mp ran
      exact ⟨report, e', scanned⟩

/-- A key of 32 letters, and nothing else. -/
def bareKey : List Char := 's' :: 'k' :: '-' :: List.replicate 32 'a'

theorem holdsKey_bareKey : HoldsKey bareKey := by
  refine ⟨[], List.replicate 32 'a', [], rfl, Nat.le_of_eq List.length_replicate.symm, fun c mem => ?_⟩
  rw [List.eq_of_mem_replicate mem]
  rfl

/-- One file, which is a key. -/
def keyTree : Tree := [("a", .file (115 :: 107 :: 45 :: List.replicate 32 97))]

theorem openText_keyTree : keyTree.openText ⟨.here, ["a"]⟩ = .ok (some bareKey) := by
  have text : Tree.textOf (115 :: 107 :: 45 :: List.replicate 32 97) = .ok bareKey := by rfl
  rw [openText_eq, text?_of_lookup (by decide) rfl, text]
  rfl

/-- The file is named, below the current directory. -/
theorem key_is_reported_alone :
    (∃ report e', (start .builtIn {}).scan keyTree (some ["a"]) (some (.ofText ".")) = .ok (report, e') ∧
      (∃ f ∈ report.findings, TellsKey "a" 1 f) ∧ report.hasCritical = true ∧ report.verdict = .high) ∧
    ∃ outcome, CommandLine.run keyTree ["--files", "a"] = .ok outcome ∧ outcome.status = 2 := by
  have place : locate (some (.ofText ".")) "a" = ⟨.here, ["a"]⟩ := by decide
  have read : keyTree.openText (locate (some (.ofText ".")) "a") = .ok (some bareKey) := by rw [place, openText_keyTree]
  have clean : ∀ file ∈ ({} : Settings).admitted ["a"], (locate (some (.ofText ".")) file).holdsNul = false := by decide
  have asked : CommandLine.Arguments.read ["--files", "a"] = .ok { files := some ["a"] } := by
    have words : CommandLine.Word.classifyAll ["--files", "a"] =
        .ok [("--files", .option .files "--files" none), ("a", .plain)] := by rfl
    have values : CommandLine.Progress.valuesOf .files [("a", .plain)] = ["a"] := rfl
    have taken : CommandLine.Progress.takeFollowing {} .files ["a"] = .ok { files := some ["a"] } := rfl
    have finished : ∀ p, CommandLine.Progress.run p [] = .ok p := fun p => by rw [CommandLine.Progress.run]
    rw [CommandLine.Arguments.read, words]
    simp only [Except.mapError, bind, Except.bind, CommandLine.Progress.run, values, taken, List.length_singleton,
      List.drop_succ_cons, List.drop_nil, finished]
    rfl
  have loaded : Settings.load keyTree none (some ".") [] = .ok {} := by
    have unset : keyTree.bytes? ((Path.ofText ".").below Settings.fileName) = none := by
      rw [show (Path.ofText ".").below Settings.fileName = ⟨.here, [".slop-detector.json"]⟩ by decide]
      exact bytes?_of_missing (by decide) (by decide)
    simp only [Settings.load, Settings.source, unset]
    rfl
  have there : (Text.lines bareKey)[0]? = some bareKey := by decide
  have severe : ∀ severities, ({} : Settings).severities = some severities → Severity.critical ∈ severities := by
    intro severities own
    cases own
  have known : filesToScan {} keyTree (some ["a"]) (some (.ofText ".")) = .ok ["a"] := rfl
  obtain ⟨scanned, ran⟩ := key_is_reported (s := {}) (p := "a") .start known (by decide) (by decide) severe (by decide)
    read (by decide +kernel) there holdsKey_bareKey
  rw [show Exclusion.slashed "a" = "a" by decide +kernel] at scanned
  exact ⟨scanned.mp clean, (ran _ _ asked rfl rfl loaded).mp clean⟩

/-- A second file, with a NUL in its name, keeps the key from being reported. -/
theorem key_beside_nul :
    keyTree.openText (locate none "a") = .ok (some bareKey) ∧ HoldsKey bareKey ∧
      Exclusion.excludes "a" Catalog.openaiApiKey.excludes = false ∧
      ∀ report e', (start .builtIn {}).scan keyTree (some ["a", "b\x00"]) none ≠ .ok (report, e') := by
  refine ⟨?_, holdsKey_bareKey, by decide +kernel, fun report e' scanned => ?_⟩
  · rw [show locate none "a" = ⟨.here, ["a"]⟩ by decide, openText_keyTree]
  · obtain ⟨given, known, made⟩ := ((kept_start .builtIn {}).scan_eq_ok_iff keyTree _ none report).mp ⟨e', scanned⟩
    cases known
    obtain ⟨_, _, clean, -⟩ := (gathered_eq_ok_iff keyTree none _ report).mp made
    have nul : (locate none "b\x00").holdsNul = false := clean "b\x00" (by decide)
    exact absurd nul (by decide)

end Engine

end CodeHygiene
