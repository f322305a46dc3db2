import CodeHygiene.Claim.Evidence
import CodeHygiene.Proofs.Scan
import Mathlib.Data.Set.Card

/-!
Evidence as a set of pairs: a type of evidence, and a file that shows it.

Proved:
(1) To add a file to a type is to add one pair (`Evidence.files_add_iff`), and no pair is held twice
    (`Evidence.Orderly.add`); so the total is the number of pairs (`Evidence.Orderly.total_eq`).
(2) A file adds the types that it shows, by its path or by its text (`files_searchFile_iff`), and a list of files
    those that its files show, whatever was found before (`files_evidenceIn_iff`).
(3) So the total counts pairs: it does not depend on the order of the list, on files that are listed again or on how
    many traces of a type a file has, and it is a sum over two lists without a common file
    (`evidence_counts_pairs`).
(4) There is an answer unless a text is to be read at a path that holds a NUL; there, nothing is found and nothing is
    answered (`no_evidence_at_nul`).
-/

namespace CodeHygiene.Claim

open Repository (Tree Path)

/-! ## Pairs -/

namespace Evidence

variable {e : Evidence} {type type' file file' : String}

/-- A file is filed under a type. -/
def Files (e : Evidence) (type file : String) : Prop := ∃ files, (type, files) ∈ e ∧ file ∈ files

/-- Every type is there once, and every file once under a type. -/
structure Orderly (e : Evidence) : Prop where
  types : e.found.Nodup
  files : ∀ entry ∈ e, entry.2.Nodup

theorem files_nil : ¬ Files [] type file := by simp [Files]

theorem files_cons_iff {files : List String} :
    Files ((type', files) :: e) type file ↔ (type = type' ∧ file ∈ files) ∨ Files e type file := by
  unfold Files
  constructor
  · rintro ⟨own, mem, inside⟩
    rcases List.mem_cons.mp mem with same | later
    · cases same
      exact .inl ⟨rfl, inside⟩
    · exact .inr ⟨own, later, inside⟩
  · rintro (⟨rfl, inside⟩ | ⟨own, later, inside⟩)
    · exact ⟨files, List.mem_cons_self, inside⟩
    · exact ⟨own, List.mem_cons_of_mem _ later, inside⟩

theorem files_add_iff : (e.add type file).Files type' file' ↔ e.Files type' file' ∨ (type' = type ∧ file' = file) := by
  induction e with
  | nil => simp [add, files_cons_iff, files_nil]
  | cons entry rest ih =>
    obtain ⟨first, files⟩ := entry
    unfold add
    by_cases same : first = type
    · subst same
      simp only [if_true, files_cons_iff]
      split
      · rename_i there
        have inside : file ∈ files := List.contains_iff_mem.mp there
        constructor
        · exact Or.inl
        · rintro (old | ⟨rfl, rfl⟩)
          · exact old
          · exact .inl ⟨rfl, inside⟩
      · simp only [List.mem_append, List.mem_singleton]
        tauto
    · simp only [if_neg same, files_cons_iff, ih]
      tauto

theorem mem_found_add_iff : type' ∈ (e.add type file).found ↔ type' ∈ e.found ∨ type' = type := by
  induction e with
  | nil => simp [add, found]
  | cons entry rest ih =>
    obtain ⟨first, files⟩ := entry
    unfold found at ih
    unfold add found
    by_cases same : first = type
    · subst same
      simp only [if_true, List.map_cons, List.mem_cons]
      tauto
    · simp only [if_neg same, List.map_cons, List.mem_cons, ih]
      tauto

namespace Orderly

theorem nil : Orderly [] := ⟨List.nodup_nil, nofun⟩

theorem add (h : Orderly e) (type file : String) : Orderly (e.add type file) := by
  induction e with
  | nil => exact ⟨List.nodup_singleton _, by simp [Evidence.add]⟩
  | cons entry rest ih =>
    obtain ⟨first, files⟩ := entry
    obtain ⟨apart, others⟩ : first ∉ Evidence.found rest ∧ (Evidence.found rest).Nodup := List.nodup_cons.mp h.types
    obtain ⟨own, each⟩ := List.forall_mem_cons.mp h.files
    unfold Evidence.add
    by_cases same : first = type
    · rw [if_pos same]
      refine ⟨h.types, List.forall_mem_cons.mpr ⟨?_, each⟩⟩
      split
      · exact own
      · rename_i new
        have absent : file ∉ files := fun inside => new (List.contains_iff_mem.mpr inside)
        refine List.nodup_append.mpr ⟨own, List.nodup_singleton file, ?_⟩
        intro a old b only
        rw [List.mem_singleton.mp only]
        exact fun eq => absent (eq ▸ old)
    · rw [if_neg same]
      obtain ⟨types, inside⟩ := ih ⟨others, each⟩
      refine ⟨List.nodup_cons.mpr ⟨?_, types⟩, List.forall_mem_cons.mpr ⟨own, inside⟩⟩
      intro mem
      rcases mem_found_add_iff.mp mem with old | new
      · exact apart old
      · exact same new

theorem addFor (h : Orderly e) (file : String) (types : List String) : Orderly (e.addFor file types) := by
  unfold Evidence.addFor
  induction types generalizing e with
  | nil => exact h
  | cons type types ih => exact ih (h.add type file)

end Orderly

/-- The pairs of a type and a file. -/
def pairs (e : Evidence) : List (String × String) := e.flatMap fun entry => entry.2.map (entry.1, ·)

theorem mem_pairs_iff : (type, file) ∈ e.pairs ↔ e.Files type file := by
  unfold pairs Files
  constructor
  · intro mem
    obtain ⟨entry, among, inside⟩ := List.mem_flatMap.mp mem
    obtain ⟨own, there, same⟩ := List.mem_map.mp inside
    cases same
    exact ⟨entry.2, among, there⟩
  · rintro ⟨files, among, inside⟩
    exact List.mem_flatMap.mpr ⟨(type, files), among, List.mem_map_of_mem inside⟩

theorem length_pairs (e : Evidence) : e.pairs.length = e.total := by
  unfold pairs total
  induction e with
  | nil => rfl
  | cons entry rest ih =>
    simp only [List.flatMap_cons, List.length_append, List.length_map, List.map_cons, Tally.sum, ih]

theorem Orderly.nodup_pairs (h : Orderly e) : e.pairs.Nodup := by
  unfold pairs
  refine List.nodup_flatMap.mpr ⟨?_, ?_⟩
  · intro entry mem
    exact (h.files entry mem).map fun _ _ same => (Prod.mk.inj same).2
  · refine (List.pairwise_map.mp h.types).imp fun apart => ?_
    intro p here there
    obtain ⟨_, _, rfl⟩ := List.mem_map.mp here
    obtain ⟨_, _, same⟩ := List.mem_map.mp there
    exact apart (Prod.mk.inj same).1.symm

/-- The total is the number of pairs. -/
theorem Orderly.total_eq (h : Orderly e) : e.total = {p : String × String | e.Files p.1 p.2}.ncard := by
  have as_set : {p : String × String | e.Files p.1 p.2} = ↑e.pairs.toFinset := by
    ext p
    simp [← mem_pairs_iff]
  rw [as_set, Set.ncard_coe_finset, List.toFinset_card_of_nodup h.nodup_pairs, length_pairs]

theorem files_addFor_iff {types : List String} :
    (e.addFor file types).Files type' file' ↔ e.Files type' file' ∨ (type' ∈ types ∧ file' = file) := by
  unfold addFor
  induction types generalizing e with
  | nil => simp
  | cons type types ih =>
    simp only [List.foldl_cons, ih, files_add_iff, List.mem_cons]
    tauto

end Evidence

/-! ## What a file shows -/

/-- A file has a trace: in its path, or in its text, if it can be read. -/
def Trace.IsAt (t : Tree) (root : Path) (file : String) : Trace → Prop
  | .onPath r => r.occursIn file.toList = true
  | .inText r => ∃ text, t.text? (root.below file) = some text ∧ r.occursIn text = true

/-- A file shows a type of evidence for a category: it has a trace of the type. -/
def Shows (t : Tree) (root : Path) (table : EvidenceTable) (category type file : String) : Prop :=
  ∃ traces, (type, traces) ∈ typesOf table category ∧ ∃ trace ∈ traces, trace.IsAt t root file

section

variable {t : Tree} {root : Path} {types : List (String × List Trace)} {type file : String}

/-- The traces of one form, each with its type. -/
theorem mem_traces_iff (pick : String → Trace → Option (String × Regex)) (form : Regex → Trace)
    (picks : ∀ own trace x, pick own trace = some x ↔ ∃ r, trace = form r ∧ x = (own, r)) {r : Regex} :
    (type, r) ∈ types.flatMap (fun (own, traces) => traces.filterMap (pick own)) ↔
      ∃ traces, (type, traces) ∈ types ∧ form r ∈ traces := by
  constructor
  · intro mem
    obtain ⟨⟨_, traces⟩, among, inside⟩ := List.mem_flatMap.mp mem
    obtain ⟨trace, own, eq⟩ := List.mem_filterMap.mp inside
    obtain ⟨_, rfl, same⟩ := (picks _ _ _).mp eq
    cases same
    exact ⟨traces, among, own⟩
  · rintro ⟨traces, among, own⟩
    exact List.mem_flatMap.mpr ⟨(type, traces), among, List.mem_filterMap.mpr ⟨form r, own, (picks _ _ _).mpr ⟨r, rfl, rfl⟩⟩⟩

theorem mem_pathTraces_iff {r : Regex} :
    (type, r) ∈ pathTraces types ↔ ∃ traces, (type, traces) ∈ types ∧ Trace.onPath r ∈ traces :=
  mem_traces_iff (fun own => fun | .onPath r => some (own, r) | .inText _ => none) .onPath fun own trace x => by
    cases trace <;> simp [eq_comm]

theorem mem_textTraces_iff {r : Regex} :
    (type, r) ∈ textTraces types ↔ ∃ traces, (type, traces) ∈ types ∧ Trace.inText r ∈ traces :=
  mem_traces_iff (fun own => fun | .onPath _ => none | .inText r => some (own, r)) .inText fun own trace x => by
    cases trace <;> simp [eq_comm]

theorem mem_recognised_iff {traces : List (String × Regex)} {text : List Char} :
    type ∈ recognised traces text ↔ ∃ r, (type, r) ∈ traces ∧ r.occursIn text = true := by
  unfold recognised
  simp

/-- What the text of a file shows; nothing when it cannot be read. -/
theorem files_searchText_iff {e : Evidence} {type' file' : String} {traces : List (String × Regex)} :
    Evidence.Files (if traces.isEmpty then e
      else match t.text? (root.below file) with
        | none => e
        | some text => e.addFor file (recognised traces text)) type' file' ↔
      e.Files type' file' ∨ (file' = file ∧ ∃ r text, (type', r) ∈ traces ∧ t.text? (root.below file) = some text ∧
        r.occursIn text = true) := by
  cases read : t.text? (root.below file) with
  | none => simp
  | some text =>
    by_cases none : traces = []
    · simp [none]
    · simp only [List.isEmpty_iff, none, if_false, Evidence.files_addFor_iff, mem_recognised_iff, Option.some.injEq]
      constructor
      · rintro (old | ⟨⟨r, among, found⟩, same⟩)
        · exact .inl old
        · exact .inr ⟨same, r, text, among, rfl, found⟩
      · rintro (old | ⟨same, r, _, among, rfl, found⟩)
        · exact .inl old
        · exact .inr ⟨⟨r, among, found⟩, same⟩

/-- A file adds the types that it shows. -/
theorem files_searchFile_iff {e : Evidence} {type' file' : String} :
    (searchFile t root types e file).Files type' file' ↔
      e.Files type' file' ∨ (file' = file ∧ ∃ traces, (type', traces) ∈ types ∧
        ∃ trace ∈ traces, trace.IsAt t root file) := by
  unfold searchFile
  refine files_searchText_iff.trans ?_
  simp only [Evidence.files_addFor_iff, mem_recognised_iff, mem_pathTraces_iff, mem_textTraces_iff]
  constructor
  · rintro ((old | ⟨⟨r, ⟨traces, among, own⟩, found⟩, rfl⟩) | ⟨rfl, r, text, ⟨traces, among, own⟩, read, found⟩)
    · exact .inl old
    · exact .inr ⟨rfl, traces, among, .onPath r, own, found⟩
    · exact .inr ⟨rfl, traces, among, .inText r, own, text, read, found⟩
  · rintro (old | ⟨rfl, traces, among, trace, own, present⟩)
    · exact .inl (.inl old)
    · cases trace with
      | onPath r => exact .inl (.inr ⟨⟨r, ⟨traces, among, own⟩, present⟩, rfl⟩)
      | inText r =>
        obtain ⟨text, read, found⟩ := present
        exact .inr ⟨rfl, r, text, ⟨traces, among, own⟩, read, found⟩

theorem orderly_searchFile {e : Evidence} (h : e.Orderly) : (searchFile t root types e file).Orderly := by
  unfold searchFile
  have byPath := h.addFor file (recognised (pathTraces types) file.toList)
  dsimp only
  split
  · exact byPath
  · split
    · exact byPath
    · exact byPath.addFor _ _

end

/-! ## What a list of files shows -/

section

variable {t : Tree} {root : Path} {category : String} {table : EvidenceTable} {files files' : List String}
  {type file : String}

/-- The pairs that were there and those of the files, step by step. -/
theorem files_foldl_iff {e : Evidence} : (files.foldl (searchFile t root (typesOf table category)) e).Files type file ↔
    e.Files type file ∨ (file ∈ files ∧ Shows t root table category type file) := by
  induction files generalizing e with
  | nil => simp
  | cons first files ih =>
    rw [List.foldl_cons, ih, files_searchFile_iff]
    unfold Shows
    constructor
    · rintro ((old | ⟨rfl, shows⟩) | ⟨later, shows⟩)
      · exact .inl old
      · exact .inr ⟨List.mem_cons_self, shows⟩
      · exact .inr ⟨List.mem_cons_of_mem _ later, shows⟩
    · rintro (old | ⟨mem, shows⟩)
      · exact .inl (.inl old)
      · rcases List.mem_cons.mp mem with rfl | later
        · exact .inl (.inr ⟨rfl, shows⟩)
        · exact .inr ⟨later, shows⟩

theorem orderly_evidenceIn : (evidenceIn t root category table files).Orderly := by
  have run : ∀ e : Evidence, e.Orderly →
      Evidence.Orderly (files.foldl (searchFile t root (typesOf table category)) e) := by
    induction files with
    | nil => exact fun e h => h
    | cons first files ih => exact fun e h => ih _ (orderly_searchFile h)
  exact run [] .nil

theorem files_evidenceIn_iff :
    (evidenceIn t root category table files).Files type file ↔ file ∈ files ∧ Shows t root table category type file := by
  unfold evidenceIn
  rw [files_foldl_iff]
  exact or_iff_right Evidence.files_nil

/-- The total counts the pairs of a type and a listed file that shows it. -/
theorem total_evidenceIn : (evidenceIn t root category table files).total =
    {p : String × String | p.2 ∈ files ∧ Shows t root table category p.1 p.2}.ncard := by
  rw [orderly_evidenceIn.total_eq]
  simp only [files_evidenceIn_iff]

theorem finite_shown : {p : String × String | p.2 ∈ files ∧ Shows t root table category p.1 p.2}.Finite := by
  refine ((evidenceIn t root category table files).pairs.toFinset.finite_toSet).subset ?_
  intro p shown
  have mem := Evidence.mem_pairs_iff.mpr (files_evidenceIn_iff.mpr shown)
  simpa using mem

/-- Over two lists without a common file, the totals add up. -/
theorem total_evidenceIn_append {more : List String} (apart : ∀ file ∈ files, file ∉ more) :
    (evidenceIn t root category table (files ++ more)).total =
      (evidenceIn t root category table files).total + (evidenceIn t root category table more).total := by
  have union : {p : String × String | p.2 ∈ files ++ more ∧ Shows t root table category p.1 p.2} =
      {p | p.2 ∈ files ∧ Shows t root table category p.1 p.2} ∪
        {p | p.2 ∈ more ∧ Shows t root table category p.1 p.2} := by
    ext p
    simp only [List.mem_append, Set.mem_ofPred_eq, Set.mem_union]
    tauto
  have disjoint : Disjoint {p : String × String | p.2 ∈ files ∧ Shows t root table category p.1 p.2}
      {p | p.2 ∈ more ∧ Shows t root table category p.1 p.2} :=
    Set.disjoint_left.mpr fun p here there => apart p.2 here.1 there.1
  rw [total_evidenceIn, total_evidenceIn, total_evidenceIn, union, Set.ncard_union_eq disjoint finite_shown finite_shown]

/-- A search has an answer unless a text is to be read at a path that holds a NUL. -/
theorem search_eq_ok_iff {e : Evidence} : search t root category table files = .ok e ↔
    (textTraces (typesOf table category) = [] ∨ ∀ file ∈ files, (root.below file).holdsNul = false) ∧
      e = evidenceIn t root category table files := by
  unfold search Repository.opening
  by_cases none : textTraces (typesOf table category) = []
  · rw [none, and_iff_right (.inl rfl)]
    show Except.ok (evidenceIn t root category table files) = Except.ok e ↔ _
    rw [Except.ok.injEq, eq_comm]
  · simp only [List.isEmpty_iff, none, if_false, false_or]
    by_cases clean : ∀ file ∈ files, (root.below file).holdsNul = false
    · have opens : ¬ (files.map root.below).any Path.holdsNul = true := by simpa using clean
      rw [if_neg opens, and_iff_right clean, Except.ok.injEq, eq_comm]
    · have shut : (files.map root.below).any Path.holdsNul = true := by simpa using clean
      rw [if_pos shut]
      exact iff_of_false nofun fun found => clean found.1

end

/-- A search has an answer unless a text is to be read at a path that holds a NUL, and then:
- it files each listed file under each type that the file shows, and nothing else;
- its total is the number of these pairs;
- a list of the same files, in another order or with repetitions, has the same answer but for the order;
- so has a table in which the files show the same types, by however many traces;
- over two lists without a common file, totals add up. -/
theorem evidence_counts_pairs (t : Tree) (root : Path) (category : String) (table : EvidenceTable) (files : List String) :
    ((∃ e, search t root category table files = .ok e) ↔
      textTraces (typesOf table category) = [] ∨ ∀ file ∈ files, (root.below file).holdsNul = false) ∧
    ∀ e, search t root category table files = .ok e →
      (∀ type file, e.Files type file ↔ file ∈ files ∧ Shows t root table category type file) ∧
      e.total = {p : String × String | p.2 ∈ files ∧ Shows t root table category p.1 p.2}.ncard ∧
      (∀ files', (∀ file, file ∈ files' ↔ file ∈ files) → ∃ e', search t root category table files' = .ok e' ∧
        e'.total = e.total ∧ ∀ type file, e'.Files type file ↔ e.Files type file) ∧
      (∀ table' e', (∀ file ∈ files, ∀ type,
          Shows t root table' category type file ↔ Shows t root table category type file) →
        search t root category table' files = .ok e' →
          e'.total = e.total ∧ ∀ type file, e'.Files type file ↔ e.Files type file) ∧
      (∀ more e', (∀ file ∈ files, file ∉ more) → search t root category table more = .ok e' →
        ∃ both, search t root category table (files ++ more) = .ok both ∧ both.total = e.total + e'.total) := by
  refine ⟨?_, ?_⟩
  · constructor
    · rintro ⟨e, found⟩
      exact (search_eq_ok_iff.mp found).1
    · intro clean
      exact ⟨_, search_eq_ok_iff.mpr ⟨clean, rfl⟩⟩
  · intro e found
    obtain ⟨clean, rfl⟩ := search_eq_ok_iff.mp found
    refine ⟨fun _ _ => files_evidenceIn_iff, total_evidenceIn, ?_, ?_, ?_⟩
    · intro files' same
      refine ⟨_, search_eq_ok_iff.mpr ⟨clean.imp_right fun each file mem => each file ((same file).mp mem), rfl⟩, ?_, ?_⟩
      · rw [total_evidenceIn, total_evidenceIn]
        simp only [same]
      · intro type file
        rw [files_evidenceIn_iff, files_evidenceIn_iff, same]
    · intro table' e' same found'
      obtain ⟨-, rfl⟩ := search_eq_ok_iff.mp found'
      have shown : ∀ type file, (file ∈ files ∧ Shows t root table' category type file) ↔
          (file ∈ files ∧ Shows t root table category type file) :=
        fun type file => and_congr_right fun mem => same file mem type
      refine ⟨?_, ?_⟩
      · rw [total_evidenceIn, total_evidenceIn]
        simp only [shown]
      · intro type file
        rw [files_evidenceIn_iff, files_evidenceIn_iff, shown]
    · intro more e' apart found'
      obtain ⟨clean', rfl⟩ := search_eq_ok_iff.mp found'
      refine ⟨_, search_eq_ok_iff.mpr ⟨?_, rfl⟩, total_evidenceIn_append apart⟩
      rcases clean with none | each
      · exact .inl none
      · refine clean'.imp_right fun each' file mem => ?_
        exact (List.mem_append.mp mem).elim (each file) (each' file)

/-- A test that handles failures. -/
def testTree : Tree := [("test_a.py", .file ("except:".toList.map fun c => c.val.toUInt8))]

theorem search_testTree : search testTree {} "production" defaultEvidence ["test_a.py", "test_a.py"] =
    .ok [("tests", ["test_a.py"]), ("error_handling", ["test_a.py"])] := by
  have below : Path.below {} "test_a.py" = ⟨.here, ["test_a.py"]⟩ := by decide
  have decoded : Tree.textOf ("except:".toList.map fun c => c.val.toUInt8) = .ok "except:".toList := by decide +kernel
  have read : testTree.text? (Path.below {} "test_a.py") = some "except:".toList := by
    rw [below, Engine.text?_of_lookup (by decide) rfl, decoded]
    rfl
  have types : typesOf defaultEvidence "production" = productionEvidence := rfl
  have byPath : recognised (pathTraces productionEvidence) "test_a.py".toList = ["tests"] := by decide +kernel
  have byText : recognised (textTraces productionEvidence) "except:".toList = ["error_handling"] := by decide +kernel
  have opens : (textTraces productionEvidence).isEmpty = false := rfl
  refine search_eq_ok_iff.mpr ⟨.inr (by decide), ?_⟩
  rw [evidenceIn, types, List.foldl_cons, List.foldl_cons, List.foldl_nil]
  simp only [searchFile, byPath, byText, opens, read]
  rfl

/-- The file is listed twice and has a trace of either kind; it counts once for each type. -/
theorem evidence_counts_pairs_testTree : ∃ e,
    search testTree {} "production" defaultEvidence ["test_a.py", "test_a.py"] = .ok e ∧ e.total = 2 ∧
      {p : String × String | p.2 ∈ ["test_a.py", "test_a.py"] ∧
        Shows testTree {} defaultEvidence "production" p.1 p.2}.ncard = 2 ∧
      ∃ once, search testTree {} "production" defaultEvidence ["test_a.py"] = .ok once ∧ once.total = 2 := by
  obtain ⟨-, answered⟩ := evidence_counts_pairs testTree {} "production" defaultEvidence ["test_a.py", "test_a.py"]
  obtain ⟨-, counts, again, -⟩ := answered _ search_testTree
  obtain ⟨once, found, same, -⟩ := again ["test_a.py"] (by simp)
  exact ⟨_, search_testTree, rfl, counts.symm, once, found, same⟩

/-- A name that holds a NUL: the file shows nothing, and yet the search has no answer. -/
theorem no_evidence_at_nul :
    (∀ type, ¬ Shows [] {} defaultEvidence "production" type "\x00") ∧
      ∀ e, search [] {} "production" defaultEvidence ["\x00"] ≠ .ok e := by
  have none : recognised (pathTraces productionEvidence) "\x00".toList = [] := by decide +kernel
  have unread : Tree.text? [] (Path.below {} "\x00") = Option.none := by
    rw [show Path.below {} "\x00" = ⟨.here, ["\x00"]⟩ by decide]
    exact Engine.text?_of_missing (by decide) rfl
  refine ⟨?_, ?_⟩
  · rintro type ⟨traces, among, trace, own, present⟩
    cases trace with
    | onPath r =>
      have mem := mem_recognised_iff.mpr ⟨r, mem_pathTraces_iff.mpr ⟨traces, among, own⟩, present⟩
      rw [show typesOf defaultEvidence "production" = productionEvidence from rfl, none] at mem
      cases mem
    | inText r =>
      obtain ⟨text, read, -⟩ := present
      rw [unread] at read
      cases read
  · intro e found
    rcases (search_eq_ok_iff.mp found).1 with untexted | clean
    · cases untexted
    · exact absurd (clean _ List.mem_cons_self) (by decide)

end CodeHygiene.Claim
