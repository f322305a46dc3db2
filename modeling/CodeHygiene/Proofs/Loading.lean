import CodeHygiene.CommandLine.Run
import CodeHygiene.Proofs.Scan

/-!
How loading settings can fail.

Whatever is asked for, at most one file is consulted: the one that is named, or else that of the project if
it is there. Reading it can fail in four ways, of which two are not told as faults of the settings: bytes
that are no text, and a whole number with more digits than are read.

Proved:
(1) A file is read or it is not text, not JSON or no object (`readFile_eq_error_iff`); a source has no object
    when the file that is named is not there or cannot be read (`source_eq_error_iff`); settings are missing
    when the source has no object or its values, with what is put over them, are not accepted
    (`load_eq_error_iff`).
(2) A fault that is told as one of the settings names the file that was consulted
    (`path?_of_load_eq_error`).
(3) So settings are loaded, or it is told why and of which file, exactly when the file is text and none of
    its whole numbers is too long; a run then ends with status 1 and prints nothing on its output
    (`loading_fails_one_way`).
A file with one byte that is no text ends a run without a status (`illegible_file`).
-/

namespace CodeHygiene

open Repository (Tree Path)

namespace Settings

variable {t : Tree} {path project : Option String} {p : Path} {bytes : List UInt8} {f : Fault}

/-! ## The file -/

/-- The file that settings are read from: that which is named, or else that of the project if it is there. -/
def consulted (t : Tree) (path project : Option String) : Option Path :=
  match path, project with
  | some p, _ => some (Path.ofText p)
  | none, some p =>
    let p := (Path.ofText p).below fileName
    if t.isFile p then some p else none
  | none, none => none

/-- The bytes of a file that can be read, whatever it says. -/
def Readable (bytes : List UInt8) : Prop :=
  ∃ text, Tree.textOf bytes = .ok text ∧ ∀ fault n, Json.read text = .error fault → fault.problem ≠ .tooManyDigits n

/-- If a file is consulted, and it is there, it can be read. -/
def Legible (t : Tree) (path project : Option String) : Prop :=
  ∀ p bytes, consulted t path project = some p → t.bytes? p = some bytes → Readable bytes

theorem Fault.isReported_ofText (p : Path) (text : List Char) (fault : Json.Fault) :
    (ofText p text fault).isReported = true ↔ ∀ n, fault.problem ≠ .tooManyDigits n := by
  rw [ofText]
  split
  next n eq => exact ⟨nofun, fun short => absurd eq (short n)⟩
  next other => exact ⟨fun _ => other, fun _ => rfl⟩

theorem Fault.path?_ofText {text : List Char} {fault : Json.Fault} (told : (ofText p text fault).isReported = true) :
    (ofText p text fault).path? = some p := by
  rw [ofText] at told ⊢
  split at told
  next => cases told
  next => rfl

theorem readFile_eq_error_iff :
    readFile p bytes = .error f ↔
      (∃ fault, Tree.textOf bytes = .error fault ∧ f = .notText fault) ∨
      ∃ text, Tree.textOf bytes = .ok text ∧
        ((∃ fault, Json.read text = .error fault ∧ f = .ofText p text fault) ∨
          ∃ v, Json.read text = .ok v ∧ (∀ o, v ≠ .obj o) ∧ f = .notObject p) := by
  rw [readFile]
  cases Tree.textOf bytes with
  | error fault => simp [Except.mapError, bind, Except.bind, eq_comm]
  | ok text =>
    cases parsed : Json.read text with
    | error fault => simp [Except.mapError, bind, Except.bind, parsed, eq_comm]
    | ok v => cases v <;> simp [Except.mapError, bind, Except.bind, pure, Except.pure, parsed, eq_comm]

/-- What keeps a file from being read as an object is told exactly when the file can be read. -/
theorem isReported_of_readFile (failed : readFile p bytes = .error f) : f.isReported = true ↔ Readable bytes := by
  rcases readFile_eq_error_iff.mp failed with ⟨fault, undecoded, rfl⟩ | ⟨text, decoded, wrong⟩
  · constructor
    · intro told
      cases told
    · rintro ⟨text, decoded, -⟩
      rw [undecoded] at decoded
      cases decoded
  · have readable : Readable bytes ↔ ∀ fault n, Json.read text = .error fault → fault.problem ≠ .tooManyDigits n := by
      constructor
      · rintro ⟨text', decoded', short⟩
        cases decoded.symm.trans decoded'
        exact short
      · exact fun short => ⟨text, decoded, short⟩
    rw [readable]
    rcases wrong with ⟨fault, unread, rfl⟩ | ⟨v, parsed, -, rfl⟩
    · rw [Fault.isReported_ofText, unread]
      constructor
      · intro short fault' n same
        cases same
        exact short n
      · exact fun short n => short fault n rfl
    · rw [parsed]
      exact ⟨fun _ => nofun, fun _ => rfl⟩

theorem path?_of_readFile (failed : readFile p bytes = .error f) (told : f.isReported = true) : f.path? = some p := by
  rcases readFile_eq_error_iff.mp failed with ⟨fault, -, rfl⟩ | ⟨text, -, ⟨fault, -, rfl⟩ | ⟨v, -, -, rfl⟩⟩
  · cases told
  · exact Fault.path?_ofText told
  · rfl

/-- A file that is read as an object can be read. -/
theorem readable_of_readFile {o : Json.Object} (done : readFile p bytes = .ok o) : Readable bytes := by
  obtain ⟨text, decoded, done⟩ := bind_eq_ok_iff.mp done
  obtain ⟨v, parsed, -⟩ := bind_eq_ok_iff.mp done
  refine ⟨text, mapError_eq_ok_iff.mp decoded, fun fault n failed => ?_⟩
  rw [mapError_eq_ok_iff.mp parsed] at failed
  cases failed

/-! ## The source -/

/-- The file that is consulted is read, if one is. -/
theorem source_eq (t : Tree) (path project : Option String) : source t path project =
    match consulted t path project with
    | none => .ok (none, [])
    | some p =>
      match t.bytes? p with
      | none => .error (.notFound p)
      | some bytes => (readFile p bytes).map (some p, ·) := by
  cases path with
  | some name =>
    simp only [source, consulted]
    cases t.bytes? (Path.ofText name) <;> rfl
  | none =>
    cases project with
    | none => rfl
    | some name =>
      obtain absent | ⟨bytes, there⟩ := Option.eq_none_or_eq_some (t.bytes? ((Path.ofText name).below fileName))
      · simp [source, consulted, Tree.isFile, absent]
      · simp [source, consulted, Tree.isFile, there]

theorem map_eq_error_iff {α β : Type} {x : Except Fault α} {g : α → β} : x.map g = .error f ↔ x = .error f := by
  cases x <;> simp [Except.map]

theorem source_eq_error_iff :
    source t path project = .error f ↔ ∃ p, consulted t path project = some p ∧
      ((t.bytes? p = none ∧ f = .notFound p) ∨ ∃ bytes, t.bytes? p = some bytes ∧ readFile p bytes = .error f) := by
  rw [source_eq]
  cases consulted t path project with
  | none => simp
  | some p =>
    cases there : t.bytes? p with
    | none => simp [there, eq_comm]
    | some bytes => simp [there, map_eq_error_iff]

theorem source_fst {out : Option Path × Json.Object} (found : source t path project = .ok out) :
    out.1 = consulted t path project ∧
      ∀ p bytes, consulted t path project = some p → t.bytes? p = some bytes → readFile p bytes = .ok out.2 := by
  rw [source_eq] at found
  cases that : consulted t path project with
  | none =>
    rw [that] at found
    cases found
    exact ⟨rfl, nofun⟩
  | some p =>
    simp only [that] at found
    cases there : t.bytes? p with
    | none => rw [there] at found; cases found
    | some bytes =>
      simp only [there] at found
      cases done : readFile p bytes with
      | error fault => rw [done] at found; cases found
      | ok o =>
        rw [done] at found
        cases found
        refine ⟨rfl, fun p' bytes' same other => ?_⟩
        cases same
        cases there.symm.trans other
        exact done

/-! ## Settings -/

/-- The values of a file with further ones over them; nulls among these do not count. -/
def mergedWith (o more : Json.Object) : Json.Object := o.update (more.filter fun (_, v) => !v.isNull)

variable {more : Json.Object}

theorem load_eq_ok_iff {s : Settings} :
    load t path project more = .ok s ↔ ∃ o, source t path project = .ok (consulted t path project, o) ∧
      read (mergedWith o more) = .ok s := by
  rw [load]
  cases found : source t path project with
  | error fault => simp [bind, Except.bind]
  | ok out =>
    obtain ⟨file, o⟩ := out
    obtain rfl : file = consulted t path project := (source_fst found).1
    simp only [bind, Except.bind, Except.ok.injEq, Prod.mk.injEq, true_and, exists_eq_left']
    cases done : read (o.update (more.filter fun (_, v) => !v.isNull)) with
    | ok s' => simp [mergedWith, done, pure, Except.pure]
    | faulty problems => simp [mergedWith, done]

theorem load_eq_error_iff :
    load t path project more = .error f ↔
      source t path project = .error f ∨
      ∃ o problems, source t path project = .ok (consulted t path project, o) ∧
        read (mergedWith o more) = .faulty problems ∧ f = .invalid (consulted t path project) problems := by
  rw [load]
  cases found : source t path project with
  | error fault => simp [bind, Except.bind]
  | ok out =>
    obtain ⟨file, o⟩ := out
    obtain rfl : file = consulted t path project := (source_fst found).1
    simp only [bind, Except.bind, reduceCtorEq, false_or, Except.ok.injEq, Prod.mk.injEq, true_and]
    cases done : read (o.update (more.filter fun (_, v) => !v.isNull)) with
    | ok s' => simp [mergedWith, done, pure, Except.pure]
    | faulty problems => simp [mergedWith, done, eq_comm]

/-- A fault that is told names the file that was consulted, or none where none was. -/
theorem path?_of_load_eq_error (failed : load t path project more = .error f) (told : f.isReported = true) :
    f.path? = consulted t path project := by
  rcases load_eq_error_iff.mp failed with missing | ⟨o, problems, -, -, rfl⟩
  · obtain ⟨p, that, ⟨-, rfl⟩ | ⟨bytes, -, unread⟩⟩ := source_eq_error_iff.mp missing
    · exact that.symm
    · rw [that]
      exact path?_of_readFile unread told
  · rfl

/-- A fault is told exactly when the file can be read. -/
theorem isReported_of_load_eq_error (failed : load t path project more = .error f) :
    f.isReported = true ↔ Legible t path project := by
  rcases load_eq_error_iff.mp failed with missing | ⟨o, problems, found, -, rfl⟩
  · obtain ⟨p, that, ⟨absent, rfl⟩ | ⟨bytes, there, unread⟩⟩ := source_eq_error_iff.mp missing
    · refine ⟨fun _ p' bytes same there => ?_, fun _ => rfl⟩
      cases that.symm.trans same
      rw [absent] at there
      cases there
    · rw [isReported_of_readFile unread]
      constructor
      · intro readable p' bytes' same there'
        cases that.symm.trans same
        cases there.symm.trans there'
        exact readable
      · exact fun legible => legible p bytes that there
  · exact ⟨fun _ p bytes that there => readable_of_readFile ((source_fst found).2 p bytes that there), fun _ => rfl⟩

theorem legible_of_load_eq_ok {s : Settings} (loaded : load t path project more = .ok s) : Legible t path project := by
  obtain ⟨o, found, -⟩ := load_eq_ok_iff.mp loaded
  exact fun p bytes that there => readable_of_readFile ((source_fst found).2 p bytes that there)

end Settings

/-! ## Runs -/

namespace CommandLine

open Settings (Legible consulted load)

theorem run_of_load_eq_error {t : Tree} {words : List String} {a : Arguments} (asked : Arguments.read words = .ok a)
    {f : Settings.Fault} (failed : load t a.config (some a.path) a.settings = .error f) :
    run t words = if f.isReported then .ok { status := 1, err := "Error loading config: " ++ f.message ++ "\n" }
      else .error (.settings f) := by
  rw [run, asked]
  simp only [execute, failed]

/-- For every tree:
- whatever file and project are named, or none, and whatever values are put over those of the file, there
  are settings, or a fault is told that names the file that was consulted, exactly when that file, if it is
  there, is text without a whole number that is too long;
- a run without settings then ends with status 1, tells the fault and prints nothing on its output, and
  otherwise it does not come to an end of its own. -/
theorem loading_fails_one_way (t : Tree) :
    (∀ path project more,
      ((∃ s o, load t path project more = .ok s ∧ Settings.source t path project = .ok (consulted t path project, o) ∧
          Settings.read (Settings.mergedWith o more) = .ok s) ∨
        ∃ f, load t path project more = .error f ∧ f.isReported = true ∧ f.path? = consulted t path project) ↔
      Legible t path project) ∧
    ∀ words a f, Arguments.read words = .ok a → load t a.config (some a.path) a.settings = .error f →
      (Legible t a.config (some a.path) →
        run t words = .ok { status := 1, out := "", err := "Error loading config: " ++ f.message ++ "\n" }) ∧
      (¬Legible t a.config (some a.path) → run t words = .error (.settings f)) := by
  refine ⟨fun path project more => ⟨?_, fun legible => ?_⟩, fun words a f asked failed => ⟨fun legible => ?_, fun illegible => ?_⟩⟩
  · rintro (⟨s, o, loaded, -⟩ | ⟨f, failed, told, -⟩)
    · exact Settings.legible_of_load_eq_ok loaded
    · exact (Settings.isReported_of_load_eq_error failed).mp told
  · cases done : load t path project more with
    | ok s =>
      obtain ⟨o, found, accepted⟩ := Settings.load_eq_ok_iff.mp done
      exact .inl ⟨s, o, rfl, found, accepted⟩
    | error f =>
      have told := (Settings.isReported_of_load_eq_error done).mpr legible
      exact .inr ⟨f, rfl, told, Settings.path?_of_load_eq_error done told⟩
  · rw [run_of_load_eq_error asked failed, if_pos ((Settings.isReported_of_load_eq_error failed).mpr legible)]
  · rw [run_of_load_eq_error asked failed, if_neg (fun told => illegible ((Settings.isReported_of_load_eq_error failed).mp told))]

/-- What a run is given that names a file for its settings. -/
theorem read_config : Arguments.read ["--config", "c.json"] = .ok { config := some "c.json" } := by
  have words : Word.classifyAll ["--config", "c.json"] =
      .ok [("--config", .option .config "--config" none), ("c.json", .plain)] := by rfl
  have values : Progress.valuesOf .config [("c.json", .plain)] = ["c.json"] := rfl
  have taken : Progress.takeFollowing {} .config ["c.json"] = .ok { config := some "c.json" } := rfl
  have finished : ∀ p, Progress.run p [] = .ok p := fun p => by rw [Progress.run]
  rw [Arguments.read, words]
  simp only [Except.mapError, bind, Except.bind, Progress.run, values, taken, List.length_singleton,
    List.drop_succ_cons, List.drop_nil, finished]
  rfl

/-- What the file that is named holds is all that settings are read from. -/
theorem load_config {bytes : List UInt8} {f : Settings.Fault}
    (failed : Settings.readFile ⟨.here, ["c.json"]⟩ bytes = .error f) :
    load [("c.json", .file bytes)] (some "c.json") (some ".") [] = .error f := by
  have there : Tree.bytes? [("c.json", .file bytes)] ⟨.here, ["c.json"]⟩ = some bytes :=
    Engine.bytes?_of_lookup (by decide) rfl
  have place : Path.ofText "c.json" = ⟨.here, ["c.json"]⟩ := by decide
  refine Settings.load_eq_error_iff.mpr (.inl (Settings.source_eq_error_iff.mpr ?_))
  exact ⟨_, congrArg some place, .inr ⟨bytes, there, failed⟩⟩

/-- A file that holds a list. -/
theorem loading_fails_one_way_list :
    run [("c.json", .file [91, 93])] ["--config", "c.json"] =
      .ok { status := 1, out := "", err := "Error loading config: Config c.json must contain a JSON object\n" } := by
  have decoded : Tree.textOf [91, 93] = .ok ['[', ']'] := by rfl
  have parsed : Json.read ['[', ']'] = .ok (.arr []) := by rfl
  have failed : Settings.readFile ⟨.here, ["c.json"]⟩ [91, 93] = .error (.notObject ⟨.here, ["c.json"]⟩) :=
    Settings.readFile_eq_error_iff.mpr (.inr ⟨_, decoded, .inr ⟨_, parsed, by simp, rfl⟩⟩)
  obtain ⟨loading, running⟩ := loading_fails_one_way [("c.json", .file [91, 93])]
  have legible : Legible [("c.json", .file [91, 93])] (some "c.json") (some ".") :=
    (loading _ _ []).mp (.inr ⟨_, load_config failed, rfl, by decide⟩)
  exact (running _ _ _ read_config (load_config failed)).1 legible

/-- One byte that is no text: the settings are not loaded, it is not told as a fault of theirs, and the run has
no status. -/
theorem illegible_file :
    load [("c.json", .file [0xff])] (some "c.json") (some ".") [] = .error (.notText ⟨0xff, 0, 1, .invalidStart⟩) ∧
      (Settings.Fault.notText ⟨0xff, 0, 1, .invalidStart⟩).isReported = false ∧
      consulted [("c.json", .file [0xff])] (some "c.json") (some ".") = some ⟨.here, ["c.json"]⟩ ∧
      ∀ outcome, run [("c.json", .file [0xff])] ["--config", "c.json"] ≠ .ok outcome := by
  have undecoded : Tree.textOf [0xff] = .error ⟨0xff, 0, 1, .invalidStart⟩ := by rfl
  have failed : Settings.readFile ⟨.here, ["c.json"]⟩ [0xff] = .error (.notText ⟨0xff, 0, 1, .invalidStart⟩) :=
    Settings.readFile_eq_error_iff.mpr (.inl ⟨_, undecoded, rfl⟩)
  refine ⟨load_config failed, rfl, by decide, fun outcome ran => ?_⟩
  rw [run_of_load_eq_error read_config (load_config failed)] at ran
  cases ran

end CommandLine

end CodeHygiene
