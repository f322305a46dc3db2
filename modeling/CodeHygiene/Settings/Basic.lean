import CodeHygiene.Settings.Value

/-!
The settings of a scan: which files and rules, how thoroughly, how many at a time, and a section of
thresholds for each measure. A threshold that is set takes the place of the rule's own
(`overridden`). Members that are not known are kept and have no effect.
-/

namespace CodeHygiene

namespace Settings

open Value

/-- Values by name, with those that are given in place of the usual ones; no name is added. -/
def overridden (usual given : List (String × α)) : List (String × α) :=
  usual.map fun (key, v) => (key, (given.lookup key).getD v)

/-- Numbers that are set, by name. -/
abbrev Thresholds := List (String × Quantity)

def wholeThreshold (key : String) (n : Option (AtLeast least)) : Thresholds :=
  (n.map fun n => (key, .whole n.val)).toList

def realThreshold (key : String) (x : Option Float) : Thresholds :=
  (x.map fun x => (key, .real x)).toList

def wholeJson (n : Option (AtLeast least)) : Json := Json.ofOption (fun n => .whole n.val) n

/-! ## Sections -/

/-- Thresholds for documentation. -/
structure Documentation where
  minFunctionLines : Option (AtLeast 1) := none
  maxRatio : Option Float := none
  more : Json.Object := []

namespace Documentation

def read (o : Json.Object) : Checked Documentation :=
  mk <$> member o "min_function_lines" (orNull (atLeast 1)) none
    <*> member o "max_ratio" (orNull positive) none
    <*> pure (others o ["min_function_lines", "max_ratio"])

def thresholds (s : Documentation) : Thresholds :=
  wholeThreshold "min_function_lines" s.minFunctionLines ++ realThreshold "max_ratio" s.maxRatio

def members (s : Documentation) : Json.Object :=
  [("min_function_lines", wholeJson s.minFunctionLines), ("max_ratio", Json.ofOption .real s.maxRatio)]
    ++ s.more

end Documentation

/-- Thresholds for comments. -/
structure Commentary where
  minCodeLines : Option (AtLeast 1) := none
  maxCommentRatio : Option Float := none
  more : Json.Object := []

namespace Commentary

def read (o : Json.Object) : Checked Commentary :=
  mk <$> member o "min_code_lines" (orNull (atLeast 1)) none
    <*> member o "max_comment_ratio" (orNull positive) none
    <*> pure (others o ["min_code_lines", "max_comment_ratio"])

def thresholds (s : Commentary) : Thresholds :=
  wholeThreshold "min_code_lines" s.minCodeLines ++ realThreshold "max_comment_ratio" s.maxCommentRatio

def members (s : Commentary) : Json.Object :=
  [("min_code_lines", wholeJson s.minCodeLines),
   ("max_comment_ratio", Json.ofOption .real s.maxCommentRatio)] ++ s.more

end Commentary

/-- Thresholds for the proportions of a repository. -/
structure Proportions where
  filesPerExport : Option Float := none
  linesPerExport : Option Float := none
  depth : Option (AtLeast 1) := none
  more : Json.Object := []

namespace Proportions

def read (o : Json.Object) : Checked Proportions :=
  mk <$> member o "file_ratio_threshold" (orNull positive) none
    <*> member o "lines_per_export_threshold" (orNull positive) none
    <*> member o "depth_threshold" (orNull (atLeast 1)) none
    <*> pure (others o ["file_ratio_threshold", "lines_per_export_threshold", "depth_threshold"])

def thresholds (s : Proportions) : Thresholds :=
  realThreshold "file_ratio_threshold" s.filesPerExport
    ++ realThreshold "lines_per_export_threshold" s.linesPerExport
    ++ wholeThreshold "depth_threshold" s.depth

def members (s : Proportions) : Json.Object :=
  [("file_ratio_threshold", Json.ofOption .real s.filesPerExport),
   ("lines_per_export_threshold", Json.ofOption .real s.linesPerExport),
   ("depth_threshold", wholeJson s.depth)] ++ s.more

end Proportions

/-- How claims are backed, and which words make them. -/
structure Claims where
  minEvidence : Option (AtLeast 1) := none
  categories : Option (List (String × List String)) := none
  more : Json.Object := []

namespace Claims

def read (o : Json.Object) : Checked Claims :=
  mk <$> member o "min_evidence_matches" (orNull (atLeast 1)) none
    <*> member o "buzzword_categories" (orNull (table (list text))) none
    <*> pure (others o ["min_evidence_matches", "buzzword_categories"])

def thresholds (s : Claims) : Thresholds := wholeThreshold "min_evidence_matches" s.minEvidence

def members (s : Claims) : Json.Object :=
  [("min_evidence_matches", wholeJson s.minEvidence),
   ("buzzword_categories",
     Json.ofOption (fun cs => .obj (cs.map fun (c, words) => (c, Json.strings words))) s.categories)]
    ++ s.more

end Claims

/-- Thresholds for repeated literals. -/
structure Literals where
  maxOccurrences : Option (AtLeast 1) := none
  minLength : Option (AtLeast 1) := none
  more : Json.Object := []

namespace Literals

def read (o : Json.Object) : Checked Literals :=
  mk <$> member o "max_occurrences" (orNull (atLeast 1)) none
    <*> member o "min_length" (orNull (atLeast 1)) none
    <*> pure (others o ["max_occurrences", "min_length"])

def thresholds (s : Literals) : Thresholds :=
  wholeThreshold "max_occurrences" s.maxOccurrences ++ wholeThreshold "min_length" s.minLength

def members (s : Literals) : Json.Object :=
  [("max_occurrences", wholeJson s.maxOccurrences), ("min_length", wholeJson s.minLength)] ++ s.more

end Literals

/-- The capacities of the caches; a cache of capacity zero is off. -/
structure Caches where
  patterns : AtLeast 0 := ⟨50, by decide⟩
  results : AtLeast 0 := ⟨200, by decide⟩
  more : Json.Object := []

namespace Caches

def read (o : Json.Object) : Checked Caches :=
  let usual : Caches := {}
  mk <$> member o "pattern_capacity" (atLeast 0) usual.patterns
    <*> member o "result_capacity" (atLeast 0) usual.results
    <*> pure (others o ["pattern_capacity", "result_capacity"])

def members (s : Caches) : Json.Object :=
  [("pattern_capacity", .whole s.patterns.val), ("result_capacity", .whole s.results.val)] ++ s.more

end Caches

end Settings

/-! ## All settings -/

open Settings in
structure Settings where
  /-- Only files of these languages; none means all. -/
  languages : Option (List String) := none
  /-- Only rules of these severities; none means all. -/
  severities : Option (List Severity) := none
  disabledRules : List String := []
  thoroughness : Thoroughness := .normal
  workers : Within 1 64 := ⟨1, by decide⟩
  maxFiles : AtLeast 1 := ⟨10000, by decide⟩
  documentation : Documentation := {}
  commentary : Commentary := {}
  proportions : Proportions := {}
  claims : Claims := {}
  literals : Literals := {}
  caches : Caches := {}
  more : Json.Object := []

namespace Settings

open Value

/-- The names of the settings and of the sections. -/
def names : List String :=
  ["languages", "severities", "disabled_rules", "thoroughness", "max_workers", "max_files",
   "doc_ratio", "verbosity", "over_engineering", "claim_evidence", "duplicates", "cache"]

def read (o : Json.Object) : Checked Settings :=
  let usual : Settings := {}
  mk <$> member o "languages" (orNull (list text)) usual.languages
    <*> member o "severities" (orNull Value.severities) usual.severities
    <*> member o "disabled_rules" (list text) usual.disabledRules
    <*> member o "thoroughness" Value.thoroughness usual.thoroughness
    <*> member o "max_workers" (within 1 64) usual.workers
    <*> member o "max_files" (atLeast 1) usual.maxFiles
    <*> member o "doc_ratio" (ofSection "DocRatioConfig" Documentation.read) usual.documentation
    <*> member o "verbosity" (ofSection "VerbosityConfig" Commentary.read) usual.commentary
    <*> member o "over_engineering" (ofSection "OverEngineeringConfig" Proportions.read)
      usual.proportions
    <*> member o "claim_evidence" (ofSection "ClaimEvidenceConfig" Claims.read) usual.claims
    <*> member o "duplicates" (ofSection "DuplicatesConfig" Literals.read) usual.literals
    <*> member o "cache" (ofSection "CacheConfig" Caches.read) usual.caches
    <*> pure (others o names)

/-- The sections by name. -/
def sections (s : Settings) : List (String × Json.Object) :=
  [("doc_ratio", s.documentation.members), ("verbosity", s.commentary.members),
   ("over_engineering", s.proportions.members), ("claim_evidence", s.claims.members),
   ("duplicates", s.literals.members), ("cache", s.caches.members)]

def toJson (s : Settings) : Json :=
  .obj ([("languages", Json.ofOption Json.strings s.languages),
      ("severities", Json.ofOption (fun vs => Json.strings (vs.map Severity.text)) s.severities),
      ("disabled_rules", Json.strings s.disabledRules),
      ("thoroughness", .str s.thoroughness.text),
      ("max_workers", .whole s.workers.val), ("max_files", .whole s.maxFiles.val)]
    ++ s.sections.map (fun (name, members) => (name, .obj members)) ++ s.more)

/-- Values with those that a section sets in their place. -/
def thresholdsFor (s : Settings) (name : String) (usual : Json.Object) : Json.Object :=
  match s.sections.lookup name with
  | some members => overridden usual (members.filter fun (_, v) => !v.isNull)
  | none => usual

def isQuick (s : Settings) : Bool := s.thoroughness = .quick

def isEnabled (s : Settings) (rule : String) : Bool := !s.disabledRules.contains rule

end Settings

end CodeHygiene
