import CodeHygiene.Repository.Exports
import CodeHygiene.Violation

/-!
The size of a repository against its public surface: source files for each export, lines of code for
each export, and the depth of the directories below `src`. Each is a violation of its own when it is
strictly greater than its threshold, and a severe one beyond twice the threshold.
-/

namespace CodeHygiene.Repository

structure Proportions where
  files : Nat
  exports : ExportCount
  lines : Nat
  depth : Nat
  deriving DecidableEq, Repr

/-- The largest shares and depth that are allowed. -/
structure Limits where
  filesPerExport : Quantity := .whole 20
  linesPerExport : Quantity := .whole 500
  depth : Quantity := .whole 4

namespace Proportions

def ofTree (t : Tree) (root : Path) : Proportions :=
  let files := sourceFiles t root false defaultMaxFiles defaultDepth
  { files := files.length
    exports := exportCount t root
    lines := codeLinesOf t root files
    depth := depthBelow t (root.below "src") }

/-- Opens a repository for its proportions. -/
def measure (t : Tree) (root : Path) : Except Fault Proportions := opening [root] (ofTree t root)

def filesPerExport (p : Proportions) : Float := Float.ofNat p.files / Float.ofNat p.exports.count

def linesPerExport (p : Proportions) : Float := Float.ofNat p.lines / Float.ofNat p.exports.count

def severityBeyond (value : Float) (limit : Quantity) : Severity :=
  if limit.twice.exceededBy value then .high else .medium

def filesViolation (p : Proportions) (limit : Quantity) : Violation :=
  { type := "file_proliferation"
    value := Decimal.natText p.files ++ " files / " ++ Decimal.natText p.exports.count
      ++ " exports = " ++ Decimal.fixedText p.filesPerExport 1 ++ "x"
    threshold := limit.text ++ "x"
    severity := severityBeyond p.filesPerExport limit
    details := [("source_file_count", .nat p.files), ("export_count", .nat p.exports.count),
      ("file_ratio", .real (Decimal.roundTo p.filesPerExport 2)),
      ("export_method", .str p.exports.method.text)] }

def linesViolation (p : Proportions) (limit : Quantity) : Violation :=
  { type := "code_density"
    value := Decimal.natText p.lines ++ " lines / " ++ Decimal.natText p.exports.count
      ++ " exports = " ++ Decimal.intText (Decimal.roundToInt p.linesPerExport) ++ ":1"
    threshold := limit.text ++ ":1"
    severity := severityBeyond p.linesPerExport limit
    details := [("total_lines", .nat p.lines), ("export_count", .nat p.exports.count),
      ("lines_per_export", .real (Decimal.roundTo p.linesPerExport 2))] }

def depthViolation (p : Proportions) (limit : Quantity) : Violation :=
  { type := "directory_depth"
    value := Decimal.natText p.depth ++ " levels"
    threshold := limit.text ++ " levels"
    severity := if limit.twice.exceededByCount p.depth then .high else .medium
    details := [("max_depth", .nat p.depth)] }

/-- The signals that pass their thresholds: files, lines, depth. -/
def violations (p : Proportions) (l : Limits) : List Violation :=
  (if l.filesPerExport.exceededBy p.filesPerExport then [p.filesViolation l.filesPerExport] else [])
  ++ (if l.linesPerExport.exceededBy p.linesPerExport then [p.linesViolation l.linesPerExport] else [])
  ++ (if l.depth.exceededByCount p.depth then [p.depthViolation l.depth] else [])

def toJson (p : Proportions) : Json :=
  .obj [("source_files", .nat p.files), ("exports", .nat p.exports.count),
    ("export_method", .str p.exports.method.text),
    ("entry_points", Json.strings p.exports.entryPoints), ("total_lines", .nat p.lines),
    ("directory_depth", .nat p.depth),
    ("file_ratio", .real (Decimal.roundTo p.filesPerExport 2)),
    ("lines_per_export", .whole (Decimal.roundToInt p.linesPerExport))]

end Proportions

end CodeHygiene.Repository
