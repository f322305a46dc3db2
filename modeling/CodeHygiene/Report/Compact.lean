import CodeHygiene.Report.Listing

/-!
Findings as a table with one row each, up to a number of rows, after a line with the counts by
certainty. A note tells how many findings have no row.
-/

namespace CodeHygiene.Report

/-- How many rows a table has unless told otherwise. -/
def defaultMaxRows : Int := 50

/-- The findings that have a row. A negative limit leaves out that many from the end. -/
def rows (findings : List Finding) (limit : Int) : List Finding :=
  findings.take (if limit < 0 then (findings.length + limit).toNat else limit.toNat)

/-- The number that the note tells, if there are more findings than the limit. -/
def untold? (findings : List Finding) (limit : Int) : Option Int :=
  if limit < findings.length then some (findings.length - limit) else none

def rowText (f : Finding) : String :=
  "|" ++ f.file ++ "|" ++ Decimal.intText f.line ++ "|" ++ f.rule ++ "|" ++ f.certainty.initial ++ "|"
    ++ (fix? f).getD "-" ++ "|\n"

def certaintyCounts (findings : List Finding) : String :=
  String.join (Certainty.all.map fun c =>
    "|" ++ c.initial ++ ":" ++ Decimal.natText (withCertainty findings c).length)

def countManual (findings : List Finding) : Nat := findings.length - countAutomatic findings

/-- The table under the name of a mode. -/
def table (mode : String) (findings : List Finding) (limit : Int) : String :=
  "## Slop: " ++ mode ++ certaintyCounts findings ++ "\n\n"
    ++ "|File|L|Pattern|Cert|Fix|\n|---|---|---|---|---|\n"
    ++ String.join ((rows findings limit).map rowText)
    ++ ((untold? findings limit).map fun n =>
      "\n_+" ++ Decimal.intText n ++ " more findings (truncated)_\n").getD ""
    ++ "\n**Auto-fixable: " ++ Decimal.natText (countAutomatic findings) ++ "** | Manual: "
    ++ Decimal.natText (countManual findings)

end CodeHygiene.Report
