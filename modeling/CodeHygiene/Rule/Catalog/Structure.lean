import CodeHygiene.Rule.Basic

/-!
Rules that an analyzer resolves, with the thresholds they start from.
-/

namespace CodeHygiene.Catalog

def docCodeRatio : Rule :=
  { name := "doc_code_ratio"
    description := "Documentation longer than code (doc block > 3x function body)"
    severity := .medium, remediation := .flag
    check := .analyzer .docRatio
    excludes := ["*.test.*", "*.spec.*", "*.d.ts"]
    thresholds := [("min_function_lines", .whole 3), ("max_ratio", .real 3.0)] }

def verbosityRatio : Rule :=
  { name := "verbosity_ratio"
    description := "Excessive inline comments (>2:1 comment-to-code ratio within function)"
    severity := .medium, remediation := .flag
    check := .analyzer .verbosityRatio
    excludes := ["*.test.*", "*.spec.*", "*.md", "*.d.ts"]
    thresholds := [("min_code_lines", .whole 3), ("max_comment_ratio", .real 2.0)] }

def overEngineeringMetrics : Rule :=
  { name := "over_engineering_metrics"
    description := "Excessive files/lines relative to public API"
    severity := .high, remediation := .flag
    check := .analyzer .overEngineering
    thresholds := [("file_ratio_threshold", .whole 20),
      ("lines_per_export_threshold", .whole 500),
      ("depth_threshold", .whole 4)] }

def buzzwordInflation : Rule :=
  { name := "buzzword_inflation"
    description := "Quality claims (production-ready, secure, scalable) without supporting evidence"
    severity := .high, remediation := .flag
    check := .analyzer .claimEvidence
    thresholds := [("min_evidence_matches", .whole 2)] }

end CodeHygiene.Catalog
