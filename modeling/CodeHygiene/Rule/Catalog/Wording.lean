import CodeHygiene.Rule.Basic

/-!
References in comments that go stale, names that say nothing, and words that say too much.
-/

namespace CodeHygiene.Catalog

/-- Names that say nothing about the value they stand for. -/
def genericNames : String := "data|result|item|temp|value|output|response|obj|ret|res|val|arr"

def issuePrReferences : Rule :=
  { name := "issue_pr_references"
    description := "Issue/PR/iteration references in comments"
    severity := .medium, remediation := .remove
    check := .pattern (.ofSource
        ("//.*(?:#\\d+|issue\\s+#?\\d+|PR\\s+#?\\d+|pull\\s+request\\s+#?\\d+|" ++
        "fixed\\s+in\\s+#?\\d+|closes?\\s+#?\\d+|resolves?\\s+#?\\d+|" ++
        "iteration\\s+\\d+)") .anyCase)
    excludes := ["*.md", "README.*", "CHANGELOG.*", "CONTRIBUTING.*"] }

def filePathReferences : Rule :=
  { name := "file_path_references"
    description := "File path references in comments that may be outdated"
    severity := .low, remediation := .flag
    check := .pattern (.ofSource
        ("//.*(?:see|refer\\s+to|in|per|documented\\s+in)" ++
        "\\s+([a-zA-Z0-9_\\-./]+\\.(?:md|js|ts|json|yaml|" ++
        "yml|toml|txt))") .anyCase)
    excludes := ["*.md", "README.*", "*.test.*", "*.spec.*"] }

def genericNamingJs : Rule :=
  { name := "generic_naming_js"
    description := "Generic variable name that could be more descriptive"
    severity := .low, remediation := .flag
    language := some "javascript"
    check := .pattern (.ofSource
        ("\\b(?:const|let|var)\\s+(" ++
        genericNames ++
        "|str|num|buf|ctx|cfg|opts|args|params)\\s*[=:]") .anyCase)
    excludes := ["*.test.*", "*.spec.*", "**/test/**", "**/tests/**"] }

def genericNamingPy : Rule :=
  { name := "generic_naming_py"
    description := "Generic variable name that could be more descriptive"
    severity := .low, remediation := .flag
    language := some "python"
    check := .pattern (.ofSource
        ("^(\\s*)(?!.*\\bfor\\s+\\w+\\s+in\\b)(" ++
        genericNames ++
        "|ctx|cfg|opts|args|params)\\s*[:=]") .anyCase)
    excludes := ["*test*.py", "**/test_*.py", "**/tests/**", "conftest.py"] }

def genericNamingRust : Rule :=
  { name := "generic_naming_rust"
    description := "Generic variable name that could be more descriptive"
    severity := .low, remediation := .flag
    language := some "rust"
    check := .pattern (.ofSource
        ("\\blet\\s+(?:mut\\s+)?(" ++ genericNames ++ "|buf|ctx|cfg|opts|args)\\s*[=:]") .anyCase)
    excludes := ["*_test.rs", "*_tests.rs", "**/tests/**"] }

def genericNamingGo : Rule :=
  { name := "generic_naming_go"
    description := "Generic variable name that could be more descriptive"
    severity := .low, remediation := .flag
    language := some "go"
    check := .pattern (.ofSource
        ("\\b(" ++ genericNames ++ "|buf|ctx|cfg|opts|args)\\s*:=") .anyCase)
    excludes := ["*_test.go", "**/tests/**", "**/testdata/**"] }

def verbosityPreambles : Rule :=
  { name := "verbosity_preambles"
    description := "AI preamble phrases in comments"
    severity := .low, remediation := .flag
    check := .pattern (.ofSource
        ("//\\s*(?:certainly|i'd\\s+be\\s+happy|great\\s+question|" ++
        "absolutely|of\\s+course|happy\\s+to\\s+help|let\\s+me\\s+help|" ++
        "i\\s+can\\s+help)") .anyCase)
    excludes := ["*.test.*", "*.spec.*", "*.md"] }

def verbosityBuzzwords : Rule :=
  { name := "verbosity_buzzwords"
    description := "Marketing buzzwords that obscure technical meaning"
    severity := .low, remediation := .flag
    check := .pattern (.ofSource
        ("\\b(?:synergize|operationalize|paradigm\\s+shift|" ++
        "best-in-class|world-class|cutting-edge|game-changing|" ++
        "holistic|revolutionary|transformative|seamless|" ++
        "next-generation|bleeding-edge|industry-leading)\\b") .anyCase)
    excludes := ["*.test.*", "*.spec.*", "*.md", "CHANGELOG.*", "README.*"] }

def verbosityHedging : Rule :=
  { name := "verbosity_hedging"
    description := "Hedging language in comments"
    severity := .low, remediation := .flag
    check := .pattern (.ofSource
        ("//.*\\b(?:it'?s?\\s+worth\\s+noting|generally\\s+speaking|" ++
        "more\\s+or\\s+less|arguably|perhaps|possibly|" ++
        "might\\s+be|should\\s+work|i\\s+think|i\\s+believe|" ++
        "probably|maybe)\\b") .anyCase)
    excludes := ["*.test.*", "*.spec.*"] }

end CodeHygiene.Catalog
