import CodeHygiene.Rule.Basic

/-!
Errors that are swallowed, and untidy text: numbers, linter switches, blanks, addresses.
-/

namespace CodeHygiene.Catalog

def emptyCatchJs : Rule :=
  { name := "empty_catch_js"
    description := "Empty catch blocks without error handling"
    severity := .high, remediation := .annotate
    language := some "javascript"
    check := .pattern (.ofSource "catch\\s*\\([^)]*\\)\\s*\\\x7b\\s*\\\x7d" .plain) }

def emptyExceptPy : Rule :=
  { name := "empty_except_py"
    description := "Empty except blocks with just pass"
    severity := .high, remediation := .annotate
    language := some "python"
    check := .pattern (.ofSource "except\\s*[^:]*:\\s*pass\\s*$" .plain) }

def magicNumbers : Rule :=
  { name := "magic_numbers"
    description := "Magic numbers that should be constants"
    severity := .low, remediation := .flag
    check := .pattern (.ofSource "(?<![a-zA-Z_\\d])[0-9]\x7b4,\x7d(?![a-zA-Z_\\d])" .plain)
    excludes := ["*.test.*", "*.spec.*", "*.config.*", "package.json", "package-lock.json"] }

def disabledLinter : Rule :=
  { name := "disabled_linter"
    description := "Disabled linter rules that may hide issues"
    severity := .medium, remediation := .flag
    check := .pattern (.ofSource
        "(eslint-disable|pylint: disable|#\\s*noqa|@SuppressWarnings|#\\[allow\\()" .plain) }

def unusedImportsHint : Rule :=
  { name := "unused_imports_hint"
    description := "Imports marked as unused"
    severity := .low, remediation := .remove
    check := .pattern (.ofSource "^import .* from .* // unused$" .plain) }

def duplicateStrings : Rule :=
  { name := "duplicate_strings"
    description := "Duplicate string literals that should be constants"
    severity := .low, remediation := .flag
    check := .analyzer .duplicateStrings
    excludes := ["*.test.*", "*.spec.*"]
    thresholds := [("max_occurrences", .whole 5), ("min_length", .whole 4)] }

def mixedIndentation : Rule :=
  { name := "mixed_indentation"
    description := "Mixed tabs and spaces"
    severity := .low, remediation := .replace
    check := .pattern (.ofSource "^\\t+ +|^ +\\t+" .plain)
    excludes := ["Makefile", "*.mk"] }

def trailingWhitespace : Rule :=
  { name := "trailing_whitespace"
    description := "Trailing whitespace at end of lines"
    severity := .low, remediation := .remove
    check := .pattern (.ofSource "\\s+$" .plain)
    excludes := ["*.md"] }

def multipleBlankLines : Rule :=
  { name := "multiple_blank_lines"
    description := "More than 2 consecutive blank lines"
    severity := .low, remediation := .replace
    check := .pattern (.ofSource "^[ \\t]*\\n[ \\t]*\\n[ \\t]*\\n" .byLine)
    scope := .content }

def processExit : Rule :=
  { name := "process_exit"
    description := "process.exit() should not be in library code"
    severity := .high, remediation := .flag
    language := some "javascript"
    check := .pattern (.ofSource "process\\.exit\\(" .plain)
    excludes := ["*.test.*", "cli.js", "index.js", "bin/*"] }

def bareUrls : Rule :=
  { name := "bare_urls"
    description := "Hardcoded URLs that should be configuration"
    severity := .low, remediation := .flag
    check := .pattern (.ofSource "https?://[a-zA-Z0-9.-]+\\.[a-zA-Z]\x7b2,\x7d" .plain)
    excludes := ["*.test.*", "*.md", "package.json", "README.*"] }

end CodeHygiene.Catalog
