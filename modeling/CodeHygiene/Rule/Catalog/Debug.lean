import CodeHygiene.Rule.Basic

/-!
Statements that were meant for debugging.
-/

namespace CodeHygiene.Catalog

def consoleDebugging : Rule :=
  { name := "console_debugging"
    description := "Console.log statements left in production code"
    severity := .medium, remediation := .remove
    language := some "javascript"
    check := .pattern (.ofSource "console\\.(log|debug|info|warn)\\(" .plain)
    excludes := ["*.test.*", "*.spec.*", "*.config.*"] }

def pythonDebugging : Rule :=
  { name := "python_debugging"
    description := "Debug print/breakpoint statements in production"
    severity := .medium, remediation := .remove
    language := some "python"
    check := .pattern (.ofSource "(print\\(|import pdb|breakpoint\\(\\)|import ipdb)" .plain)
    excludes := ["test_*.py", "*_test.py", "conftest.py"] }

def rustDebugging : Rule :=
  { name := "rust_debugging"
    description := "Debug print macros in production code"
    severity := .medium, remediation := .remove
    language := some "rust"
    check := .pattern (.ofSource "(println!|dbg!|eprintln!)\\(" .plain)
    excludes := ["*_test.rs", "*_tests.rs"] }

end CodeHygiene.Catalog
