import CodeHygiene.Rule.Basic

/-!
Leftovers and placeholders: work that is announced but not done.
-/

namespace CodeHygiene.Catalog

def oldTodos : Rule :=
  { name := "old_todos"
    description := "TODO/FIXME/HACK/XXX markers left in code"
    severity := .low, remediation := .flag
    check := .pattern (.ofSource "(TODO|FIXME|HACK|XXX):" .plain) }

def commentedCode : Rule :=
  { name := "commented_code"
    description := "Large blocks of commented-out code"
    severity := .medium, remediation := .remove
    check := .pattern (.ofSource "^\\s*(//|#)\\s*\\w\x7b5,\x7d" .plain)
    consecutive := some 5 }

def placeholderText : Rule :=
  { name := "placeholder_text"
    description := "Placeholder text that should be replaced"
    severity := .high, remediation := .flag
    check := .pattern (.ofSource
        ("(lorem ipsum|test test test|asdf|foo bar baz|" ++
        "placeholder|replace this|todo: implement)") .anyCase)
    excludes := ["*.test.*", "*.spec.*", "README.*", "*.md"] }

def placeholderStubReturnsJs : Rule :=
  { name := "placeholder_stub_returns_js"
    description := "Stub return value (0, true, false, null, undefined, [], \x7b\x7d)"
    severity := .high, remediation := .flag
    language := some "javascript"
    check := .pattern (.ofSource
        "return\\s+(?:0|true|false|null|undefined|\\[\\]|\\\x7b\\\x7d)\\s*;?\\s*$" .plain)
    excludes := ["*.test.*", "*.spec.*", "*.config.*"] }

def placeholderNotImplementedJs : Rule :=
  { name := "placeholder_not_implemented_js"
    description := "throw new Error(\"TODO: implement...\") placeholder"
    severity := .high, remediation := .flag
    language := some "javascript"
    check := .pattern (.ofSource
        "throw\\s+new\\s+Error\\s*\\(\\s*['\\\"`].*(?:TODO|implement|not\\s+impl)" .anyCase)
    excludes := ["*.test.*", "*.spec.*"] }

def placeholderEmptyFunctionJs : Rule :=
  { name := "placeholder_empty_function_js"
    description := "Empty function body (placeholder)"
    severity := .high, remediation := .flag
    language := some "javascript"
    check := .pattern (.ofSource
        "(?:function\\s+\\w+\\s*\\([^)]*\\)|=>\\s*)\\s*\\\x7b\\s*\\\x7d" .plain)
    excludes := ["*.test.*", "*.spec.*", "*.d.ts"] }

def placeholderTodoRust : Rule :=
  { name := "placeholder_todo_rust"
    description := "Rust todo!() or unimplemented!() macro"
    severity := .high, remediation := .flag
    language := some "rust"
    check := .pattern (.ofSource "\\b(?:todo|unimplemented)!\\s*\\(" .plain)
    excludes := ["*_test.rs", "*_tests.rs", "**/tests/**"] }

def placeholderPanicTodoRust : Rule :=
  { name := "placeholder_panic_todo_rust"
    description := "Rust panic!(\"TODO: ...\") placeholder"
    severity := .high, remediation := .flag
    language := some "rust"
    check := .pattern (.ofSource "\\bpanic!\\s*\\(\\s*[\\\"'].*(?:TODO|implement)" .anyCase)
    excludes := ["*_test.rs", "*_tests.rs", "**/tests/**"] }

def placeholderNotImplementedPy : Rule :=
  { name := "placeholder_not_implemented_py"
    description := "Python raise NotImplementedError placeholder"
    severity := .high, remediation := .flag
    language := some "python"
    check := .pattern (.ofSource "raise\\s+NotImplementedError" .plain)
    excludes := ["test_*.py", "*_test.py", "conftest.py", "**/tests/**"] }

def placeholderPassOnlyPy : Rule :=
  { name := "placeholder_pass_only_py"
    description := "Python function with only pass statement"
    severity := .high, remediation := .flag
    language := some "python"
    check := .pattern (.ofSource
        "def\\s+\\w+\\s*\\([^)]*\\)\\s*:\\s*(?:pass|\\n\\s+pass)\\s*$" .byLine)
    excludes := ["test_*.py", "*_test.py", "conftest.py"]
    scope := .content }

def placeholderEllipsisPy : Rule :=
  { name := "placeholder_ellipsis_py"
    description := "Python function with only ellipsis (...)"
    severity := .high, remediation := .flag
    language := some "python"
    check := .pattern (.ofSource
        "def\\s+\\w+\\s*\\([^)]*\\)\\s*:\\s*(?:\\.\\.\\.|\\n\\s+\\.\\.\\.)\\s*$" .byLine)
    excludes := ["*.pyi", "test_*.py", "*_test.py"]
    scope := .content }

def placeholderPanicGo : Rule :=
  { name := "placeholder_panic_go"
    description := "Go panic(\"TODO: ...\") placeholder"
    severity := .high, remediation := .flag
    language := some "go"
    check := .pattern (.ofSource
        "panic\\s*\\(\\s*[\\\"'].*(?:TODO|implement|not\\s+impl)" .anyCase)
    excludes := ["*_test.go", "**/testdata/**"] }

def placeholderUnsupportedJava : Rule :=
  { name := "placeholder_unsupported_java"
    description := "Java throw new UnsupportedOperationException() placeholder"
    severity := .high, remediation := .flag
    language := some "java"
    check := .pattern (.ofSource "throw\\s+new\\s+UnsupportedOperationException\\s*\\(" .plain)
    excludes := ["*Test.java", "**/test/**"] }

def placeholderStubFunctions : Rule :=
  { name := "placeholder_stub_functions"
    description := "Function body is a single stub return"
    severity := .medium, remediation := .flag
    check := .analyzer .stubFunctions
    excludes := ["*.test.*", "*.spec.*", "*.config.*", "*.pyi"] }

end CodeHygiene.Catalog
