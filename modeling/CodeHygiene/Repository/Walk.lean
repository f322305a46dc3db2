import CodeHygiene.Language
import CodeHygiene.Repository.Tree

/-!
Walks through a tree. A walk goes through the entries of a directory in the order of their names and
into real directories, never through a link to one; it leaves out skipped names and stops at a depth
and at a number of files. A link to a file counts as the file.
-/

namespace CodeHygiene.Repository

namespace Tree

/-- Whether an entry is, or links to, a file; `here` is the real path of its directory. -/
def isFileEntry (t : Tree) (here : List String) (name : String) : Entry → Bool
  | .file _ => true
  | .directory _ => false
  | .link _ => match t.resolveFrom linkLimit here [name] with
    | some (.file _) => true
    | _ => false

end Tree

/-- What a walk lists, and where it stops. `keep` is asked about the relative path and the name. -/
structure Walk where
  keep : String → String → Bool
  /-- How many levels of directories, the first included, are entered. -/
  levels : Nat
  limit : Int

namespace Walk

/-- The files found so far and those of a directory, up to the limit. -/
def visit (w : Walk) (t : Tree) : Nat → List String → String → Tree → Array String → Array String
  | 0, _, _, _, found => found
  | levels + 1, here, above, entries, found =>
    entries.foldl (fun found (name, e) =>
      if w.limit ≤ found.size then found
      else if Language.skippedNames.contains name then found
      else match e with
        | .directory inner => visit w t levels (here ++ [name]) (above ++ name ++ "/") inner found
        | _ =>
          if t.isFileEntry here name e && w.keep (above ++ name) name then found.push (above ++ name)
          else found) found

/-- The relative paths below a directory, in the order of the walk. -/
def run (w : Walk) (t : Tree) (root : Path) : List String :=
  match t.directory? root with
  | none => []
  | some here =>
    match t.entriesAt? here with
    | none => []
    | some entries => (w.visit t w.levels here "" entries #[]).toList

end Walk

/-- The deepest level below a root that is entered, and the most files that are listed, unless told
otherwise. -/
def defaultDepth : Int := 20

def defaultMaxFiles : Int := 10000

/-- Files with a source extension; test files only on request. -/
def isSource (includeTests : Bool) (relative name : String) : Bool :=
  Language.isSourceName name && (includeTests || !Language.isTestPath relative)

def sourceFiles (t : Tree) (root : Path) (includeTests : Bool) (maxFiles maxDepth : Int) :
    List String :=
  Walk.run ⟨isSource includeTests, (maxDepth + 1).toNat, maxFiles⟩ t root

/-- The files that are scanned when none are named: source without tests. -/
def discover (t : Tree) (root : Path) (maxFiles : Int) : Except Fault (List String) :=
  opening [root] (sourceFiles t root false maxFiles defaultDepth)

/-- The number of levels of real directories, the first included, but no more than `levels`. -/
def heightOf : Nat → Tree → Nat
  | 0, _ => 0
  | levels + 1, entries =>
    1 + entries.foldl (fun deepest (name, e) =>
      if Language.skippedNames.contains name then deepest
      else match e with
        | .directory inner => max deepest (heightOf levels inner)
        | _ => deepest) 0

/-- The depth of the directories below a start directory, itself being the first level; zero when it
is no directory. -/
def depthBelow (t : Tree) (start : Path) : Nat :=
  match (t.directory? start).bind t.entriesAt? with
  | some entries => heightOf defaultDepth.toNat entries
  | none => 0

end CodeHygiene.Repository
