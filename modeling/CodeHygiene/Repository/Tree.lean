import CodeHygiene.Repository.Path
import CodeHygiene.Text.Lines
import CodeHygiene.Text.Utf8

/-!
A tree of files, as it is seen from its root: files with their bytes, directories with their entries
in the order of their names, and symbolic links. A path is resolved component by component; a link
stands for what its target resolves to from the directory it is in (`resolve?`). What lies outside
the tree is not there.
-/

namespace CodeHygiene.Repository

inductive Entry where
  | file (bytes : List UInt8)
  | directory (entries : List (String × Entry))
  | link (target : String)

abbrev Tree := List (String × Entry)

namespace Tree

/-- Entries stay sorted by name. -/
def setEntry (entries : Tree) (name : String) (e : Entry) : Tree :=
  match entries with
  | [] => [(name, e)]
  | (n, old) :: rest =>
    if n = name then (name, e) :: rest
    else if name < n then (name, e) :: (n, old) :: rest
    else (n, old) :: setEntry rest name e

/-- Puts an entry at a path and makes the directories above it. -/
def insert (t : Tree) (e : Entry) : List String → Tree
  | [] => t
  | [name] => setEntry t name e
  | name :: rest =>
    match t.lookup name with
    | some (.directory inner) => setEntry t name (.directory (insert inner e rest))
    | _ => setEntry t name (.directory (insert [] e rest))

/-- An empty directory at a path; one that is there keeps its entries. -/
def makeDirectory (t : Tree) : List String → Tree
  | [] => t
  | name :: rest =>
    match t.lookup name with
    | some (.directory inner) => setEntry t name (.directory (makeDirectory inner rest))
    | some _ => t
    | none => setEntry t name (.directory (makeDirectory [] rest))

/-- The entries of a directory by its real path, where no component is a link. -/
def entriesAt? (t : Tree) : List String → Option Tree
  | [] => some t
  | name :: rest =>
    match t.lookup name with
    | some (.directory inner) => entriesAt? inner rest
    | _ => none

/-- What a path resolves to: the real path of the directory it is in or is, and the file if it is
one. -/
inductive Resolved where
  | file (bytes : List UInt8)
  | directory (real : List String)

/-- Resolves components from a real directory on, through at most `links` links. -/
def resolveFrom (t : Tree) (links : Nat) (here : List String) (parts : List String) : Option Resolved :=
  match parts with
  | [] => some (.directory here)
  | part :: rest =>
    if part = ".." then
      if here.isEmpty then none else resolveFrom t links here.dropLast rest
    else
      match (t.entriesAt? here).bind (·.lookup part) with
      | none => none
      | some (.directory _) => resolveFrom t links (here ++ [part]) rest
      | some (.file bytes) => if rest.isEmpty then some (.file bytes) else none
      | some (.link target) =>
        match links with
        | 0 => none
        | links + 1 =>
          let p := Path.ofText target
          if p.isAbsolute then none
          else match resolveFrom t links here (p.parts ++ rest) with
            | some (.file bytes) =>
              if rest.isEmpty && Path.endsInSlash target then none else some (.file bytes)
            | other => other
termination_by (links, parts.length)

/-- The most links that one path may lead through. -/
def linkLimit : Nat := 40

def resolve? (t : Tree) (p : Path) : Option Resolved :=
  if p.isAbsolute then none else resolveFrom t linkLimit [] p.parts

def bytes? (t : Tree) (p : Path) : Option (List UInt8) :=
  match t.resolve? p with
  | some (.file bytes) => some bytes
  | _ => none

def isFile (t : Tree) (p : Path) : Bool := (t.bytes? p).isSome

/-- The real path of a directory. -/
def directory? (t : Tree) (p : Path) : Option (List String) :=
  match t.resolve? p with
  | some (.directory real) => some real
  | _ => none

/-- Bytes as text: UTF-8, with every kind of line end as a line feed. -/
def textOf (bytes : List UInt8) : Except Text.Utf8.Fault (List Char) :=
  (Text.Utf8.decode bytes).map Text.normaliseReturns

/-- The text of a file; none when there is no such file or its bytes are no text. -/
def text? (t : Tree) (p : Path) : Option (List Char) :=
  (t.bytes? p).bind fun bytes => (textOf bytes).toOption

/-- Opens a file for its text. -/
def openText (t : Tree) (p : Path) : Except Fault (Option (List Char)) := opening [p] (t.text? p)

end Tree

end CodeHygiene.Repository
