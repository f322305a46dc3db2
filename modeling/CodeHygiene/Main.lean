import CodeHygiene.CommandLine.Run

/-!
The program: reads the working directory as a tree, runs in it and prints what the run prints.
-/

open CodeHygiene

/-- The entries of a directory. A link to a file is read as the file, and one to a directory leads
nowhere; what cannot be read is left out. -/
partial def readEntries (entries : Array IO.FS.DirEntry) : IO Repository.Tree := do
  let mut tree : Repository.Tree := []
  for entry in entries do
    try
      match (← entry.path.symlinkMetadata).type with
      | .dir =>
        let inner ← readEntries (← entry.path.readDir)
        tree := tree.setEntry entry.fileName (.directory inner)
      | .file =>
        let bytes ← IO.FS.readBinFile entry.path
        tree := tree.setEntry entry.fileName (.file bytes.toList)
      | .symlink =>
        if ← entry.path.isDir then tree := tree.setEntry entry.fileName (.link "/")
        else
          let bytes ← IO.FS.readBinFile entry.path
          tree := tree.setEntry entry.fileName (.file bytes.toList)
      | .other => pure ()
    catch _ => pure ()
  return tree

def main (words : List String) : IO UInt32 := do
  let tree ← readEntries (← (← IO.currentDir).readDir)
  match CommandLine.run tree words with
  | .ok o =>
    IO.print o.out
    IO.eprint o.err
    return o.status.toUInt32
  | .error f =>
    IO.eprintln f.message
    return 1
