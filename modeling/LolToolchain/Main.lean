import LolToolchain.CommandLine.Command

/-!
The command as a process. It takes what a command looks at from the disk into a tree, runs the
command there, and writes back what has changed.
-/
namespace LolToolchain.Host

def stringOf (t : Text) : String :=
  (String.fromUTF8? ⟨t.toArray⟩).getD ""

def node? (path : Text) : IO (Option FileNode) := do
  let place := (← IO.currentDir) / stringOf path
  if ← place.isDir then return some .directory
  else if ← place.pathExists then
    return some (.file (← IO.FS.readBinFile place).data.toList)
  else return none

def load (tree : FileTree) (path : Text) : IO FileTree := do
  match ← node? path with
  | some (.file content) => return (tree.write path content).getD tree
  | some _ => return (tree.makeDirectory path).getD tree
  | none => return tree

def loadStore (tree : FileTree) (path : Text) : IO FileTree := do
  let tree ← load tree (Path.parent path)
  match ← node? path with
  | some (.file content) =>
    match Store.decode? content, tree.openStore path with
    | some store, .ok (place, _, tree) => return tree.set place (.database store)
    | _, _ => load tree path
  | _ => return tree

/-- The manifests that a command could use, from its directory up. -/
def manifestPaths (current start : Text) : List Text :=
  let directory := Path.absolute current start
  let components := (Path.components directory).filter (!·.isEmpty)
  (List.range (components.length + 1)).map fun n =>
    Path.join ("/" ++ Text.join "/" (components.take n)) Manifest.fileName

def treeFor (current : Text) (args : List Text) : IO FileTree := do
  let mut tree : FileTree := (⟨[], current⟩ : FileTree).makeDirectory current |>.getD ⟨[], current⟩
  match Arguments.parse args with
  | .error _ => return tree
  | .ok a =>
    let path := a.rest.headD []
    let start := if path.isEmpty || path == "-" then ("." : Text) else Path.parent path
    for p in [start, path, Path.parent a.output, a.output] ++ manifestPaths current start do
      unless p.isEmpty do tree ← load tree p
    match Manifest.find tree start with
    | .ok m => loadStore tree (m.getD .default).cachePath
    | .error _ => return tree

/-- Writes to the disk what differs between two trees. -/
def save (before after : FileTree) : IO Unit := do
  for (path, n) in after.entries do
    if before.lookup path ≠ some n then
      let name := stringOf ("/" ++ Text.join "/" path)
      match n with
      | .directory => IO.FS.createDirAll name
      | .file content => IO.FS.writeBinFile name ⟨content.toArray⟩
      | .database store => IO.FS.writeBinFile name ⟨store.encode.toArray⟩
  for (path, _) in before.entries do
    if (after.lookup path).isNone then
      IO.FS.removeFile (stringOf ("/" ++ Text.join "/" path))

partial def readAll (stream : IO.FS.Stream) (data : ByteArray) : IO ByteArray := do
  let piece ← stream.read 65536
  if piece.isEmpty then return data else readAll stream (data ++ piece)

/-- More steps than a run can take. -/
def fuel : Nat := 0x4000000000000000

end LolToolchain.Host

open LolToolchain Host in
def main (args : List String) : IO UInt32 := do
  let args := args.map Text.ofString
  let current := Text.ofString (← IO.currentDir).toString
  let tree ← treeFor current args
  let input ← readAll (← IO.getStdin) .empty
  let result := Command.run fuel args input.data.toList tree
  save tree result.tree
  (← IO.getStdout).write ⟨result.output.toArray⟩
  (← IO.getStderr).write ⟨result.errors.toArray⟩
  return result.exitCode.toUInt32
