import LolToolchain.Bytecode.Store
import LolToolchain.Files.Path

/-!
A tree of files. Directories are entries of their own; a database is a file that holds a store.
-/
namespace LolToolchain

inductive FileNode where
  | file (content : Text)
  | directory
  | database (store : Store)
  deriving DecidableEq, Repr, Inhabited

/-- Entries by the components of their path, and the directory in which relative paths start. -/
structure FileTree where
  entries : List (List Text × FileNode)
  current : Text
  deriving DecidableEq, Repr, Inhabited

inductive PathFault where
  | missing
  | notDirectory
  | isDirectory
  | tooLong
  | invalid
  deriving DecidableEq, Repr, Inhabited

def PathFault.message : PathFault → Text
  | .missing => "no such file or directory"
  | .notDirectory => "not a directory"
  | .isDirectory => "is a directory"
  | .tooLong => "file name too long"
  | .invalid => "invalid argument"

def PathFault.describe (f : PathFault) (operation path : Text) : Text :=
  operation ++ " " ++ path ++ ": " ++ f.message

namespace FileTree

def lookup (t : FileTree) (place : List Text) : Option FileNode :=
  if place.isEmpty then some .directory else t.entries.lookup place

def set (t : FileTree) (place : List Text) (n : FileNode) : FileTree :=
  { t with entries := t.entries.filter (·.1 != place) ++ [(place, n)] }

def erase (t : FileTree) (place : List Text) : FileTree :=
  { t with entries := t.entries.filter (·.1 != place) }

/-- Follows components from a place. All but the last have to exist, as directories. -/
def follow (t : FileTree) (place : List Text) : List Text → Except PathFault (List Text)
  | [] => .ok place
  | c :: cs =>
    match t.lookup place with
    | none => .error .missing
    | some .directory =>
      if c.isEmpty || c == "." then follow t place cs
      else if c == ".." then follow t place.dropLast cs
      else if 255 < c.length then .error .tooLong
      else follow t (place ++ [c]) cs
    | some _ => .error .notDirectory

/-- The place that a path leads to; there need not be anything at it. -/
def resolve (t : FileTree) (path : Text) : Except PathFault (List Text) :=
  if path.isEmpty then .error .missing
  else if path.any (· == 0) then .error .invalid
  else
    let start := if Path.isAbsolute path then []
      else (Path.components t.current).filter (!·.isEmpty)
    t.follow start (Path.components path)

def contains (t : FileTree) (path : Text) : Bool :=
  match t.resolve path with
  | .ok place => (t.lookup place).isSome
  | .error _ => false

def read (t : FileTree) (path : Text) : Except Text Text :=
  match t.resolve path with
  | .error f => .error (f.describe "open" path)
  | .ok place =>
    match t.lookup place with
    | none => .error (PathFault.missing.describe "open" path)
    | some .directory => .error (PathFault.isDirectory.describe "read" path)
    | some (.file content) => .ok content
    | some (.database _) => .ok "SQLite format 3\x00"

/-- Makes an empty file, also in the place of another file. -/
def create (t : FileTree) (path : Text) : Except Text (List Text × FileTree) :=
  match t.resolve path with
  | .error f =>
    let isOpenEnd := f == .missing && path.getLast? == some Path.slash
      && t.contains (Path.parent (Path.clean path))
    .error ((if isOpenEnd then PathFault.isDirectory else f).describe "open" path)
  | .ok place =>
    match t.lookup place with
    | some .directory => .error (PathFault.isDirectory.describe "open" path)
    | _ => .ok (place, t.set place (.file []))

def makeDirectories (place : List Text) : List Text → FileTree → Option FileTree
  | [], t => some t
  | c :: cs, t =>
    if c.isEmpty || c == "." then makeDirectories place cs t
    else if c == ".." then makeDirectories place.dropLast cs t
    else
      let next := place ++ [c]
      match t.lookup next with
      | some .directory => makeDirectories next cs t
      | some _ => none
      | none => if 255 < c.length then none else makeDirectories next cs (t.set next .directory)

/-- Makes the directory of a path with all that are above it. -/
def makeDirectory (t : FileTree) (path : Text) : Option FileTree :=
  if path.any (· == 0) then none
  else
    let start := if Path.isAbsolute path then []
      else (Path.components t.current).filter (!·.isEmpty)
    makeDirectories start (Path.components path) t

/-- Opens the store at a path: its place, its content, and the tree, in which it is made if it does
not exist. -/
def openStore (t : FileTree) (path : Text) : Except StoreFault (List Text × Store × FileTree) :=
  match t.makeDirectory (Path.parent path) with
  | none => .error .directory
  | some t =>
    match t.resolve path with
    | .error _ => .error .unopenable
    | .ok place =>
      match t.lookup place with
      | some .directory => .error .unopenable
      | some (.database s) => .ok (place, s, t)
      | some (.file (_ :: _)) => .error .notDatabase
      | _ => .ok (place, .empty, t.set place (.database .empty))

/-- Writes a file, with the directories above it; a path that ends in a slash is a directory. -/
def write (t : FileTree) (path content : Text) : Option FileTree := do
  if path.getLast? == some Path.slash then t.makeDirectory path
  else
    let t ← t.makeDirectory (Path.parent path)
    let place ← (t.resolve path).toOption
    return t.set place (.file content)

/-- What is below the current directory, by the path from there, but for directories. -/
def below (t : FileTree) : List (Text × FileNode) :=
  let start := (Path.components t.current).filter (!·.isEmpty)
  t.entries.filterMap fun (place, n) =>
    if n != .directory && start.isPrefixOf place then
      some (Text.join "/" (place.drop start.length), n)
    else none

end FileTree
end LolToolchain
