import LolToolchain.Diagnostic.Basic
import LolToolchain.Files.Tree
import LolToolchain.Pipeline
import LolToolchain.Toml.Parser

/-!
Manifests: the settings for the programs in and below a directory. What the file does not say keeps
its default.
-/
namespace LolToolchain

/-- The settings of a directory; without a manifest the directory is empty. -/
structure Manifest where
  optimize : Bool := true
  tracing : Bool := false
  listing : Bool := false
  caching : Bool := true
  cacheFile : Text := ".lolcode/cache.db"
  verbosity : Int := 0
  directory : Text := []
  deriving DecidableEq, Repr, Inhabited

namespace Manifest

def fileName : Text := "lolcode.toml"

def default : Manifest := {}

/-- A character under the folding of case, as far as it can fold to a letter of ours. -/
def foldChar (c : Char) : Char :=
  if c.toNat = 0x17F then 's' else if c.toNat = 0x212A then 'k' else c.toLower

/-- Whether a key names a setting; case does not count. -/
def matchesName (name : String) (key : Text) : Bool :=
  key.isUtf8 && key.glyphs.map (foldChar ·.toChar) == name.toList

/-- The values of a setting in a table, those under its exact name last. -/
def valuesOf (name : String) (t : TomlTable) : List Toml :=
  let found := t.filter fun e => matchesName name e.1
  let (exact, other) := found.partition fun e => e.1 == (name : Text)
  (other ++ exact).map (·.2)

/-- Changes settings by each of the values of a name; a value of the wrong type has no result. -/
def apply (name : String) (change : Manifest → Toml → Option Manifest) (t : TomlTable)
    (m : Manifest) : Option Manifest :=
  (valuesOf name t).foldlM change m

def applyBool (name : String) (change : Manifest → Bool → Manifest) : TomlTable → Manifest →
    Option Manifest :=
  apply name fun m v => match v with
    | .boolean b => some (change m b)
    | _ => none

def applyTable (name : String) (change : TomlTable → Manifest → Option Manifest) :
    TomlTable → Manifest → Option Manifest :=
  apply name fun m v => match v with
    | .table t => change t m
    | _ => none

def applyRun (t : TomlTable) (m : Manifest) : Option Manifest := do
  let m ← applyBool "optimize" (fun m b => { m with optimize := b }) t m
  let m ← applyBool "debug-vm" (fun m b => { m with tracing := b }) t m
  applyBool "disasm" (fun m b => { m with listing := b }) t m

def applyCache (t : TomlTable) (m : Manifest) : Option Manifest := do
  let m ← applyBool "enabled" (fun m b => { m with caching := b }) t m
  apply "path" (fun m v => match v with
    | .string s => some { m with cacheFile := s }
    | _ => none) t m

def applyLog (t : TomlTable) (m : Manifest) : Option Manifest :=
  apply "verbosity" (fun m v => match v with
    | .integer n => some { m with verbosity := n.toInt }
    | _ => none) t m

/-- The settings that a text gives for a directory. An empty cache path is the default one. -/
def parse? (directory text : Text) : Option Manifest := do
  let t ← Toml.parse? text
  let m ← applyTable "run" applyRun t { directory }
  let m ← applyTable "cache" applyCache t m
  let m ← applyTable "log" applyLog t m
  return if m.cacheFile.isEmpty then { m with cacheFile := default.cacheFile } else m

def load (tree : FileTree) (directory : Text) : Except Failure Manifest :=
  let path := Path.join directory fileName
  match tree.read path with
  | .error cause => .error (.within ("cannot read " ++ path) (.plain cause))
  | .ok text =>
    match parse? (Path.absolute tree.current directory) text with
    | some m => .ok m
    | none => .error (.plain ("parse error in " ++ path))

/-- Looks for a manifest in the directory that components lead to, the last one first, and in those
above it. -/
def search (tree : FileTree) (components : List Text) : Except Failure (Option Manifest) :=
  let directory : Text := "/" ++ Text.join "/" components.reverse
  if tree.contains (Path.join directory fileName) then (load tree directory).map some
  else match components with
    | [] => .ok none
    | _ :: above => search tree above

/-- The nearest manifest at or above a directory. -/
def find (tree : FileTree) (directory : Text) : Except Failure (Option Manifest) :=
  search tree ((Path.components (Path.absolute tree.current directory)).filter (!·.isEmpty)).reverse

/-- The path of the cache; a relative one starts at the manifest's directory. -/
def cachePath (m : Manifest) : Text :=
  if Path.isAbsolute m.cacheFile || m.directory.isEmpty then m.cacheFile
  else Path.join m.directory m.cacheFile

def options (m : Manifest) : Options :=
  ⟨m.optimize, m.listing, m.tracing⟩

end Manifest
end LolToolchain
