import LolToolchain.CommandLine.Flags
import LolToolchain.Manifest
import LolToolchain.Text.CommonNames

/-!
The command: it runs a program, or writes its stored form to a file. It exits with 0 if all went
well, with 1 if the program or the surroundings failed, and with 2 if the command line is wrong. The
surroundings are the paths it opens, makes and removes; that reading the standard input, writing or
closing a file fails does not happen here.
-/
namespace LolToolchain

structure CommandResult where
  exitCode : Nat
  output : Text
  errors : Text
  tree : FileTree
  deriving DecidableEq, Repr, Inhabited

namespace Command

/-- What a program did, and what the report of a failure refers to. -/
structure Work where
  outcome : Outcome
  sources : Sources
  cache : Option Cache
  tree : FileTree

def failed (f : Failure) (cache : Option Cache) (tree : FileTree) : Work :=
  ⟨⟨[], [], some f⟩, [], cache, tree⟩

def cannotRead (path cause : Text) : Failure :=
  .within ("cannot read " ++ path) (.plain cause)

def runFile [CharNames] (fuel : Nat) (o : Options) (s : Streams) (cache : Option Cache)
    (path : Text) (tree : FileTree) : Work :=
  match tree.read path with
  | .error cause => failed (cannotRead path cause) cache tree
  | .ok data =>
    if Chunk.isEncoded data then
      match Chunk.decode data with
      | .error f => failed (.within ("cannot load " ++ path) (.plain f.message)) cache tree
      | .ok chunk => ⟨Pipeline.runChunk fuel o s path chunk, [], cache, tree⟩
    else
      let (outcome, cache) := Pipeline.runSource fuel o s cache path data
      ⟨outcome, [⟨path, data⟩], cache, tree⟩

/-- Writes the stored form of a source text to a file. The file is made first, and removed again if
the program cannot be compiled. -/
def buildFile [CharNames] (o : Options) (s : Streams) (cache : Option Cache)
    (name text output : Text) (tree : FileTree) : Work :=
  match tree.create output with
  | .error cause =>
    failed (.within ("cannot create " ++ output) (.plain cause)) cache tree
  | .ok (place, tree) =>
    let (built, cache) := Pipeline.build o s cache name text
    let tree := if built.failure.isSome then tree.erase place
      else tree.set place (.file built.output)
    ⟨{ built with output := [] }, [⟨name, text⟩], cache, tree⟩

/-- Runs or builds the program that a path names; `-` names the input. -/
def work [CharNames] (fuel : Nat) (o : Options) (s : Streams) (cache : Option Cache)
    (path output : Text) (tree : FileTree) : Work :=
  if path == "-" then
    let name : Text := "<stdin>"
    if output.isEmpty then
      let (outcome, cache) := Pipeline.runSource fuel o { s with input := [] } cache name s.input
      ⟨outcome, [⟨name, s.input⟩], cache, tree⟩
    else buildFile o s cache name s.input output tree
  else if output.isEmpty then runFile fuel o s cache path tree
  else
    match tree.read path with
    | .error cause => failed (cannotRead path cause) cache tree
    | .ok text => buildFile o s cache path text output tree

/-- The options of a command: what it does not say, the manifest says. -/
def optionsOf (a : Arguments) (m : Manifest) : Options :=
  { optimize := m.optimize && !a.noOptimize
    listing := a.listing.getD m.listing
    tracing := a.tracing.getD m.tracing }

def openCache (a : Arguments) (m : Manifest) (tree : FileTree) :
    Option (List Text × Cache) × FileTree :=
  if m.caching && !a.noCache then
    match tree.openStore m.cachePath with
    | .ok (place, store, tree) => (some (place, .ofStore store), tree)
    | .error .directory => (none, tree)
    | .error _ => (none, (tree.makeDirectory (Path.parent m.cachePath)).getD tree)
  else (none, tree)

/-- Does what a command line asks for under a manifest. The streams have no faults: a write, a close
or a read of the standard input that fails is outside the model. -/
def perform [CharNames] (fuel : Nat) (a : Arguments) (m : Manifest) (path input : Text)
    (tree : FileTree) : CommandResult :=
  let (opened, tree) := openCache a m tree
  let w := work fuel (optionsOf a m) { input } (opened.map (·.2)) path a.output tree
  let tree := match opened, w.cache with
    | some (place, _), some cache => w.tree.set place (.database cache.store)
    | _, _ => w.tree
  match w.outcome.failure with
  | none => ⟨0, w.outcome.output, w.outcome.errors, tree⟩
  | some f => ⟨1, w.outcome.output, w.outcome.errors ++ f.report w.sources, tree⟩

def run [CharNames] (fuel : Nat) (args : List Text) (input : Text) (tree : FileTree) :
    CommandResult :=
  match Arguments.parse args with
  | .error .help => ⟨0, [], usage, tree⟩
  | .error f => ⟨2, [], f.message ++ usage, tree⟩
  | .ok a =>
    let path := a.rest.headD []
    if path.isEmpty && !a.serve then ⟨2, [], usage, tree⟩
    else
      let start := if path.isEmpty || path == "-" then ("." : Text) else Path.parent path
      match Manifest.find tree start with
      | .error f => ⟨1, [], "error: " ++ f.message ++ "\n", tree⟩
      | .ok m =>
        if a.serve then ⟨0, [], [], tree⟩
        else perform fuel a (m.getD .default) path input tree

end Command

-- The command as it is run knows the common names; all that is said of it holds with any others.
attribute [instance] CharNames.common

end LolToolchain
