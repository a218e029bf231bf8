import LolToolchain.Bytecode.Store
import LolToolchain.Compile.Code
import LolToolchain.Diagnostic.Report
import LolToolchain.Machine.Step
import LolToolchain.Program.Parser
import LolToolchain.Program.Simplify

/-!
From source text to a run: parse, simplify, compile, list, execute, with a store of compiled
programs in between if there is one.
-/
namespace LolToolchain

def compileSource [CharNames] (file : Int) (text : Text) (optimize : Bool) :
    Except Diagnostic Chunk := do
  let program ← Program.parse file text
  let program := if optimize then program.simplify else program
  program.compile (NameTable.ofSource file text)

structure Options where
  optimize : Bool
  listing : Bool
  tracing : Bool
  deriving DecidableEq, Repr, Inhabited

/-- The streams of a run. A stream with a fault fails at each use. -/
structure Streams where
  input : Text
  inputFault : Option Text := none
  outputFault : Option Text := none
  errorFault : Option Text := none
  deriving DecidableEq, Repr, Inhabited

/-- What a run leaves behind: its output, its listing and trace, and why it failed. -/
structure Outcome where
  output : Text
  errors : Text
  failure : Option Failure
  deriving DecidableEq, Repr, Inhabited

namespace Pipeline

/-- The chunk of a source text, from the cache if that has it; if not, it is put there. A cache that
does not work is passed over. -/
def compile [CharNames] (optimize : Bool) (cache : Option Cache) (text : Text) :
    Except Failure Chunk × Option Cache :=
  match cache with
  | none => ((compileSource 0 text optimize).mapError .single, none)
  | some c =>
    let key := Store.key text optimize
    let (found, c) := (c.get key).toOption.getD (none, c)
    match found with
    | some chunk => (.ok chunk, some c)
    | none =>
      match compileSource 0 text optimize with
      | .error d => (.error (.single d), some c)
      | .ok chunk => (.ok chunk, some ((c.put key chunk).toOption.getD c))

def list (o : Options) (s : Streams) (title : Text) (chunk : Chunk) : Except Failure Text :=
  if !o.listing then .ok []
  else match s.errorFault with
    | some cause => .error (.within "write disassembly" (.plain cause))
    | none => .ok ((chunk.listing #[] title).toOption.getD [])

/-- Runs a chunk for at most as many steps as there is fuel. -/
def execute (fuel : Nat) (o : Options) (s : Streams) (chunk : Chunk) : Outcome :=
  let settings : Settings :=
    { tracing := o.tracing, outputFault := s.outputFault, inputFault := s.inputFault }
  let (ending, m) := ((Machine.idle #[]).start s.input).runFor chunk settings fuel
  { output := m.output.toList
    errors := if s.errorFault.isSome then [] else m.trace.toList
    failure := m.failure? chunk ending }

def runChunk (fuel : Nat) (o : Options) (s : Streams) (title : Text) (chunk : Chunk) : Outcome :=
  match list o s title chunk with
  | .error f => ⟨[], [], some f⟩
  | .ok listing =>
    let r := execute fuel o s chunk
    { r with errors := listing ++ r.errors }

def runSource [CharNames] (fuel : Nat) (o : Options) (s : Streams) (cache : Option Cache)
    (name text : Text) : Outcome × Option Cache :=
  let (compiled, cache) := compile o.optimize cache text
  match compiled with
  | .error f => (⟨[], [], some f⟩, cache)
  | .ok chunk => (runChunk fuel o s name chunk, cache)

/-- The stored form of a source text. The outcome has it as its output. -/
def build [CharNames] (o : Options) (s : Streams) (cache : Option Cache) (name text : Text) :
    Outcome × Option Cache :=
  let (compiled, cache) := compile o.optimize cache text
  let outcome : Outcome :=
    match compiled with
    | .error f => ⟨[], [], some f⟩
    | .ok chunk =>
      match list o s name chunk with
      | .error f => ⟨[], [], some f⟩
      | .ok listing =>
        match chunk.encode with
        | .error f => ⟨[], listing, some (.plain f.message)⟩
        | .ok data =>
          match s.outputFault with
          | some cause => ⟨[], listing, some (.within "write chunk" (.plain cause))⟩
          | none => ⟨data, listing, none⟩
  (outcome, cache)

end Pipeline
end LolToolchain
