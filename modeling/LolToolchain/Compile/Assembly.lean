import LolToolchain.Compile.Scope
import LolToolchain.Program.Tree
import LolToolchain.Token.NameTable

/-!
Assembly: the state of the compiler, and the steps that add code to it. A step either changes the
state or ends the compilation with a diagnostic.
-/
namespace LolToolchain

/-- A chunk under construction, with the names in use: those of the current function, and those of
the functions around it, the nearest first. -/
structure Assembly where
  chunk : Chunk
  scope : Scope
  outer : List Scope
  deriving Inhabited

abbrev Assemble := StateT Assembly (Except Diagnostic)

namespace Assemble

def fail {α : Type} (f : CompileFault) (span : Span) : Assemble α :=
  throw (f.diagnostic span)

def emit (op : Opcode) (span : Span) (operand : List UInt8 := []) : Assemble Unit :=
  modify fun a => { a with chunk := a.chunk.emit op operand span }

/-- Adds an operation with an index or a count as its operand. -/
def emitIndexed (short long : Opcode) (n : Nat) (span : Span) : Assemble Unit := do
  let a ← get
  match a.chunk.emitIndexed short long n span with
  | .ok chunk => set { a with chunk }
  | .error f => fail (.operand short f) span

def constant (v : Value) : Assemble Nat :=
  modifyGet fun a =>
    let (i, pool) := a.chunk.pool.share v
    (i, { a with chunk := { a.chunk with pool } })

def emitConstant (v : Value) (span : Span) : Assemble Unit := do
  let i ← constant v
  let a ← get
  match a.chunk.emitIndexed .loadConst .loadConstLong i span with
  | .ok chunk => set { a with chunk }
  | .error f => fail (.poolOverflow f) span

/-- Drops values from the stack; for none, nothing is added. -/
def emitPops (n : Nat) (span : Span) : Assemble Unit :=
  if n = 0 then pure () else emitIndexed .popN .popNLong n span

def here : Assemble Nat := do
  return (← get).chunk.code.size

/-- Adds a jump whose target is still open. -/
def emitJump (op : Opcode) (span : Span) : Assemble Nat :=
  modifyGet fun a =>
    let (operand, chunk) := a.chunk.emitJump op span
    (operand, { a with chunk })

def patch (operand : Nat) : Assemble Unit :=
  modify fun a => { a with chunk := a.chunk.patch operand }

def patchAll : List Nat → Assemble Unit
  | [] => pure ()
  | j :: js => do
    patch j
    patchAll js

def patchOption : Option Nat → Assemble Unit
  | none => pure ()
  | some j => patch j

def emitLoop (start : Nat) (span : Span) : Assemble Unit :=
  modify fun a => { a with chunk := a.chunk.emitLoop start span }

def updateScope (f : Scope → Scope) : Assemble Unit :=
  modify fun a => { a with scope := f a.scope }

def scope : Assemble Scope := do
  return (← get).scope

/-- Gives a name to the slot of the value that was pushed last. -/
def declare (name : Text) (function : Option KnownFunction) : Assemble Unit :=
  updateScope (·.declare name function)

def openScope : Assemble Unit :=
  updateScope fun s => { s with depth := s.depth + 1 }

/-- Leaves a block and drops its variables. -/
def closeScope (span : Span) : Assemble Unit := do
  let (n, s) := (← scope).close
  updateScope fun _ => s
  emitPops n span

/-- Enters a construct that `GTFO` can leave. -/
def openBreakable (kind : BreakableKind) : Assemble Unit :=
  updateScope fun s => { s with breakables := ⟨kind, s.locals.length, []⟩ :: s.breakables }

/-- Leaves such a construct: what waited for its end leads here. -/
def closeBreakable : Assemble Unit := do
  match (← scope).breakables with
  | [] => pure ()
  | b :: rest =>
    patchAll b.exits
    updateScope fun s => { s with breakables := rest }

def resolve (id : Ident) : Assemble Binding := do
  let a ← get
  match a.scope.resolve a.outer id.name with
  | .ok b => pure b
  | .error f => fail f id.span

def readName (id : Ident) : Assemble Unit := do
  if id.name = implicitName then emit .readIt id.span
  else
    match ← resolve id with
    | .slot n _ => emitIndexed .readSt .readStLong n id.span
    | .outer f => emitConstant (.funkshon (Int64.ofNat f.offset)) id.span

/-- Pops a value into a name, which from then on is not known to hold a function. -/
def writeName (id : Ident) : Assemble Unit := do
  if id.name = implicitName then emit .writeIt id.span
  else
    match ← resolve id with
    | .slot n _ =>
      updateScope (·.forget n)
      emitIndexed .writeSt .writeStLong n id.span
    | .outer _ => fail (.notAssignable id.name) id.span

/-- Pushes the function of a call. If the function is known, the number of arguments is checked. -/
def readCallee (id : Ident) (argc : Nat) : Assemble Unit := do
  if CompileFault.maxArity < argc then fail (.tooManyArguments id.name argc) id.span
  if id.name ≠ implicitName then
    match (← resolve id).function? with
    | some f => if f.arity ≠ argc then fail (.arity id.name f.arity argc) id.span
    | none => pure ()
  readName id

/-- `GTFO` for the innermost construct. -/
def leave (span : Span) : Assemble Unit := do
  let s ← scope
  match s.breakables with
  | [] => fail .nothingToLeave span
  | b :: rest =>
    match b.kind with
    | .function =>
      emitConstant .noob span
      emit .ret span
    | _ =>
      emitPops (s.locals.length - b.locals) span
      let exit ← emitJump .jump span
      updateScope fun s => { s with breakables := { b with exits := b.exits ++ [exit] } :: rest }

end Assemble
end LolToolchain
