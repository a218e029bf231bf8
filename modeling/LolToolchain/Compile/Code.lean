import LolToolchain.Compile.Assembly

/-!
The code of expressions, statements and programs. The code of an expression pushes one value; the
code of a statement leaves the stack as it was, but for the variables that it declares.
-/
namespace LolToolchain

def BinaryOp.opcode : BinaryOp → Opcode
  | .add => .add
  | .sub => .sub
  | .mul => .mul
  | .div => .div
  | .mod => .mod
  | .min => .min
  | .max => .max
  | .and => .and
  | .or => .or
  | .xor => .xor
  | .equal => .equal
  | .notEqual => .notEqual
  | .gt => .gt
  | .lt => .lt
  | .ge => .ge
  | .le => .le

def ListOp.opcode : ListOp → Opcode
  | .all => .and
  | .any => .or

def UnaryOp.opcode : UnaryOp → Opcode
  | .not => .not
  | .length => .len

open Assemble

def Splice.readAll : List Splice → Assemble Unit
  | [] => pure ()
  | s :: ss => do
    readName s.name
    Splice.readAll ss

namespace Expr

mutual

def assemble : Expr → Assemble Unit
  | .int s v => emitConstant (.numbr v) s
  | .float s v => emitConstant (.numbar v) s
  | .string s v => emitConstant (.yarn v) s
  | .bool s v => emitConstant (.troof v) s
  | .null s => emitConstant .noob s
  | .it s => emit .readIt s
  | .var _ id => readName id
  | .interp s text splices => do
    Splice.readAll splices
    let i ← constant (.interp (some ⟨text, splices.map fun x => x.offset, 0⟩))
    emitIndexed .interp .interpLong i s
  | .list s xs => do
    assembleAll xs
    emitIndexed .list .listLong xs.length s
  | .call s id xs => do
    readCallee id xs.length
    assembleAll xs
    emit .call s [xs.length.toUInt8]
  | .concat s [] => emitConstant (.yarn []) s
  | .concat s [x] => do
    emitConstant (.yarn []) s
    assemble x
    emit .concat s
  | .concat s (x :: xs) => do
    assemble x
    assembleEach .concat s xs
  | .cast s x t => do
    assemble x
    emit .cast s [t.code]
  | .binary s op a b => do
    assemble a
    assemble b
    emit op.opcode s
  | .nary s op [] => emitConstant (.troof (op == .all)) s
  | .nary s _ [x] => do
    assemble x
    emit .cast s [TypeName.troof.code]
  | .nary s op (x :: xs) => do
    assemble x
    assembleEach op.opcode s xs
  | .unary s op x => do
    assemble x
    emit op.opcode s
  | .pickAt s i x => do
    assemble x
    assemble i
    emit .getIndex s
  | .pickFront s x => do
    assemble x
    emit .front s
  | .pickBack s x => do
    assemble x
    emit .back s

def assembleAll : List Expr → Assemble Unit
  | [] => pure ()
  | x :: xs => do
    assemble x
    assembleAll xs

/-- The codes of expressions, each followed by an operation. -/
def assembleEach (op : Opcode) (span : Span) : List Expr → Assemble Unit
  | [] => pure ()
  | x :: xs => do
    assemble x
    emit op span
    assembleEach op span xs

end

/-- The codes of expressions, each joined to the text before it. -/
def assembleJoined : List Expr → Assemble Unit
  | [] => pure ()
  | x :: xs => do
    assemble x
    emit .concat x.span
    assembleJoined xs

end Expr

/-- Pushes what a variable of a type starts with. -/
def TypeName.assembleDefault (t : TypeName) (span : Span) : Assemble Unit :=
  match t with
  | .noob => emitConstant .noob span
  | .troof => emitConstant (.troof false) span
  | .numbr => emitConstant (.numbr 0) span
  | .numbar => emitConstant (.numbar .zero) span
  | .yarn => emitConstant (.yarn []) span
  | .bukkit => emit .list span [0]

def Initial.assemble (span : Span) : Initial → Assemble Unit
  | .absent => emitConstant .noob span
  | .value e => e.assemble
  | .typed t => t.assembleDefault span

/-- Pushes what is printed: the arguments joined into one text. -/
def assemblePrinted (span : Span) : List Expr → Assemble Unit
  | [] => emitConstant (.yarn []) span
  | x :: xs => do
    x.assemble
    Expr.assembleJoined xs

namespace LoopTest

/-- The code of a loop's test: the jump that leaves the loop, if there is one. -/
def assemble : LoopTest → Assemble (Option Nat)
  | .forever => pure none
  | .untilTrue e => do
    e.assemble
    emit .not e.span
    return some (← emitJump .jumpIfFalse e.span)
  | .whileTrue e => do
    e.assemble
    return some (← emitJump .jumpIfFalse e.span)

end LoopTest

namespace LoopUpdate

/-- The code that changes a loop's variable, which is in a slot. -/
def assembleChange (u : LoopUpdate) (slot : Nat) : Assemble Unit := do
  let span := u.counter.span
  match u.change with
  | .up =>
    emitIndexed .readSt .readStLong slot span
    emitConstant (.numbr 1) span
    emit .add span
  | .down =>
    emitIndexed .readSt .readStLong slot span
    emitConstant (.numbr 1) span
    emit .sub span
  | .apply f =>
    readCallee f 1
    emitIndexed .readSt .readStLong slot span
    emit .call f.span [1]
  emitIndexed .writeSt .writeStLong slot span

end LoopUpdate

def endsInReturn (ss : List Stmt) : Bool :=
  match ss.getLast? with
  | some (.ret _ _) => true
  | _ => false

def declareParams : List Ident → Assemble Unit
  | [] => pure ()
  | p :: ps => do
    declare p.name none
    declareParams ps

/-- Starts a function: its code is skipped when it is met, and its name is known in its own body. -/
def openFunction (span : Span) (name : Ident) (params : List Ident) :
    Assemble (Nat × KnownFunction) := do
  if CompileFault.maxArity < params.length then
    fail (.tooManyParameters name.name params.length) name.span
  let skip ← emitJump .jump span
  let f : KnownFunction := ⟨← here, params.length⟩
  emit .fnDef span [params.length.toUInt8]
  declare name.name (some f)
  modify fun a => { a with
    scope := { Scope.empty with depth := 1, breakables := [⟨.function, 0, []⟩] }
    outer := a.scope :: a.outer }
  declareParams params
  return (skip, f)

/-- Ends a function. A body that does not end with a return gives the implicit variable. -/
def closeFunction (span : Span) (body : List Stmt) (skip : Nat) (f : KnownFunction) :
    Assemble Unit := do
  if !endsInReturn body then
    emit .readIt span
    emit .ret span
  modify fun a =>
    match a.outer with
    | [] => a
    | s :: rest => { a with scope := s, outer := rest }
  patch skip
  emitConstant (.funkshon (Int64.ofNat f.offset)) span

/-- Starts a loop: its variable is in a slot of its own, and starts at zero. -/
def openLoop (update : Option LoopUpdate) : Assemble Nat := do
  openScope
  let slot := (← scope).locals.length
  match update with
  | none => pure ()
  | some u =>
    emitConstant (.numbr 0) u.counter.span
    declare u.counter.name none
  openBreakable .loop
  return slot

mutual

def Stmt.assemble : Stmt → Assemble Unit
  | .assign _ target value => do
    value.assemble
    writeName target
  | .declare s name initial => do
    initial.assemble s
    declare name.name none
  | .load _ _ => pure ()
  | .define s name params (.mk _ body) => do
    let (skip, f) ← openFunction s name params
    Stmt.assembleAll body
    closeFunction s body skip f
  | .expr s value => do
    value.assemble
    emit .writeIt s
  | .switch s arms otherwise => do
    openBreakable .switch
    let fall ← Arm.assembleSwitch s none arms
    patchOption fall
    Block.assembleOption s otherwise
    closeBreakable
  | .branch s yes arms no => do
    emit .readIt s
    let next ← emitJump .jumpIfFalse s
    Block.assembleOption s yes
    let done ← emitJump .jump s
    let (next, ends) ← Arm.assembleBranch s next arms
    patch next
    Block.assembleOption s no
    patchAll (done :: ends)
  | .cast s name target => do
    readName name
    emit .cast s [target.code]
    writeName name
  | .leave s => Assemble.leave s
  | .loop s _ _ update (.mk _ body) => do
    let slot ← openLoop update
    let start ← here
    let exit ← match update with
      | none => pure none
      | some u => u.test.assemble
    openScope
    Stmt.assembleAll body
    closeScope s
    match update with
    | none => pure ()
    | some u => u.assembleChange slot
    emitLoop start s
    patchOption exit
    closeBreakable
    closeScope s
  | .ret s value => do
    value.assemble
    emit .ret s
  | .print s args newline => do
    assemblePrinted s args
    emit .print s [if newline then 1 else 0]
  | .read s target => do
    emit .read s
    writeName target
  | .append s target value => do
    readName target
    value.assemble
    emit .append s
  | .store s target index value => do
    readName target
    index.assemble
    value.assemble
    emit .setIndex s

def Stmt.assembleAll : List Stmt → Assemble Unit
  | [] => pure ()
  | s :: ss => do
    Stmt.assemble s
    Stmt.assembleAll ss

/-- The code of a block that may be missing, with variables of its own. -/
def Block.assembleOption (span : Span) : Option Block → Assemble Unit
  | none => pure ()
  | some (.mk _ body) => do
    openScope
    Stmt.assembleAll body
    closeScope span

/-- The arms of a switch. A body that is not left goes on with the next one: `fall` is the jump
that waits for it. -/
def Arm.assembleSwitch (span : Span) (fall : Option Nat) : List Arm → Assemble (Option Nat)
  | [] => pure fall
  | .mk test (.mk _ body) :: arms => do
    emit .readIt test.span
    test.assemble
    emit .equal test.span
    let next ← emitJump .jumpIfFalse test.span
    patchOption fall
    openScope
    Stmt.assembleAll body
    closeScope span
    let fall ← emitJump .jump span
    patch next
    Arm.assembleSwitch span (some fall) arms

/-- The further arms of a branch: `next` is the jump that is taken when the test before fails. The
results are that jump of the last arm, and the jumps that wait for the end. -/
def Arm.assembleBranch (span : Span) (next : Nat) : List Arm → Assemble (Nat × List Nat)
  | [] => pure (next, [])
  | .mk test (.mk _ body) :: arms => do
    patch next
    test.assemble
    let next ← emitJump .jumpIfFalse test.span
    openScope
    Stmt.assembleAll body
    closeScope span
    let done ← emitJump .jump span
    let (next, ends) ← Arm.assembleBranch span next arms
    return (next, done :: ends)

end

namespace Program

def assemble (p : Program) : Assemble Unit := do
  Stmt.assembleAll p.body.stmts
  emit .halt p.span

/-- The chunk of a program, which keeps the names that it is given. -/
def compile (p : Program) (names : NameTable) : Except Diagnostic Chunk := do
  let (_, a) ← p.assemble.run ⟨.empty, .empty, []⟩
  return { a.chunk with names := names.names.toList }

end Program
end LolToolchain
