import LolToolchain.Compile.Code
import LolToolchain.Proofs.Evaluation.Basic

/-!
Where the code of a program stands in a chunk. Each `Placed` says that the code of a tree fills the
place from one offset to another, that its jumps lead where they should, and that its constants are
in the pool. Nothing is said about how the code came there.
-/
namespace LolToolchain

namespace Chunk

/-- An instruction fills the place from one offset to another, and its span is that of each of its
bytes. -/
def Has (c : Chunk) (op : Opcode) (arg : Nat) (span : Span) (start stop : Nat) : Prop :=
  c.fetch start = .ok ⟨op, arg⟩ ∧ (∀ i < op.length, c.spanAt (start + i : Nat) = span) ∧
    stop = start + op.length

theorem Has.spanAt {c : Chunk} {op : Opcode} {arg : Nat} {span : Span} {start stop : Nat}
    (h : c.Has op arg span start stop) : c.spanAt start = span :=
  h.2.1 0 (by rw [Opcode.length]; omega)

/-- A jump and where it leads. -/
def HasJump (c : Chunk) (op : Opcode) (target : Nat) (span : Span) (start stop : Nat) : Prop :=
  c.Has op 0 span start stop ∧ c.readJump (start + 1) = target

/-- An instruction with a number, in its short or its long form. -/
def HasIndexed (c : Chunk) (short long : Opcode) (n : Nat) (span : Span) (start stop : Nat) :
    Prop :=
  ∃ op, (op = short ∨ op = long) ∧ c.Has op n span start stop

/-- An instruction that pushes a constant. -/
def HasConstant (c : Chunk) (v : Value) (span : Span) (start stop : Nat) : Prop :=
  ∃ i, c.HasIndexed .loadConst .loadConstLong i span start stop ∧ c.pool.get? i = some v

/-- An instruction that drops values, if there are any to drop. -/
def HasPops (c : Chunk) (n : Nat) (span : Span) (start stop : Nat) : Prop :=
  if n = 0 then start = stop else c.HasIndexed .popN .popNLong n span start stop

end Chunk

/-- Where `GTFO` leads: nowhere, out of the function, or to an offset at which only the oldest
variables are left. -/
inductive Exit where
  | none
  | function
  | to (height target : Nat)

/-- The code that pushes the value of a name. -/
def Ident.ReadAt (c : Chunk) (outer : List Names) (ns : Names) (id : Ident) (start stop : Nat) :
    Prop :=
  if id.name = implicitName then c.Has .readIt 0 id.span start stop
  else match ns.slot? id.name with
    | some n => c.HasIndexed .readSt .readStLong n id.span start stop
    | none =>
      match Names.function? id.name outer with
      | some address => c.HasConstant (functionValue address) id.span start stop
      | none => False

/-- The code that pops a value into a name. -/
def Ident.WrittenAt (c : Chunk) (ns : Names) (id : Ident) (start stop : Nat) : Prop :=
  if id.name = implicitName then c.Has .writeIt 0 id.span start stop
  else match ns.slot? id.name with
    | some n => c.HasIndexed .writeSt .writeStLong n id.span start stop
    | none => False

/-- The code that pushes the variables of a string literal. -/
def Splice.PlacedAll (c : Chunk) (outer : List Names) (ns : Names) :
    List Splice → Nat → Nat → Prop
  | [], start, stop => start = stop
  | s :: ss, start, stop =>
    ∃ m, s.name.ReadAt c outer ns start m ∧ Splice.PlacedAll c outer ns ss m stop

/-- A template of the pool, whatever its tag. -/
def Chunk.HasTemplate (c : Chunk) (i : Nat) (text : Text) (splices : List Splice) : Prop :=
  ∃ tag, c.pool.get? i = some (.interp (some ⟨text, splices.map fun x => x.offset, tag⟩))

namespace Expr

mutual

/-- The code of an expression. -/
def Placed (c : Chunk) (outer : List Names) (ns : Names) : Expr → Nat → Nat → Prop
  | .int s v, a, b => c.HasConstant (.numbr v) s a b
  | .float s v, a, b => c.HasConstant (.numbar v) s a b
  | .string s v, a, b => c.HasConstant (.yarn v) s a b
  | .bool s v, a, b => c.HasConstant (.troof v) s a b
  | .null s, a, b => c.HasConstant .noob s a b
  | .it s, a, b => c.Has .readIt 0 s a b
  | .var _ id, a, b => id.ReadAt c outer ns a b
  | .interp s text splices, a, b =>
    ∃ m i, Splice.PlacedAll c outer ns splices a m ∧ c.HasTemplate i text splices ∧
      c.HasIndexed .interp .interpLong i s m b
  | .list s xs, a, b =>
    ∃ m, PlacedAll c outer ns xs a m ∧ c.HasIndexed .list .listLong xs.length s m b
  | .call s id xs, a, b =>
    ∃ m₁ m₂, id.ReadAt c outer ns a m₁ ∧ PlacedAll c outer ns xs m₁ m₂ ∧
      c.Has .call xs.length s m₂ b
  | .concat s [], a, b => c.HasConstant (.yarn []) s a b
  | .concat s [x], a, b =>
    ∃ m₁ m₂, c.HasConstant (.yarn []) s a m₁ ∧ Placed c outer ns x m₁ m₂ ∧ c.Has .concat 0 s m₂ b
  | .concat s (x :: xs), a, b =>
    ∃ m, Placed c outer ns x a m ∧ PlacedEach c outer ns .concat s xs m b
  | .cast s x t, a, b => ∃ m, Placed c outer ns x a m ∧ c.Has .cast t.code.toNat s m b
  | .binary s op x y, a, b =>
    ∃ m₁ m₂, Placed c outer ns x a m₁ ∧ Placed c outer ns y m₁ m₂ ∧ c.Has op.opcode 0 s m₂ b
  | .nary s op [], a, b => c.HasConstant (.troof (op == .all)) s a b
  | .nary s _ [x], a, b =>
    ∃ m, Placed c outer ns x a m ∧ c.Has .cast TypeName.troof.code.toNat s m b
  | .nary s op (x :: xs), a, b =>
    ∃ m, Placed c outer ns x a m ∧ PlacedEach c outer ns op.opcode s xs m b
  | .unary s op x, a, b => ∃ m, Placed c outer ns x a m ∧ c.Has op.opcode 0 s m b
  | .pickAt s i x, a, b =>
    ∃ m₁ m₂, Placed c outer ns x a m₁ ∧ Placed c outer ns i m₁ m₂ ∧ c.Has .getIndex 0 s m₂ b
  | .pickFront s x, a, b => ∃ m, Placed c outer ns x a m ∧ c.Has .front 0 s m b
  | .pickBack s x, a, b => ∃ m, Placed c outer ns x a m ∧ c.Has .back 0 s m b

/-- The codes of expressions one after another. -/
def PlacedAll (c : Chunk) (outer : List Names) (ns : Names) : List Expr → Nat → Nat → Prop
  | [], a, b => a = b
  | x :: xs, a, b => ∃ m, Placed c outer ns x a m ∧ PlacedAll c outer ns xs m b

/-- The codes of expressions, each followed by an operation. -/
def PlacedEach (c : Chunk) (outer : List Names) (ns : Names) (op : Opcode) (s : Span) :
    List Expr → Nat → Nat → Prop
  | [], a, b => a = b
  | x :: xs, a, b =>
    ∃ m₁ m₂, Placed c outer ns x a m₁ ∧ c.Has op 0 s m₁ m₂ ∧ PlacedEach c outer ns op s xs m₂ b

end

/-- The codes of expressions, each joined to the text before it. -/
def PlacedJoined (c : Chunk) (outer : List Names) (ns : Names) : List Expr → Nat → Nat → Prop
  | [], a, b => a = b
  | x :: xs, a, b =>
    ∃ m₁ m₂, x.Placed c outer ns a m₁ ∧ c.Has .concat 0 x.span m₁ m₂ ∧
      PlacedJoined c outer ns xs m₂ b

end Expr

/-- The code that pushes what a variable of a type starts with. -/
def TypeName.DefaultAt (c : Chunk) (span : Span) (a b : Nat) : TypeName → Prop
  | .noob => c.HasConstant .noob span a b
  | .troof => c.HasConstant (.troof false) span a b
  | .numbr => c.HasConstant (.numbr 0) span a b
  | .numbar => c.HasConstant (.numbar .zero) span a b
  | .yarn => c.HasConstant (.yarn []) span a b
  | .bukkit => c.Has .list 0 span a b

def Initial.Placed (c : Chunk) (outer : List Names) (ns : Names) (span : Span) (a b : Nat) :
    Initial → Prop
  | .absent => c.HasConstant .noob span a b
  | .value e => e.Placed c outer ns a b
  | .typed t => t.DefaultAt c span a b

/-- The code that pushes what is printed. -/
def PrintedAt (c : Chunk) (outer : List Names) (ns : Names) (span : Span) (a b : Nat) :
    List Expr → Prop
  | [] => c.HasConstant (.yarn []) span a b
  | x :: xs => ∃ m, x.Placed c outer ns a m ∧ Expr.PlacedJoined c outer ns xs m b

/-- The test of a loop, which leads to `exit` when the loop is over. -/
def LoopTest.Placed (c : Chunk) (outer : List Names) (ns : Names) (exit a b : Nat) :
    LoopTest → Prop
  | .forever => a = b
  | .untilTrue e =>
    ∃ m₁ m₂, e.Placed c outer ns a m₁ ∧ c.Has .not 0 e.span m₁ m₂ ∧
      c.HasJump .jumpIfFalse exit e.span m₂ b
  | .whileTrue e => ∃ m, e.Placed c outer ns a m ∧ c.HasJump .jumpIfFalse exit e.span m b

namespace LoopUpdate

/-- The names of a loop, its variable among them. -/
def names (update : Option LoopUpdate) (ns : Names) : Names :=
  (update.toList.map fun u => (u.counter.name, none)) ++ ns

/-- The code that sets up a loop's variable. -/
def StartAt (c : Chunk) (a b : Nat) : Option LoopUpdate → Prop
  | none => a = b
  | some u => c.HasConstant (.numbr 0) u.counter.span a b

/-- The code of a loop's test. -/
def TestAt (c : Chunk) (outer : List Names) (ns : Names) (exit a b : Nat) :
    Option LoopUpdate → Prop
  | none => a = b
  | some u => u.test.Placed c outer ns exit a b

/-- The code that changes a loop's variable, which is in the slot `slot`. -/
def Placed (c : Chunk) (outer : List Names) (ns : Names) (slot a b : Nat) (u : LoopUpdate) :
    Prop :=
  ∃ m, c.HasIndexed .writeSt .writeStLong slot u.counter.span m b ∧
    match u.change with
    | .up =>
      ∃ m₁ m₂, c.HasIndexed .readSt .readStLong slot u.counter.span a m₁ ∧
        c.HasConstant (.numbr 1) u.counter.span m₁ m₂ ∧ c.Has .add 0 u.counter.span m₂ m
    | .down =>
      ∃ m₁ m₂, c.HasIndexed .readSt .readStLong slot u.counter.span a m₁ ∧
        c.HasConstant (.numbr 1) u.counter.span m₁ m₂ ∧ c.Has .sub 0 u.counter.span m₂ m
    | .apply f =>
      ∃ m₁ m₂, f.ReadAt c outer ns a m₁ ∧
        c.HasIndexed .readSt .readStLong slot u.counter.span m₁ m₂ ∧ c.Has .call 1 f.span m₂ m

/-- The code between a loop's body and its jump back. -/
def ChangeAt (c : Chunk) (outer : List Names) (ns : Names) (slot a b : Nat) :
    Option LoopUpdate → Prop
  | none => a = b
  | some u => u.Placed c outer ns slot a b

end LoopUpdate

/-- The code behind a function's body: if the body does not end with a return, the implicit variable
is returned. -/
def ReturnAt (c : Chunk) (span : Span) (body : List Stmt) (a b : Nat) : Prop :=
  if endsInReturn body then a = b
  else ∃ m, c.Has .readIt 0 span a m ∧ c.Has .ret 0 span m b

/-- The code of `GTFO`. -/
def Exit.Placed (c : Chunk) (ns : Names) (span : Span) (a b : Nat) : Exit → Prop
  | .none => False
  | .function => ∃ m, c.HasConstant .noob span a m ∧ c.Has .ret 0 span m b
  | .to height target =>
    ∃ m, c.HasPops (ns.length - height) span a m ∧ c.HasJump .jump target span m b

mutual

/-- The code of a statement. -/
def Stmt.Placed (c : Chunk) (address : Nat → Nat) (outer : List Names) (exit : Exit) (k : Nat) :
    Stmt → Names → Nat → Nat → Prop
  | .assign _ target value, ns, a, b =>
    ∃ m, value.Placed c outer ns a m ∧ target.WrittenAt c ns m b
  | .declare s _ initial, ns, a, b => initial.Placed c outer ns s a b
  | .load _ _, _, a, b => a = b
  | .define s name params (.mk _ body), ns, a, b =>
    ∃ m₁ m₂ m₃, c.HasJump .jump m₃ s a (address k) ∧
      c.Has .fnDef params.length s (address k) m₁ ∧
      Stmt.PlacedAll c address (((name.name, some (address k)) :: ns) :: outer) .function (k + 1)
        body (Names.ofParams params) m₁ m₂ ∧
      ReturnAt c s body m₂ m₃ ∧ c.HasConstant (functionValue (address k)) s m₃ b
  | .expr s value, ns, a, b => ∃ m, value.Placed c outer ns a m ∧ c.Has .writeIt 0 s m b
  | .switch s arms otherwise, ns, a, b =>
    ∃ entry m, Arm.PlacedSwitch c address outer (.to ns.length b) k s arms ns a entry m ∧
      Block.PlacedOption c address outer (.to ns.length b) (k + Arm.definitionsAll arms) s
        otherwise (Arm.namesAll address k arms ns) m b
  | .branch s yes arms no, ns, a, b =>
    let k' := k + Block.definitionsOption yes
    let ns' := Block.namesOption address k yes ns
    ∃ m₁ m₂ m₃ next m₄, c.Has .readIt 0 s a m₁ ∧ c.HasJump .jumpIfFalse next s m₁ m₂ ∧
      Block.PlacedOption c address outer exit k s yes ns m₂ m₃ ∧ c.HasJump .jump b s m₃ next ∧
      Arm.PlacedBranch c address outer exit k' s b arms ns' next m₄ ∧
      Block.PlacedOption c address outer exit (k' + Arm.definitionsAll arms) s no
        (Arm.namesAll address k' arms ns') m₄ b
  | .cast s name target, ns, a, b =>
    ∃ m₁ m₂, name.ReadAt c outer ns a m₁ ∧ c.Has .cast target.code.toNat s m₁ m₂ ∧
      name.WrittenAt c ns m₂ b
  | .leave s, ns, a, b => exit.Placed c ns s a b
  | .loop s _ _ update (.mk _ body), ns, a, b =>
    let inner := LoopUpdate.names update ns
    let after := Stmt.namesAll address k body inner
    ∃ start m₁ m₂ m₃ m₄ beyond, LoopUpdate.StartAt c a start update ∧
      LoopUpdate.TestAt c outer inner beyond start m₁ update ∧
      Stmt.PlacedAll c address outer (.to inner.length beyond) k body inner m₁ m₂ ∧
      c.HasPops (after.length - inner.length) s m₂ m₃ ∧
      LoopUpdate.ChangeAt c outer (after.keep inner.length) ns.length m₃ m₄ update ∧
      c.HasJump .jump start s m₄ beyond ∧ c.HasPops (inner.length - ns.length) s beyond b
  | .ret s value, ns, a, b => ∃ m, value.Placed c outer ns a m ∧ c.Has .ret 0 s m b
  | .print s args newline, ns, a, b =>
    ∃ m, PrintedAt c outer ns s a m args ∧ c.Has .print (if newline then 1 else 0) s m b
  | .read s target, ns, a, b => ∃ m, c.Has .read 0 s a m ∧ target.WrittenAt c ns m b
  | .append s target value, ns, a, b =>
    ∃ m₁ m₂, target.ReadAt c outer ns a m₁ ∧ value.Placed c outer ns m₁ m₂ ∧
      c.Has .append 0 s m₂ b
  | .store s target index value, ns, a, b =>
    ∃ m₁ m₂ m₃, target.ReadAt c outer ns a m₁ ∧ index.Placed c outer ns m₁ m₂ ∧
      value.Placed c outer ns m₂ m₃ ∧ c.Has .setIndex 0 s m₃ b

/-- The codes of statements one after another. -/
def Stmt.PlacedAll (c : Chunk) (address : Nat → Nat) (outer : List Names) (exit : Exit) (k : Nat) :
    List Stmt → Names → Nat → Nat → Prop
  | [], _, a, b => a = b
  | s :: ss, ns, a, b =>
    ∃ m, Stmt.Placed c address outer exit k s ns a m ∧
      Stmt.PlacedAll c address outer exit (k + s.definitions) ss (s.names address k ns) m b

/-- The code of a block that may be missing. -/
def Block.PlacedOption (c : Chunk) (address : Nat → Nat) (outer : List Names) (exit : Exit)
    (k : Nat) (span : Span) : Option Block → Names → Nat → Nat → Prop
  | none, _, a, b => a = b
  | some (.mk _ body), ns, a, b =>
    ∃ m, Stmt.PlacedAll c address outer exit k body ns a m ∧
      c.HasPops ((Stmt.namesAll address k body ns).length - ns.length) span m b

/-- The arms of a switch. A body that is not left goes on at `entry` of the arms behind it, which is
the body of the first of them. -/
def Arm.PlacedSwitch (c : Chunk) (address : Nat → Nat) (outer : List Names) (exit : Exit) (k : Nat)
    (span : Span) : List Arm → Names → Nat → Nat → Nat → Prop
  | [], _, a, entry, b => a = b ∧ entry = b
  | .mk test (.mk _ body) :: arms, ns, a, entry, b =>
    ∃ m₁ m₂ m₃ m₄ m₅ next entry', c.Has .readIt 0 test.span a m₁ ∧
      test.Placed c outer ns m₁ m₂ ∧ c.Has .equal 0 test.span m₂ m₃ ∧
      c.HasJump .jumpIfFalse next test.span m₃ entry ∧
      Stmt.PlacedAll c address outer exit k body ns entry m₄ ∧
      c.HasPops ((Stmt.namesAll address k body ns).length - ns.length) span m₄ m₅ ∧
      c.HasJump .jump entry' span m₅ next ∧
      Arm.PlacedSwitch c address outer exit (k + Stmt.definitionsAll body) span arms
        ((Stmt.namesAll address k body ns).keep ns.length) next entry' b

/-- The further arms of a branch that is over at `beyond`. -/
def Arm.PlacedBranch (c : Chunk) (address : Nat → Nat) (outer : List Names) (exit : Exit) (k : Nat)
    (span : Span) (beyond : Nat) : List Arm → Names → Nat → Nat → Prop
  | [], _, a, b => a = b
  | .mk test (.mk _ body) :: arms, ns, a, b =>
    ∃ m₁ m₂ m₃ m₄ next, test.Placed c outer ns a m₁ ∧
      c.HasJump .jumpIfFalse next test.span m₁ m₂ ∧
      Stmt.PlacedAll c address outer exit k body ns m₂ m₃ ∧
      c.HasPops ((Stmt.namesAll address k body ns).length - ns.length) span m₃ m₄ ∧
      c.HasJump .jump beyond span m₄ next ∧
      Arm.PlacedBranch c address outer exit (k + Stmt.definitionsAll body) span beyond arms
        ((Stmt.namesAll address k body ns).keep ns.length) next b

end

/-- The code of a function, behind its marker. -/
def Function.Placed (c : Chunk) (address : Nat → Nat) (f : Function) : Prop :=
  ∃ s m₁ m₂ m₃, c.Has .fnDef f.params.length s f.address m₁ ∧
    Stmt.PlacedAll c address f.outer .function f.first f.body (Names.ofParams f.params) m₁ m₂ ∧
    ReturnAt c s f.body m₂ m₃

/-- The code of a program fills the chunk from its start to the last instruction. -/
def Program.Placed (c : Chunk) (address : Nat → Nat) (p : Program) : Prop :=
  ∃ m, Stmt.PlacedAll c address [] .none 0 p.body.stmts [] 0 m ∧
    c.Has .halt 0 p.span m c.code.size

end LolToolchain
