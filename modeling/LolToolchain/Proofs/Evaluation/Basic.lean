import LolToolchain.Machine.Step
import LolToolchain.Proofs.Evaluation.Names

/-!
What a program does, read off its tree. Evaluation is paid for in steps: each operation takes one,
and so does what the run-time system does beside them, which is to drop the variables of a block
that has some and to pass from one part of a statement to another. When the steps are used up, what
was printed and read until then can be seen.
-/
namespace LolToolchain

/-- How a run ends: behind the last statement, with a value that the top level returns, or with a
fault at a place of the program. A tree that cannot be compiled may have no meaning. -/
inductive Finish where
  | fellOff
  | found
  | failed (f : Fault) (span : Span)
  | stuck
  deriving DecidableEq, Repr

/-- What can be seen of a run after some steps: how it has ended, if it has, what it has printed,
and what it has left of the input. -/
structure Observation where
  ending : Option Finish
  output : Array UInt8
  input : Text
  deriving DecidableEq, Repr

/-- The state of an evaluation: the variables of the current call with the newest first, its
implicit variable, the lists, the streams, and the steps that are left. -/
structure EvalState where
  vars : List (Text × Value)
  implicit : Value
  heap : Heap
  input : Text
  output : Array UInt8
  steps : Nat

/-- A part of an evaluation. It gives a value, or it ends the run, or the steps are used up. -/
abbrev Eval := ExceptT (Option Finish) (StateM EvalState)

/-- How a statement is left: on to the next one, by `GTFO`, or with a value to return. -/
inductive Flow where
  | next
  | left
  | found (v : Value) (span : Span)

/-- What is fixed for a whole run. -/
structure Linked where
  settings : Settings
  functions : List Function
  address : Nat → Nat

/-- What is fixed for one call: how deep it is, the names around its function, how often a loop may
be passed, and how calls are evaluated. -/
structure EvalContext extends Linked where
  depth : Nat
  outer : List Names
  passes : Nat
  call : Function → List Value → Eval Value

/-- The value of the function with an address. -/
def functionValue (address : Nat) : Value :=
  .funkshon (Int64.ofNat address)

/-- The function that a value stands for. -/
def Linked.function? (l : Linked) (offset : Int64) : Option Function :=
  l.functions.find? fun f => Int64.ofNat f.address == offset

/-- The variables of a call, the last parameter first. -/
def Function.bind (f : Function) (args : List Value) : List (Text × Value) :=
  ((f.params.map Ident.name).zip args).reverse

namespace EvalState

/-- The state with a variable changed, if there is one of that name. -/
def assign? (name : Text) (v : Value) : List (Text × Value) → Option (List (Text × Value))
  | [] => none
  | x :: xs => if x.1 = name then some ((name, v) :: xs) else (assign? name v xs).map (x :: ·)

/-- The state with only the oldest variables. -/
def cut (st : EvalState) (height : Nat) : EvalState :=
  { st with vars := st.vars.drop (st.vars.length - height) }

end EvalState

namespace Eval

def fail {α : Type} (f : Fault) (span : Span) : Eval α :=
  throw (some (.failed f span))

/-- Pays for a step. -/
def tick : Eval Unit := fun st =>
  match st.steps with
  | 0 => (.error none, st)
  | n + 1 => (.ok (), { st with steps := n })

/-- A value that is at hand. -/
def give (v : Value) : Eval Value := do
  tick
  return v

/-- An operation that may change the lists. -/
def perform {α : Type} (span : Span) (f : Heap → Except Fault (α × Heap)) : Eval α := do
  tick
  let st ← get
  match f st.heap with
  | .ok (a, heap) =>
    set { st with heap }
    return a
  | .error e => fail e span

/-- An operation that leaves the lists as they are. -/
def operate {α : Type} (span : Span) (f : Heap → Except Fault α) : Eval α :=
  perform span fun heap => (f heap).map (·, heap)

/-- The number of variables. -/
def height : Eval Nat := do
  return (← get).vars.length

def declare (name : Text) (v : Value) : Eval Unit :=
  modify fun st => { st with vars := (name, v) :: st.vars }

/-- Drops the variables that are newer than the oldest `height`. -/
def unwind (height : Nat) : Eval Unit := do
  let st ← get
  if st.vars.length = height then pure ()
  else
    tick
    modify fun st => st.cut height

/-- The value of the implicit variable. -/
def readImplicit : Eval Value := do
  tick
  return (← get).implicit

/-- The value of a name. -/
def readName (c : EvalContext) (id : Ident) : Eval Value := do
  tick
  let st ← get
  if id.name = implicitName then return st.implicit
  else match st.vars.lookup id.name with
    | some v => return v
    | none =>
      match Names.function? id.name c.outer with
      | some address => return functionValue address
      | none => throw (some .stuck)

def writeName (id : Ident) (v : Value) : Eval Unit := do
  tick
  let st ← get
  if id.name = implicitName then set { st with implicit := v }
  else match EvalState.assign? id.name v st.vars with
    | some vars => set { st with vars }
    | none => throw (some .stuck)

/-- The value of the newest variable. -/
def newest : Eval Value := do
  tick
  match (← get).vars with
  | [] => throw (some .stuck)
  | x :: _ => return x.2

def setNewest (v : Value) : Eval Unit := do
  tick
  let st ← get
  match st.vars with
  | [] => throw (some .stuck)
  | x :: xs => set { st with vars := (x.1, v) :: xs }

/-- Calls a value. -/
def invoke (c : EvalContext) (span : Span) (callee : Value) (args : List Value) : Eval Value := do
  tick
  match callee with
  | .funkshon offset =>
    match c.function? offset with
    | none => fail (.noFunction offset.toInt) span
    | some f =>
      if f.params.length ≠ args.length then fail (.arity f.params.length args.length) span
      if c.settings.maxFrames ≤ c.depth then fail .stackOverflow span
      c.call f args
  | v => fail (.notCallable v.kindName) span

/-- Prints a value. -/
def print (s : Settings) (span : Span) (v : Value) (newline : Bool) : Eval Unit := do
  let t ← operate span v.text
  match s.outputFault with
  | some cause => fail (.output cause) span
  | none =>
    modify fun st => { st with output := st.output ++ if newline then t ++ [0x0A] else t }

/-- Reads a line of the input. -/
def readLine (s : Settings) (span : Span) : Eval Value := do
  tick
  match s.inputFault with
  | some cause => fail (.input cause) span
  | none =>
    let st ← get
    let line := st.input.takeWhile (· != 0x0A)
    set { st with input := st.input.drop (line.length + 1) }
    return .yarn (Text.dropRightWhile (· == 0x0D) line)

/-- Goes on until there is a result, at most a number of times. -/
def iterate (pass : Eval (Option Flow)) : Nat → Eval Flow
  | 0 => throw none
  | n + 1 => do
    match ← pass with
    | some flow => return flow
    | none => iterate pass n

end Eval

open Eval

/-- What an operator gives. -/
def BinaryOp.apply : BinaryOp → Heap → Value → Value → Except Fault Value
  | .add, _, a, b => Arithmetic.add.eval a b
  | .sub, _, a, b => Arithmetic.sub.eval a b
  | .mul, _, a, b => Arithmetic.mul.eval a b
  | .div, _, a, b => Arithmetic.div.eval a b
  | .mod, _, a, b => Arithmetic.mod.eval a b
  | .min, _, a, b => Arithmetic.min.eval a b
  | .max, _, a, b => Arithmetic.max.eval a b
  | .and, h, a, b => do
    if ← a.truthy h then return .troof (← b.truthy h) else return .troof false
  | .or, h, a, b => do
    if ← a.truthy h then return .troof true else return .troof (← b.truthy h)
  | .xor, h, a, b => do return .troof ((← a.truthy h) != (← b.truthy h))
  | .equal, _, a, b => .ok (.troof (a.equal b))
  | .notEqual, _, a, b => .ok (.troof (!a.equal b))
  | .gt, _, a, b => (Comparison.gt.eval a b).map .troof
  | .lt, _, a, b => (Comparison.lt.eval a b).map .troof
  | .ge, _, a, b => (Comparison.ge.eval a b).map .troof
  | .le, _, a, b => (Comparison.le.eval a b).map .troof

def ListOp.binary : ListOp → BinaryOp
  | .all => .and
  | .any => .or

def UnaryOp.apply : UnaryOp → Heap → Value → Except Fault Value
  | .not, h, a => do return .troof (!(← a.truthy h))
  | .length, h, a => a.count h

/-- The texts of two values in one. -/
def Value.joined (heap : Heap) (a b : Value) : Except Fault Value := do
  return .yarn ((← a.text heap) ++ (← b.text heap))

/-- A text with the texts of values at its splices. -/
def Splice.fill (text : Text) (splices : List Splice) (vs : List Value) (heap : Heap) :
    Except Fault Value := do
  let parts ← vs.mapM (Value.text heap)
  match (⟨text, splices.map fun x => x.offset, 0⟩ : Template).fill parts with
  | some t => return .yarn t
  | none => throw .malformed

/-- The values of the variables in a string literal. -/
def Splice.evalAll (c : EvalContext) : List Splice → Eval (List Value)
  | [] => return []
  | s :: ss => do
    let v ← readName c s.name
    return v :: (← Splice.evalAll c ss)

namespace Expr

mutual

/-- The value of an expression. -/
def eval (c : EvalContext) : Expr → Eval Value
  | .int _ v => give (.numbr v)
  | .float _ v => give (.numbar v)
  | .string _ v => give (.yarn v)
  | .bool _ v => give (.troof v)
  | .null _ => give .noob
  | .it _ => readImplicit
  | .var _ id => readName c id
  | .interp s text splices => do
    let vs ← Splice.evalAll c splices
    operate s (Splice.fill text splices vs)
  | .list s xs => do
    let vs ← evalAll c xs
    perform s fun heap => .ok (.bukkit heap.size, heap.push vs.toArray)
  | .call s id xs => do
    let f ← readName c id
    let vs ← evalAll c xs
    invoke c s f vs
  | .concat _ [] => give (.yarn [])
  | .concat s [x] => do
    let v ← give (.yarn [])
    let w ← eval c x
    operate s fun heap => v.joined heap w
  | .concat s (x :: xs) => do
    let v ← eval c x
    evalEach c Value.joined s v xs
  | .cast s x t => do
    let v ← eval c x
    perform s fun heap => v.cast heap t
  | .binary s op a b => do
    let v ← eval c a
    let w ← eval c b
    operate s fun heap => op.apply heap v w
  | .nary _ op [] => give (.troof (op == .all))
  | .nary s _ [x] => do
    let v ← eval c x
    perform s fun heap => v.cast heap .troof
  | .nary s op (x :: xs) => do
    let v ← eval c x
    evalEach c op.binary.apply s v xs
  | .unary s op x => do
    let v ← eval c x
    operate s fun heap => op.apply heap v
  | .pickAt s i x => do
    let v ← eval c x
    let w ← eval c i
    operate s fun heap => v.pick heap w
  | .pickFront s x => do
    let v ← eval c x
    operate s fun heap => v.pickEnd heap false
  | .pickBack s x => do
    let v ← eval c x
    operate s fun heap => v.pickEnd heap true

/-- The values of expressions in order. -/
def evalAll (c : EvalContext) : List Expr → Eval (List Value)
  | [] => return []
  | x :: xs => do
    let v ← eval c x
    return v :: (← evalAll c xs)

/-- A value combined with those of expressions one after another. -/
def evalEach (c : EvalContext) (f : Heap → Value → Value → Except Fault Value) (s : Span)
    (v : Value) : List Expr → Eval Value
  | [] => return v
  | x :: xs => do
    let w ← eval c x
    let v ← operate s fun heap => f heap v w
    evalEach c f s v xs

end

/-- A value joined with those of expressions, which answer for their own texts. -/
def evalJoined (c : EvalContext) (v : Value) : List Expr → Eval Value
  | [] => return v
  | x :: xs => do
    let w ← x.eval c
    let v ← operate x.span fun heap => v.joined heap w
    evalJoined c v xs

end Expr

/-- What a variable of a type starts with. -/
def TypeName.initial (t : TypeName) (heap : Heap) : Value × Heap :=
  match t with
  | .noob => (.noob, heap)
  | .troof => (.troof false, heap)
  | .numbr => (.numbr 0, heap)
  | .numbar => (.numbar .zero, heap)
  | .yarn => (.yarn [], heap)
  | .bukkit => (.bukkit heap.size, heap.push #[])

def Initial.eval (c : EvalContext) (span : Span) : Initial → Eval Value
  | .absent => give .noob
  | .value e => e.eval c
  | .typed t => perform span fun heap => .ok (t.initial heap)

/-- What is printed for arguments. -/
def evalPrinted (c : EvalContext) : List Expr → Eval Value
  | [] => give (.yarn [])
  | x :: xs => do
    let v ← x.eval c
    Expr.evalJoined c v xs

/-- Whether a loop goes on. -/
def LoopTest.eval (c : EvalContext) : LoopTest → Eval Bool
  | .forever => return true
  | .untilTrue e => do
    let v ← e.eval c
    let b ← operate e.span v.truthy
    tick
    return !b
  | .whileTrue e => do
    let v ← e.eval c
    operate e.span v.truthy

/-- Changes the variable of a loop, which is the newest one. -/
def LoopUpdate.advance (c : EvalContext) (u : LoopUpdate) : Eval Unit := do
  let span := u.counter.span
  match u.change with
  | .up =>
    let v ← newest
    tick
    let v ← operate span fun _ => Arithmetic.add.eval v (.numbr 1)
    setNewest v
  | .down =>
    let v ← newest
    tick
    let v ← operate span fun _ => Arithmetic.sub.eval v (.numbr 1)
    setNewest v
  | .apply f =>
    let callee ← readName c f
    let v ← newest
    let v ← invoke c f.span callee [v]
    setNewest v

/-- The part of a loop's pass before its body: whether it goes on. -/
def LoopUpdate.evalTest (c : EvalContext) : Option LoopUpdate → Eval Bool
  | none => return true
  | some u => u.test.eval c

/-- The part of a loop's pass behind its body. -/
def LoopUpdate.evalChange (c : EvalContext) : Option LoopUpdate → Eval Unit
  | none => pure ()
  | some u => u.advance c

/-- The start of a loop. -/
def LoopUpdate.start : Option LoopUpdate → Eval Unit
  | none => pure ()
  | some u => do
    let v ← give (.numbr 0)
    declare u.counter.name v

/-- A block that has been entered with some variables goes out of use at its end. -/
def Eval.inBlock (body : Eval Flow) : Eval Flow := do
  let h ← height
  match ← body with
  | .next =>
    unwind h
    return .next
  | flow => return flow

/-- One pass of a loop whose variables are those of a height: `none` if there is another one. -/
def Eval.pass (c : EvalContext) (update : Option LoopUpdate) (h : Nat) (body : Eval Flow) :
    Eval (Option Flow) := do
  if !(← LoopUpdate.evalTest c update) then return some .next
  else
    match ← inBlock body with
    | .next =>
      LoopUpdate.evalChange c update
      tick
      return none
    | .left =>
      unwind h
      tick
      return some .next
    | flow => return some flow

mutual

/-- Does what a statement says; its first definition has the number `k`. -/
def Stmt.eval (c : EvalContext) (k : Nat) : Stmt → Eval Flow
  | .assign _ target value => do
    let v ← value.eval c
    writeName target v
    return .next
  | .declare s name initial => do
    let v ← initial.eval c s
    declare name.name v
    return .next
  | .load _ _ => return .next
  | .define _ name _ _ => do
    tick
    let v ← give (functionValue (c.address k))
    declare name.name v
    return .next
  | .expr _ value => do
    let v ← value.eval c
    tick
    modify fun st => { st with implicit := v }
    return .next
  | .switch _ arms otherwise => do
    let h ← height
    let default := Block.evalOption c (k + Arm.definitionsAll arms) otherwise
    match ← Arm.evalSwitch c k false default arms with
    | .left =>
      unwind h
      tick
      return .next
    | flow => return flow
  | .branch s yes arms no => do
    let v ← readImplicit
    if ← operate s v.truthy then
      match ← Block.evalOption c k yes with
      | .next =>
        tick
        return .next
      | flow => return flow
    else
      let k := k + Block.definitionsOption yes
      Arm.evalBranch c k (Block.evalOption c (k + Arm.definitionsAll arms) no) arms
  | .cast s name target => do
    let v ← readName c name
    let v ← perform s fun heap => v.cast heap target
    writeName name v
    return .next
  | .leave _ => return .left
  | .loop _ _ _ update (.mk _ body) => do
    let outside ← height
    LoopUpdate.start update
    let inside ← height
    match ← iterate (pass c update inside (Stmt.evalAll c k body)) (c.passes + 1) with
    | .next =>
      unwind outside
      return .next
    | flow => return flow
  | .ret s value => do
    let v ← value.eval c
    return .found v s
  | .print s args newline => do
    let v ← evalPrinted c args
    Eval.print c.settings s v newline
    return .next
  | .read s target => do
    let v ← readLine c.settings s
    writeName target v
    return .next
  | .append s target value => do
    let t ← readName c target
    let v ← value.eval c
    perform s fun heap => (t.append heap v).map ((), ·)
    return .next
  | .store s target index value => do
    let t ← readName c target
    let i ← index.eval c
    let v ← value.eval c
    perform s fun heap => (t.store heap i v).map ((), ·)
    return .next

/-- Does what statements say until one of them is left in another way than to the next. -/
def Stmt.evalAll (c : EvalContext) (k : Nat) : List Stmt → Eval Flow
  | [] => return .next
  | s :: ss => do
    match ← Stmt.eval c k s with
    | .next => Stmt.evalAll c (k + s.definitions) ss
    | flow => return flow

def Block.evalOption (c : EvalContext) (k : Nat) : Option Block → Eval Flow
  | none => return .next
  | some (.mk _ body) => inBlock (Stmt.evalAll c k body)

/-- The arms of a switch, with `entered` if a body before them was not left. The first body whose
test equals the implicit variable is entered; `default` stands behind the arms. -/
def Arm.evalSwitch (c : EvalContext) (k : Nat) (entered : Bool) (default : Eval Flow) :
    List Arm → Eval Flow
  | [] => default
  | .mk test (.mk _ body) :: arms => do
    let enter ← if entered then pure true
      else do
        let it ← readImplicit
        let v ← test.eval c
        let b ← operate test.span fun _ => .ok (it.equal v)
        tick
        pure b
    if enter then
      match ← inBlock (Stmt.evalAll c k body) with
      | .next =>
        tick
        Arm.evalSwitch c (k + Stmt.definitionsAll body) true default arms
      | flow => return flow
    else Arm.evalSwitch c (k + Stmt.definitionsAll body) false default arms

/-- The further arms of a branch: the first body whose test is true, or else `no`. -/
def Arm.evalBranch (c : EvalContext) (k : Nat) (no : Eval Flow) : List Arm → Eval Flow
  | [] => no
  | .mk test (.mk _ body) :: arms => do
    let v ← test.eval c
    if ← operate test.span v.truthy then
      match ← inBlock (Stmt.evalAll c k body) with
      | .next =>
        tick
        return .next
      | flow => return flow
    else Arm.evalBranch c (k + Stmt.definitionsAll body) no arms

end

/-- The value that a body gives its call: what it returns, `NOOB` if it is left by `GTFO`, and the
implicit variable if it runs to its end. -/
def Flow.value : Flow → Eval Value
  | .next => do
    let v ← readImplicit
    tick
    return v
  | .left => do
    let v ← give .noob
    tick
    return v
  | .found v _ => do
    tick
    return v

/-- Calls a function from a call that is `depth` deep. The callee has variables of its own, and the
caller finds its own again. `fuel` bounds how deep calls are nested. -/
def Function.call (l : Linked) : Nat → Nat → Function → List Value → Eval Value
  | 0, _, _, _ => throw none
  | fuel + 1, depth, f, args => do
    let caller ← get
    set { caller with vars := f.bind args, implicit := .noob }
    let flow ← Stmt.evalAll ⟨l, depth + 1, f.outer, fuel, Function.call l fuel (depth + 1)⟩ f.first
      f.body
    let v ← flow.value
    modify fun st => { st with vars := caller.vars, implicit := caller.implicit }
    return v

/-- The end of a run whose last statement has been left. -/
def Flow.finish (s : Settings) : Flow → Eval Empty
  | .next => do
    tick
    throw (some .fellOff)
  | .left => throw (some .stuck)
  | .found v span => do
    print s span v true
    throw (some .found)

/-- A whole run, which has at most as many steps as there is fuel. -/
def Program.eval (p : Program) (l : Linked) (fuel : Nat) : Eval Empty := do
  let flow ← Stmt.evalAll ⟨l, 1, [], fuel, Function.call l fuel 1⟩ 0 p.body.stmts
  flow.finish l.settings

/-- The state at the start of a run. -/
def EvalState.initial (input : Text) (steps : Nat) : EvalState :=
  ⟨[], .noob, #[], input, #[], steps⟩

/-- What can be seen of a part of an evaluation and what follows it. -/
def Eval.conclude {α : Type} (r : Except (Option Finish) α × EvalState)
    (k : α → EvalState → Observation) : Observation :=
  match r with
  | (.ok a, st) => k a st
  | (.error e, st) => ⟨e, st.output, st.input⟩

/-- What can be seen of a program after some steps. -/
def Program.observe (p : Program) (address : Nat → Nat) (s : Settings) (input : Text)
    (steps : Nat) : Observation :=
  Eval.conclude (p.eval ⟨s, p.functions address, address⟩ steps (.initial input steps)) nofun

/-- What can be seen of a program after some steps, with fuel of its own. -/
def Program.observeWith (p : Program) (address : Nat → Nat) (s : Settings) (fuel : Nat) (input : Text)
    (steps : Nat) : Observation :=
  Eval.conclude (p.eval ⟨s, p.functions address, address⟩ fuel (.initial input steps)) nofun

end LolToolchain
