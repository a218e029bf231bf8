import LolToolchain.Bytecode.Listing
import LolToolchain.Machine.Basic

/-! The instructions, one step of a run, and runs. -/
namespace LolToolchain

namespace Action

/-- Replaces the two top values by a result. -/
def binary (f : Heap → Value → Value → Except Fault Value) : Action Unit := do
  let b ← pop
  let a ← pop
  push (← lift (f (← heap) a b))

def unary (f : Heap → Value → Except Fault Value) : Action Unit := do
  let a ← pop
  push (← lift (f (← heap) a))

/-- Enters the function below the top `argc` values. -/
def call (c : Chunk) (s : Settings) (argc : Nat) : Action Unit := do
  let m ← get
  if m.stack.height < m.base + argc + 1 then fail .stackUnderflow
  let place := m.stack.height - argc - 1
  match m.stack.get? place with
  | some (.funkshon offset) =>
    let target := offset.toInt
    if target = Numbr.greatest then fail .malformed
    if target < 0 ∨ (c.code.size : Int) ≤ target + 1
        ∨ c.byteAt target.toNat ≠ Opcode.fnDef.byte then
      fail (.noFunction target)
    let arity := (c.byteAt (target.toNat + 1)).toNat
    if arity ≠ argc then fail (.arity arity argc)
    if s.maxFrames ≤ m.frames.length then fail .stackOverflow
    set { m with
      frames := ⟨m.next, place + 1, m.implicit⟩ :: m.frames
      implicit := .noob
      next := target + Opcode.fnDef.length }
  | some v => fail (.notCallable v.kindName)
  | none => fail .malformed

/-- Leaves the current function with a value. At the top level the value is printed, and the run
is over. -/
def ret (s : Settings) : Action Unit := do
  let v ← pop
  let m ← get
  match m.frames with
  | f :: g :: rest =>
    set { m with
      frames := g :: rest
      stack := (m.stack.cutTo (f.base - 1)).push v
      next := f.returnTo
      implicit := f.saved }
  | _ =>
    print s v true
    throw .halted

/-- Replaces the top values by a template filled with their texts. -/
def interpolate (c : Chunk) (n : Nat) : Action Unit := do
  match c.pool.get? n with
  | some (.interp (some t)) =>
    let vs ← topMost t.offsets.length
    let heap ← heap
    let parts ← lift (vs.toList.mapM (Value.text heap))
    drop t.offsets.length
    match t.fill parts with
    | some text => push (.yarn text)
    | none => fail .malformed
  | some (.interp none) => fail .malformed
  | _ => fail (.notTemplate n)

/-- Does the work of an instruction whose operand is at `operand`. -/
def execute (c : Chunk) (s : Settings) (operand : Nat) (i : Instruction) : Action Unit := do
  let n := i.arg
  match i.op with
  | .nop | .fnDef => pure ()
  | .pop => discard pop
  | .popN | .popNLong =>
    let m ← get
    if m.stack.height < m.base + n then fail .stackUnderflow
    drop n
  | .loadConst | .loadConstLong =>
    match c.pool.get? n with
    | some v => push v
    | none => fail (.constantRange n)
  | .readSt | .readStLong =>
    let place ← slot n
    match (← get).stack.get? place with
    | some v => push v
    | none => fail .malformed
  | .writeSt | .writeStLong =>
    let v ← pop
    let place ← slot n
    modify fun m => { m with stack := m.stack.set place v }
  | .readIt => push (← get).implicit
  | .writeIt =>
    let v ← pop
    modify fun m => { m with implicit := v }
  | .add => binary fun _ => Arithmetic.add.eval
  | .sub => binary fun _ => Arithmetic.sub.eval
  | .mul => binary fun _ => Arithmetic.mul.eval
  | .div => binary fun _ => Arithmetic.div.eval
  | .mod => binary fun _ => Arithmetic.mod.eval
  | .min => binary fun _ => Arithmetic.min.eval
  | .max => binary fun _ => Arithmetic.max.eval
  | .equal => binary fun _ a b => .ok (.troof (a.equal b))
  | .notEqual => binary fun _ a b => .ok (.troof (!a.equal b))
  | .gt => binary fun _ a b => (Comparison.gt.eval a b).map .troof
  | .lt => binary fun _ a b => (Comparison.lt.eval a b).map .troof
  | .ge => binary fun _ a b => (Comparison.ge.eval a b).map .troof
  | .le => binary fun _ a b => (Comparison.le.eval a b).map .troof
  | .and => binary fun h a b => do
    if ← a.truthy h then return .troof (← b.truthy h) else return .troof false
  | .or => binary fun h a b => do
    if ← a.truthy h then return .troof true else return .troof (← b.truthy h)
  | .xor => binary fun h a b => do return .troof ((← a.truthy h) != (← b.truthy h))
  | .not => unary fun h a => do return .troof (!(← a.truthy h))
  | .concat => binary fun h a b => do return .yarn ((← a.text h) ++ (← b.text h))
  | .interp | .interpLong => interpolate c n
  | .cast =>
    let v ← pop
    match TypeName.ofCode? n.toUInt8 with
    | none => fail (.unknownCast n)
    | some t =>
      let (v, heap) ← lift (v.cast (← heap) t)
      modify fun m => { m with heap, stack := m.stack.push v }
  | .list | .listLong =>
    let vs ← topMost n
    drop n
    modify fun m => { m with heap := m.heap.push vs, stack := m.stack.push (.bukkit m.heap.size) }
  | .append =>
    let v ← pop
    let target ← pop
    let m ← get
    match target.append m.heap v with
    | .ok heap => set { m with heap }
    | .error f => fail f
  | .getIndex => binary Value.pick
  | .setIndex =>
    let v ← pop
    let index ← pop
    let target ← pop
    let m ← get
    match target.store m.heap index v with
    | .ok heap => set { m with heap }
    | .error f => fail f
  | .front => unary fun h v => v.pickEnd h false
  | .back => unary fun h v => v.pickEnd h true
  | .len => unary Value.count
  | .jump => modify fun m => { m with next := c.readJump operand }
  | .jumpIfFalse =>
    let v ← pop
    if !(← lift (v.truthy (← heap))) then
      modify fun m => { m with next := c.readJump operand }
  | .call => call c s n
  | .ret => ret s
  | .print =>
    let v ← pop
    print s v (n ≠ 0)
  | .read => push (.yarn (← readLine s))
  | .halt => throw .halted

def traceText (t : Text) : Action Unit :=
  modify fun m => { m with trace := m.trace ++ t }

def traceStep (c : Chunk) : Action Unit := do
  let m ← get
  let values ← lift ((m.stack.toList.mapM (Value.inspect m.heap)).mapError Fault.ofUnprintable)
  traceText ("          [" ++ Text.join ", " values ++ "]\n")
  match c.describe m.heap m.next with
  | .error f => traceText (Chunk.line m.next ("; " ++ f.listing c m.next))
  | .ok (text, _) => traceText (Chunk.line m.next (← lift (text.mapError Fault.ofUnprintable)))

def step (c : Chunk) (s : Settings) : Action Unit := do
  if c.code.size ≤ (← get).next then fail .pastEnd
  if s.tracing then traceStep c
  let here := (← get).next
  modify fun m => { m with current := here }
  match c.fetch here with
  | .error .outside => fail .malformed
  | .error (.invalid b) => fail (.invalidOpcode b here.toNat)
  | .error (.truncated op) => fail (.truncated op here.toNat)
  | .ok i =>
    modify fun m => { m with next := here + i.op.length }
    execute c s (here.toNat + 1) i

end Action

namespace Machine

def step (c : Chunk) (s : Settings) (m : Machine) : Except Ending Unit × Machine :=
  Action.step c s m

/-- A run of at most as many steps as there is fuel. -/
def runFor (c : Chunk) (s : Settings) : Nat → Machine → Option Ending × Machine
  | 0, m => (none, m)
  | fuel + 1, m =>
    match m.step c s with
    | (.ok (), m) => runFor c s fuel m
    | (.error e, m) => (some e, m)

/-- The failure of a run that has ended, or that is stopped because its fuel is used up. -/
def failure? (c : Chunk) (m : Machine) : Option Ending → Option Failure
  | none => some (.plain "out of fuel")
  | some .halted => none
  | some (.failed f) => some (f.failure (c.spanAt m.current))

end Machine
end LolToolchain
