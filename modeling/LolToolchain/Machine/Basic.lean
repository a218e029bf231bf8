import LolToolchain.Machine.Sequence
import LolToolchain.Machine.Stack

/-!
The state of a run. Each call has a frame: where to go on, where the callee's first slot is, and
the caller's implicit variable.
-/
namespace LolToolchain

structure Frame where
  returnTo : Int
  base : Nat
  saved : Value
  deriving DecidableEq, Repr, Inhabited

/-- The machine: the offset of the next instruction and of the last one begun, the stack, the
frames with the newest first, the implicit variable, the lists, the streams and the trace. -/
structure Machine where
  next : Int
  current : Int
  stack : Stack
  frames : List Frame
  implicit : Value
  heap : Heap
  input : Text
  output : Array UInt8
  trace : Array UInt8
  deriving Repr, Inhabited

/-- What a run is given beside its code and input. A stream with a fault fails at each use. -/
structure Settings where
  maxFrames : Int := 1024
  tracing : Bool := false
  outputFault : Option Text := none
  inputFault : Option Text := none
  deriving DecidableEq, Repr, Inhabited

inductive Ending where
  | halted
  | failed (f : Fault)
  deriving DecidableEq, Repr, Inhabited

namespace Machine

def idle (heap : Heap) : Machine :=
  ⟨0, 0, .empty, [], .noob, heap, [], #[], #[]⟩

/-- Gets a machine ready for a run on an input. The bottom of the stack is a `NOOB` that belongs to
no variable. -/
def start (m : Machine) (input : Text) : Machine :=
  { m with
    next := 0
    stack := (m.stack.cutTo 0).push .noob
    frames := [⟨0, 1, .noob⟩]
    implicit := .noob
    input
    output := #[]
    trace := #[] }

/-- The stack place of the first slot of the current call. -/
def base (m : Machine) : Nat :=
  match m.frames with
  | [] => 0
  | f :: _ => f.base

end Machine

/-- A part of an instruction's work. What was done before a fault stays done. -/
abbrev Action := ExceptT Ending (StateM Machine)

namespace Action

def fail {α : Type} (f : Fault) : Action α :=
  throw (.failed f)

def lift {α : Type} (r : Except Fault α) : Action α :=
  match r with
  | .ok a => pure a
  | .error f => fail f

def push (v : Value) : Action Unit :=
  modify fun m => { m with stack := m.stack.push v }

def pop : Action Value := do
  match (← get).stack.top? with
  | none => fail .malformed
  | some v =>
    modify fun m => { m with stack := m.stack.drop 1 }
    return v

/-- The top `n` values, which stay on the stack. -/
def topMost (n : Nat) : Action (Array Value) := do
  match (← get).stack.topMost? n with
  | none => fail .malformed
  | some vs => return vs

def drop (n : Nat) : Action Unit :=
  modify fun m => { m with stack := m.stack.drop n }

def heap : Action Heap := do
  return (← get).heap

def slot (n : Nat) : Action Nat := do
  let m ← get
  let i := m.base + n
  if m.stack.height ≤ i then fail (.slotRange n)
  return i

def write (s : Settings) (t : Text) : Action Unit :=
  match s.outputFault with
  | some cause => fail (.output cause)
  | none => modify fun m => { m with output := m.output ++ t }

def print (s : Settings) (v : Value) (newline : Bool) : Action Unit := do
  let t ← lift (v.text (← heap))
  write s (if newline then t ++ [0x0A] else t)

/-- The next line of the input without its end; at the end of the input it is empty. -/
def readLine (s : Settings) : Action Text := do
  match s.inputFault with
  | some cause => fail (.input cause)
  | none =>
    let m ← get
    let line := m.input.takeWhile (· != 0x0A)
    set { m with input := m.input.drop (line.length + 1) }
    return Text.dropRightWhile (· == 0x0D) line

end Action
end LolToolchain
