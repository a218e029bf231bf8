import LolToolchain.Diagnostic.Basic
import LolToolchain.Bytecode.Chunk

/-!
What the compiler knows about names. The variables of a function live in stack slots, numbered from
its first parameter; the newest variable of a name hides older ones. Inside a function the names
around it are visible only as far as they are known to hold functions.
-/
namespace LolToolchain

structure KnownFunction where
  offset : Nat
  arity : Nat
  deriving DecidableEq, Repr, Inhabited

/-- A variable; `depth` counts the blocks around its declaration. -/
structure Local where
  name : Text
  depth : Nat
  function : Option KnownFunction
  deriving DecidableEq, Repr, Inhabited

inductive BreakableKind where
  | function
  | loop
  | switch
  deriving DecidableEq, Repr, Inhabited

/-- A construct around the current statement that `GTFO` can leave: the number of variables that
were live at its start, and the jumps that wait for its end. -/
structure Breakable where
  kind : BreakableKind
  locals : Nat
  exits : List Nat
  deriving DecidableEq, Repr, Inhabited

/-- The names of one function, or of the top level. Variables and constructs stand with the newest
first, so that a variable's slot is the number of those behind it. The table `slots` says which slot a
name leads to. -/
structure Scope where
  locals : List Local
  slots : Text → Option Nat
  depth : Nat
  breakables : List Breakable
  deriving Inhabited

namespace Scope

def empty : Scope := ⟨[], fun _ => none, 0, []⟩

def local? (s : Scope) (n : Nat) : Option Local :=
  s.locals.reverse[n]?

def find? (s : Scope) (name : Text) : Option (Nat × Local) := do
  let n ← s.slots name
  let l ← s.local? n
  return (n, l)

def declare (s : Scope) (name : Text) (function : Option KnownFunction) : Scope :=
  { s with
    locals := ⟨name, s.depth, function⟩ :: s.locals
    slots := fun other => if other = name then some s.locals.length else s.slots other }

/-- Forgets which function the variable in a slot holds. -/
def forgetIn (n : Nat) : List Local → List Local
  | [] => []
  | l :: ls => if ls.length = n then { l with function := none } :: ls else l :: forgetIn n ls

def forget (s : Scope) (n : Nat) : Scope :=
  { s with locals := forgetIn n s.locals }

/-- The newest slot of a name among some variables. -/
def slotIn (name : Text) : List Local → Option Nat
  | [] => none
  | l :: ls => if l.name = name then some ls.length else slotIn name ls

/-- The table when the variables of blocks beyond a depth go out of use, the newest first. Each name
leads to the next older variable of that name, if there is one. -/
def uncover (depth : Nat) : List Local → (Text → Option Nat) → Text → Option Nat
  | [], slots => slots
  | l :: ls, slots =>
    if depth < l.depth then
      uncover depth ls fun name => if name = l.name then slotIn name ls else slots name
    else slots

/-- Leaves a block: the number of variables that go out of use, and what is left. -/
def close (s : Scope) : Nat × Scope :=
  let depth := s.depth - 1
  let kept := s.locals.dropWhile fun l => depth < l.depth
  (s.locals.length - kept.length,
    { s with locals := kept, slots := uncover depth s.locals s.slots, depth })

end Scope

inductive CompileFault where
  | unknownSymbol (name : Text)
  | notVisible (name : Text)
  | notAssignable (name : Text)
  | tooManyParameters (name : Text) (count : Nat)
  | tooManyArguments (name : Text) (count : Nat)
  | arity (name : Text) (expected actual : Nat)
  | nothingToLeave
  | poolOverflow (fault : OperandFault)
  | operand (op : Opcode) (fault : OperandFault)
  deriving DecidableEq, Repr, Inhabited

namespace CompileFault

/-- The most parameters of a function and arguments of a call. -/
def maxArity : Nat := 255

def kind : CompileFault → Diagnostic.Kind
  | .unknownSymbol _ | .notVisible _ | .notAssignable _ => .unknownSymbol
  | .tooManyParameters _ _ | .tooManyArguments _ _ | .arity _ _ _ => .argumentCount
  | .nothingToLeave => .badGrammar
  | .poolOverflow _ | .operand _ _ => .runtime

def message : CompileFault → Text
  | .unknownSymbol name => "unknown symbol " ++ name
  | .notVisible name => "variable " ++ name ++ " is not visible inside a function"
  | .notAssignable name => "cannot assign to " ++ name ++ " from inside a function"
  | .tooManyParameters name n =>
    "function " ++ name ++ " takes " ++ Text.ofNat n ++ " parameters, at most "
      ++ Text.ofNat maxArity ++ " are allowed"
  | .tooManyArguments name n =>
    "call to " ++ name ++ " passes " ++ Text.ofNat n ++ " arguments, at most "
      ++ Text.ofNat maxArity ++ " are allowed"
  | .arity name expected actual =>
    "function " ++ name ++ " takes " ++ Text.ofNat expected ++ " arguments, got "
      ++ Text.ofNat actual
  | .nothingToLeave => "GTFO outside of a loop, switch or function"
  | .poolOverflow f => "constant pool overflow: " ++ f.message
  | .operand op f => op.name ++ ": " ++ f.message

def diagnostic (f : CompileFault) (span : Span) : Diagnostic :=
  .new f.kind span f.message

end CompileFault

inductive Binding where
  | slot (n : Nat) (function : Option KnownFunction)
  | outer (function : KnownFunction)
  deriving DecidableEq, Repr, Inhabited

def Binding.function? : Binding → Option KnownFunction
  | .slot _ f => f
  | .outer f => some f

namespace Scope

/-- A name that the current function does not have, looked up in the functions around it. -/
def resolveOuter (name : Text) : List Scope → Except CompileFault Binding
  | [] => .error (.unknownSymbol name)
  | s :: outer =>
    match s.find? name with
    | none => resolveOuter name outer
    | some (_, l) =>
      match l.function with
      | some f => .ok (.outer f)
      | none => .error (.notVisible name)

/-- Where a name leads from a scope inside others, the nearest of them first. -/
def resolve (s : Scope) (outer : List Scope) (name : Text) : Except CompileFault Binding :=
  match s.find? name with
  | some (n, l) => .ok (.slot n l.function)
  | none => resolveOuter name outer

end Scope
end LolToolchain
