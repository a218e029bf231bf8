import LolToolchain.Bytecode.Value

/-!
The constant pool. Adding a constant that is already there gives its place; places never change.
-/
namespace LolToolchain

/-- Fields that a stored constant may carry although its kind has no use for them. They are kept
and written back. -/
structure Spare where
  troof : Bool := false
  numbr : Int64 := 0
  numbar : Numbar := .zero
  yarn : Text := []
  deriving DecidableEq, Repr, Inhabited

structure Constant where
  value : Value
  spare : Spare := {}
  deriving DecidableEq, Repr, Inhabited

/-- Constants by place. An indexed pool finds constants again, except those at `hidden` places,
which were put in past the index. -/
structure Pool where
  constants : Array Constant
  hidden : List Nat
  indexed : Bool
  deriving DecidableEq, Repr, Inhabited

namespace Pool

def empty : Pool := ⟨#[], [], true⟩

/-- An empty pool whose index is only built when it is first needed. -/
def unindexed : Pool := ⟨#[], [], false⟩

def size (p : Pool) : Nat :=
  p.constants.size

def get? (p : Pool) (i : Nat) : Option Value :=
  p.constants[i]?.map Constant.value

def find? (p : Pool) (v : Value) : Option Nat :=
  (List.range p.size).find? fun i =>
    !p.hidden.contains i && (p.get? i).any (·.shares v)

/-- Puts a constant at the end, past the index if there is one. -/
def push (p : Pool) (c : Constant) : Pool :=
  { p with
    constants := p.constants.push { c with value := c.value.retag p.size }
    hidden := if p.indexed then p.hidden ++ [p.size] else p.hidden }

/-- The place of a value, which is added at the end if no place holds it. -/
def share (p : Pool) (v : Value) : Nat × Pool :=
  match p.find? v with
  | some i => (i, p)
  | none => (p.size, { p with constants := p.constants.push { value := v.retag p.size } })

/-- Whether a value is an interpolation without a template, which no index can hold. -/
def isBroken : Value → Bool
  | .interp none => true
  | _ => false

def isKeyed : Value → Bool
  | .bukkit _ | .unknown _ => false
  | _ => true

/-- Builds the index if there is none. It stops at an interpolation without a template, and what
follows that stays hidden. -/
def index (p : Pool) : Bool × Pool :=
  if p.indexed then (true, p)
  else
    let known := p.constants.toList.takeWhile fun c => !isBroken c.value
    (known.length == p.size,
      { p with indexed := true, hidden := (List.range p.size).drop known.length })

/-- Adds a value to a pool that may hold anything: no place is given when an interpolation without
a template is in the way. -/
def add? (p : Pool) (v : Value) : Option Nat × Pool :=
  if isBroken v then (none, p)
  else if isKeyed v then
    let (built, p) := p.index
    if built then
      let (i, p) := p.share v
      (some i, p)
    else (none, p)
  else
    let (i, p) := p.share v
    (some i, p)

def ofList (cs : List Constant) : Pool :=
  { cs.foldl push unindexed with indexed := true }

end Pool
end LolToolchain
