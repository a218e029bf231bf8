import LolToolchain.Bytecode.Value

/-!
The operand stack: the cells below the height. Cells above it keep what was in them until they are
pushed over, so that a stack can be raised again to a height it has had.
-/
namespace LolToolchain

structure Stack where
  cells : Array Value
  height : Nat
  deriving DecidableEq, Repr, Inhabited

namespace Stack

def empty : Stack := ⟨#[], 0⟩

/-- The values on the stack, bottom first. -/
def toList (s : Stack) : List Value :=
  s.cells.toList.take s.height

def push (s : Stack) (v : Value) : Stack :=
  if s.height < s.cells.size then ⟨s.cells.setIfInBounds s.height v, s.height + 1⟩
  else ⟨s.cells.push v, s.height + 1⟩

def get? (s : Stack) (i : Nat) : Option Value :=
  if i < s.height then s.cells[i]? else none

def set (s : Stack) (i : Nat) (v : Value) : Stack :=
  { s with cells := s.cells.setIfInBounds i v }

def top? (s : Stack) : Option Value :=
  if s.height = 0 then none else s.get? (s.height - 1)

/-- The top `n` values, the lowest first. -/
def topMost? (s : Stack) (n : Nat) : Option (Array Value) :=
  if n ≤ s.height then some (s.cells.extract (s.height - n) s.height) else none

def drop (s : Stack) (n : Nat) : Stack :=
  { s with height := s.height - n }

/-- Lowers the stack to a height, or raises it again. -/
def cutTo (s : Stack) (height : Nat) : Stack :=
  { s with height }

end Stack
end LolToolchain
