import LolToolchain.Machine.Number

/-!
Elements of lists and characters of strings, and conversions between kinds. A reference that leads
nowhere is a fault of the code.
-/
namespace LolToolchain

namespace Value

def elements (heap : Heap) (ref : Nat) : Except Fault (Array Value) :=
  match heap[ref]? with
  | some elems => .ok elems
  | none => .error .malformed

def truthy (heap : Heap) (v : Value) : Except Fault Bool :=
  match v.truthy? heap with
  | some b => .ok b
  | none => .error .malformed

def text (heap : Heap) (v : Value) : Except Fault Text :=
  (v.render heap).mapError Fault.ofUnprintable

def toIndex (v : Value) : Except Fault Int := do
  return (← (← Number.ofValue v).toNumbr).toInt

/-- The element or character at an index. -/
def pick (heap : Heap) (source index : Value) : Except Fault Value := do
  let i ← index.toIndex
  match source with
  | .bukkit r =>
    let elems ← elements heap r
    if i < 0 then throw (.indexRange i .bukkit elems.size)
    match elems[i.toNat]? with
    | some v => return v
    | none => throw (.indexRange i .bukkit elems.size)
  | .yarn t =>
    if i < 0 then throw (.indexRange i .yarn t.charCount)
    match t.charAt? i.toNat with
    | some c => return .yarn (Text.encodeChar c)
    | none => throw (.indexRange i .yarn t.charCount)
  | v => throw (.notIndexable v.kindName)

def pickEnd (heap : Heap) (last : Bool) (source : Value) : Except Fault Value := do
  match source with
  | .bukkit r =>
    let elems ← elements heap r
    match if last then elems.back? else elems[0]? with
    | some v => return v
    | none => throw (.noElements .bukkit)
  | .yarn t =>
    match if last then t.lastChar? else t.firstChar? with
    | some c => return .yarn (Text.encodeChar c)
    | none => throw (.noElements .yarn)
  | v => throw (.notIndexable v.kindName)

def count (heap : Heap) (v : Value) : Except Fault Value := do
  match v with
  | .bukkit r => return .numbr (Int64.ofNat (← elements heap r).size)
  | .yarn t => return .numbr (Int64.ofNat t.charCount)
  | v => throw (.noLength v.kindName)

/-- The heap after a value is stored at an index of a list. -/
def store (heap : Heap) (target index v : Value) : Except Fault Heap := do
  match target with
  | .bukkit r =>
    let i ← index.toIndex
    let size := (← elements heap r).size
    if i < 0 ∨ (size : Int) ≤ i then throw (.indexRange i .bukkit size)
    return heap.modify r (·.setIfInBounds i.toNat v)
  | t => throw (.notStorable t.kindName)

def append (heap : Heap) (target v : Value) : Except Fault Heap := do
  match target with
  | .bukkit r =>
    if heap.size ≤ r then throw .malformed
    return heap.modify r (·.push v)
  | t => throw (.notAppendable t.kindName)

/-- A value as one of a type, and the heap, which has one list more when `NOOB` becomes a list. -/
def cast (heap : Heap) (v : Value) (t : TypeName) : Except Fault (Value × Heap) := do
  match t with
  | .noob => return (.noob, heap)
  | .troof => return (.troof (← v.truthy heap), heap)
  | .yarn => return (.yarn (← v.text heap), heap)
  | .numbr => return (.numbr (← (← Number.ofValue v).toNumbr), heap)
  | .numbar => return (.numbar (← Number.ofValue v).toNumbar, heap)
  | .bukkit =>
    match v with
    | .bukkit r => return (.bukkit r, heap)
    | .noob => return (.bukkit heap.size, heap.push #[])
    | v => throw (.notBukkit v.kindName)

end Value
end LolToolchain
