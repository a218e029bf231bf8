import LolToolchain.Machine.Fault
import LolToolchain.Numbar.Arithmetic
import LolToolchain.Numbar.Reading
import LolToolchain.Program.Tree
import LolToolchain.Text.Blank

/-!
Numbers in arithmetic and orderings. An operand that is no number is converted first; as soon as
one operand is a `NUMBAR`, both are.
-/
namespace LolToolchain

inductive Number where
  | int (n : Int64)
  | float (x : Numbar)
  deriving DecidableEq, Repr, Inhabited

namespace Number

def toValue : Number → Value
  | .int n => .numbr n
  | .float x => .numbar x

def toNumbar : Number → Numbar
  | .int n => .ofInt n.toInt
  | .float x => x

/-- The number in a text, white space around it aside; a point makes it a `NUMBAR`. -/
def ofText (t : Text) : Except Fault Number :=
  let inner := t.trimmed
  if inner.any (· == 0x2E) then
    match Numbar.read? inner with
    | some x => .ok (.float x)
    | none => .error (.notNumbar t)
  else
    match readNumbr? inner with
    | some n => .ok (.int n)
    | none => .error (.notNumbr t)

/-- A value as a number: `NOOB` and `FAIL` are 0, `WIN` is 1. -/
def ofValue : Value → Except Fault Number
  | .numbr n => .ok (.int n)
  | .numbar x => .ok (.float x)
  | .noob => .ok (.int 0)
  | .troof b => .ok (.int (if b then 1 else 0))
  | .yarn t => ofText t
  | v => .error (.notNumber v.kindName)

/-- A number without its fraction; what the range of `NUMBR` does not hold is a fault. -/
def toNumbr : Number → Except Fault Int64
  | .int n => .ok n
  | .float x =>
    match x.truncate? with
    | some n => .ok n
    | none => .error (.outsideNumbr x)

end Number

inductive Arithmetic where
  | add | sub | mul | div | mod | min | max
  deriving DecidableEq, Repr, Inhabited

namespace Arithmetic

/-- Arithmetic of whole numbers wraps around at 64 bits; quotients are cut toward zero. -/
def onNumbr : Arithmetic → Int64 → Int64 → Except Fault Int64
  | .add, p, q => .ok (p + q)
  | .sub, p, q => .ok (p - q)
  | .mul, p, q => .ok (p * q)
  | .div, p, q => if q = 0 then .error .divisionByZero else .ok (p / q)
  | .mod, p, q => if q = 0 then .error .moduloByZero else .ok (p % q)
  | .min, p, q => .ok (if q < p then q else p)
  | .max, p, q => .ok (if p < q then q else p)

def onNumbar : Arithmetic → Numbar → Numbar → Numbar
  | .add, p, q => p.add q
  | .sub, p, q => p.sub q
  | .mul, p, q => p.mul q
  | .div, p, q => p.div q
  | .mod, p, q => p.mod q
  | .min, p, q => p.least q
  | .max, p, q => p.greatest q

def apply (op : Arithmetic) : Number → Number → Except Fault Number
  | .int p, .int q => (op.onNumbr p q).map .int
  | x, y => .ok (.float (op.onNumbar x.toNumbar y.toNumbar))

def eval (op : Arithmetic) (a b : Value) : Except Fault Value := do
  let x ← Number.ofValue a
  let y ← Number.ofValue b
  return (← op.apply x y).toValue

end Arithmetic

inductive Comparison where
  | gt | lt | ge | le
  deriving DecidableEq, Repr, Inhabited

namespace Comparison

def accepts : Comparison → Ordering → Bool
  | .gt, o => o == .gt
  | .lt, o => o == .lt
  | .ge, o => o != .lt
  | .le, o => o != .gt

/-- How two floats compare; a NaN compares with nothing. -/
def orderNumbar? (p q : Numbar) : Option Ordering :=
  if p.less q then some .lt
  else if q.less p then some .gt
  else if p.equal q then some .eq
  else none

def order? : Number → Number → Option Ordering
  | .int p, .int q => some (if p < q then .lt else if q < p then .gt else .eq)
  | x, y => orderNumbar? x.toNumbar y.toNumbar

def eval (op : Comparison) (a b : Value) : Except Fault Bool := do
  let x ← Number.ofValue a
  let y ← Number.ofValue b
  return (order? x y).any op.accepts

end Comparison
end LolToolchain
