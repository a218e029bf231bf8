/-!
Floating-point numbers by their 64-bit pattern. A finite number is `±significand · 2 ^ exponent`;
order and equality are read off the pattern, so they need no rounding.
-/
namespace LolToolchain

structure Numbar where
  bits : UInt64
  deriving DecidableEq, Repr, Inhabited

namespace Numbar

def zero : Numbar := ⟨0⟩
def nan : Numbar := ⟨0x7FF8000000000001⟩
def infinity : Numbar := ⟨0x7FF0000000000000⟩
def negativeInfinity : Numbar := ⟨0xFFF0000000000000⟩

/-- The bits of positive infinity, above those of every finite magnitude. -/
def infinityBits : Nat := 0x7FF0000000000000

def signBit : Nat := 0x8000000000000000

/-- The bit above the fraction, which patterns leave out but for the least numbers. -/
def hiddenBit : Nat := 0x10000000000000

def magnitude (x : Numbar) : Nat :=
  x.bits.toNat % signBit

def isNegative (x : Numbar) : Bool :=
  signBit ≤ x.bits.toNat

def isNaN (x : Numbar) : Bool :=
  infinityBits < x.magnitude

def isInfinite (x : Numbar) : Bool :=
  x.magnitude == infinityBits

def isZero (x : Numbar) : Bool :=
  x.magnitude == 0

def ofMagnitude (negative : Bool) (magnitude : Nat) : Numbar :=
  ⟨(magnitude + if negative then signBit else 0).toUInt64⟩

/-- The integer that the power of two scales in a finite number. -/
def significand (x : Numbar) : Nat :=
  let fraction := x.magnitude % hiddenBit
  if x.magnitude < hiddenBit then fraction else fraction + hiddenBit

def exponent (x : Numbar) : Int :=
  (max 1 (x.magnitude / hiddenBit) : Nat) - 1075

/-- A whole number that is ordered as the numbers are; both zeros have the same. -/
def order (x : Numbar) : Int :=
  if x.isNegative then -(x.magnitude : Int) else x.magnitude

/-- Equality of value: a NaN equals nothing, and the zeros equal each other. -/
def equal (x y : Numbar) : Bool :=
  !x.isNaN && !y.isNaN && x.order == y.order

/-- Strict order of value; a NaN is below and above nothing. -/
def less (x y : Numbar) : Bool :=
  !x.isNaN && !y.isNaN && x.order < y.order

end Numbar
end LolToolchain
