import LolToolchain.Numbar.Nearest
import LolToolchain.Numbr

/-!
Arithmetic on floating-point numbers. The four basic operations round to nearest; remainder,
least and greatest are exact.
-/
namespace LolToolchain.Numbar

def toFloat (x : Numbar) : Float :=
  Float.ofBits x.bits

def ofFloat (f : Float) : Numbar :=
  ⟨f.toBits⟩

def add (x y : Numbar) : Numbar := ofFloat (x.toFloat + y.toFloat)
def sub (x y : Numbar) : Numbar := ofFloat (x.toFloat - y.toFloat)
def mul (x y : Numbar) : Numbar := ofFloat (x.toFloat * y.toFloat)
def div (x y : Numbar) : Numbar := ofFloat (x.toFloat / y.toFloat)

/-- What is left of `x` after taking away `y` as often as fits; the sign is that of `x`. -/
def mod (x y : Numbar) : Numbar :=
  if x.isNaN || y.isNaN || x.isInfinite || y.isZero then nan
  else if y.isInfinite then x
  else
    let e := min x.exponent y.exponent
    let a := x.significand * scaleUp (x.exponent - e)
    let b := y.significand * scaleUp (y.exponent - e)
    ofScaled x.isNegative (a % b) e

/-- The lesser of two numbers. Negative infinity wins over NaN, and -0 is below 0. -/
def least (x y : Numbar) : Numbar :=
  if x == negativeInfinity || y == negativeInfinity then negativeInfinity
  else if x.isNaN || y.isNaN then nan
  else if x.isZero && y.isZero then (if x.isNegative then x else y)
  else if x.less y then x
  else y

/-- The greater of two numbers. Positive infinity wins over NaN, and -0 is below 0. -/
def greatest (x y : Numbar) : Numbar :=
  if x == infinity || y == infinity then infinity
  else if x.isNaN || y.isNaN then nan
  else if x.isZero && y.isZero then (if x.isNegative then y else x)
  else if y.less x then x
  else y

/-- The whole number next to `x` in the direction of zero, if it fits in 64 bits. -/
def truncate? (x : Numbar) : Option Int64 :=
  if x.isNaN || x.isInfinite then none
  else
    let whole := x.significand * scaleUp x.exponent / scaleDown x.exponent
    let n : Int := if x.isNegative then -(whole : Int) else whole
    Numbr.ofInt? n

end LolToolchain.Numbar
