import LolToolchain.Numbar.Basic

/-! The floating-point number nearest to a ratio; of two at the same distance the even one. -/
namespace LolToolchain.Numbar

/-- Quotient rounded to the nearest whole number, halves to the even one. -/
def roundDiv (num den : Nat) : Nat :=
  let q := num / den
  let twice := 2 * (num % den)
  if den < twice || (twice == den && q % 2 == 1) then q + 1 else q

/-- `n · 2 ^ e` as a pair of factors, one of them a power of two above and one below the line. -/
def scaleUp (e : Int) : Nat := Nat.pow 2 e.toNat
def scaleDown (e : Int) : Nat := Nat.pow 2 (-e).toNat

/-- The greatest `k` with `2 ^ k ≤ num / den`, for positive arguments. -/
def floorLog (num den : Nat) : Int :=
  let k : Int := (num.log2 : Int) - den.log2
  if den * scaleUp k ≤ num * scaleDown k then k else k - 1

/-- The pattern, without sign, of the number nearest to a positive ratio. The significand gets 53
bits unless the exponent would fall below -1074; a carry out of it moves into the exponent field,
and what lies beyond the greatest finite number is infinity. -/
def nearestMagnitude (num den : Nat) : Nat :=
  let e := max (-1074) (floorLog num den - 52)
  let q := roundDiv (num * scaleDown e) (den * scaleUp e)
  min ((e + 1074).toNat * hiddenBit + q) infinityBits

def nearest (negative : Bool) (num den : Nat) : Numbar :=
  ofMagnitude negative (if num = 0 then 0 else nearestMagnitude num den)

def ofInt (n : Int) : Numbar :=
  nearest (n < 0) n.natAbs 1

def ofScaled (negative : Bool) (m : Nat) (e : Int) : Numbar :=
  nearest negative (m * scaleUp e) (scaleDown e)

end LolToolchain.Numbar
