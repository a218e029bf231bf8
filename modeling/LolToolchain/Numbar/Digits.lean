import LolToolchain.Numbar.Nearest
import LolToolchain.Text.Basic

/-!
The decimal text of a floating-point number: the fewest digits that read back as the number, the
nearest such decimal when there are several, written positionally without an exponent.
-/
namespace LolToolchain.Numbar

/-- The ratio `value / unit` and the ends of the interval of ratios that round to the same number,
all over one denominator. -/
structure Window where
  low : Nat
  value : Nat
  high : Nat
  den : Nat
  closed : Bool

/-- The interval of reals that round to a positive finite number. Its ends are half a step away;
below a power of two steps are half as wide. They round to the number when it is even. -/
def window (x : Numbar) : Window :=
  let m := x.significand
  let e := x.exponent - 2
  let below := if m == hiddenBit && decide (2 * hiddenBit ≤ x.magnitude) then 1 else 2
  ⟨(4 * m - below) * scaleUp e, 4 * m * scaleUp e, (4 * m + 2) * scaleUp e, scaleDown e,
    m % 2 == 0⟩

/-- The least `k` with `num / den < 10 ^ k`, for positive arguments. -/
def decimalExponent (num den : Nat) : Int :=
  if den ≤ num then (Nat.toDigits 10 (num / den)).length
  else
    let d := (Nat.toDigits 10 (den / num)).length
    if den ≤ num * Nat.pow 10 (d - 1) then 2 - (d : Int) else 1 - (d : Int)

/-- The whole number of units `10 ^ e` that reads back as the number, if there is one: of the two
next to the value the nearer, and of two at the same distance the even one. -/
def onGrid? (w : Window) (e : Int) : Option Nat :=
  let up := Nat.pow 10 (-e).toNat
  let unit := w.den * Nat.pow 10 e.toNat
  let inside (n : Nat) : Bool :=
    if w.closed then w.low * up ≤ n * unit && n * unit ≤ w.high * up
    else w.low * up < n * unit && n * unit < w.high * up
  let n := w.value * up / unit
  match inside n, inside (n + 1) with
  | false, false => none
  | true, false => some n
  | false, true => some (n + 1)
  | true, true => some (roundDiv (w.value * up) unit)

def normalize (fuel : Nat) (n : Nat) (e : Int) : Nat × Int :=
  match fuel with
  | 0 => (n, e)
  | fuel + 1 => if n % 10 == 0 && n != 0 then normalize fuel (n / 10) (e + 1) else (n, e)

/-- The shortest decimal `n · 10 ^ e` that reads back as a positive finite number. Seventeen digits
are always enough. -/
def shortest (x : Numbar) : Nat × Int :=
  let w := x.window
  let k := decimalExponent w.value w.den
  let found := (List.range 17).findSome? fun (i : Nat) =>
    (onGrid? w (k - (i + 1))).map fun n => (n, k - ((i : Int) + 1))
  let (n, e) := found.getD (w.value / w.den, 0)
  normalize 20 n e

def positional (n : Nat) (e : Int) : Text :=
  let digits := Text.ofNat n
  if 0 ≤ e then digits ++ Text.repeated e.toNat 0x30
  else
    let places := (-e).toNat
    let padded := Text.repeated (places + 1 - digits.length) 0x30 ++ digits
    padded.take (padded.length - places) ++ "." ++ padded.drop (padded.length - places)

def render (x : Numbar) : Text :=
  if x.isNaN then "NAN"
  else if x.isInfinite then (if x.isNegative then "-INF" else "INF")
  else
    let sign : Text := if x.isNegative then "-" else ""
    if x.isZero then sign ++ "0"
    else
      let (n, e) := x.shortest
      sign ++ positional n e

end LolToolchain.Numbar
