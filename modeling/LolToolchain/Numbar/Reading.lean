import LolToolchain.Numbar.Nearest
import LolToolchain.Numbr
import LolToolchain.Text.Basic

/-!
Numbers read from text. A floating-point text is decimal, or hexadecimal with a mandatory binary
exponent; `_` may stand between digits. The result is the number nearest to the decimal.
-/
namespace LolToolchain

def digitOf? (base : Nat) (b : UInt8) : Option Nat :=
  let n := b.toNat
  let d? :=
    if 0x30 ≤ n && n ≤ 0x39 then some (n - 0x30)
    else if 0x61 ≤ n && n ≤ 0x66 then some (n - 0x57)
    else if 0x41 ≤ n && n ≤ 0x46 then some (n - 0x37)
    else none
  d?.filter (· < base)

def takeSign : Text → Bool × Text
  | 0x2D :: t => (true, t)
  | 0x2B :: t => (false, t)
  | t => (false, t)

def wholeOf? (base : Nat) (t : Text) : Option Nat := do
  let ds ← t.mapM (digitOf? base)
  if ds.isEmpty then none else some (ds.foldl (fun n d => n * base + d) 0)

/-- A whole number in decimal with an optional sign, if it fits in 64 bits. -/
def readNumbr? (t : Text) : Option Int64 := do
  let (negative, digits) := takeSign t
  let n ← wholeOf? 10 digits
  let value : Int := if negative then -(n : Int) else n
  Numbr.ofInt? value

namespace Numbar

/-- The digits of a number while they are read: their value, whether there was any, how many stood
behind the point, and whether there was a point. -/
structure Mantissa where
  value : Nat
  any : Bool
  places : Nat
  point : Bool

def takeMantissa (base : Nat) (m : Mantissa) : Text → Mantissa × Text
  | [] => (m, [])
  | b :: t =>
    if b = 0x5F then takeMantissa base m t
    else if b = 0x2E && !m.point then takeMantissa base { m with point := true } t
    else match digitOf? base b with
      | some d =>
        takeMantissa base
          { m with value := m.value * base + d, any := true,
                   places := if m.point then m.places + 1 else m.places } t
      | none => (m, b :: t)

/-- Reads the digits of an exponent, with underscores. Past ten thousand it no longer grows: the
number is zero or infinite by then. -/
def takeExponent (e : Nat) : Text → Nat × Text
  | [] => (e, [])
  | b :: t =>
    if b = 0x5F then takeExponent e t
    else match digitOf? 10 b with
      | some d => takeExponent (if e < 10000 then e * 10 + d else e) t
      | none => (e, b :: t)

def readExponent? (t : Text) : Option (Int × Text) :=
  let (negative, digits) := takeSign t
  match digits.head?.bind (digitOf? 10) with
  | none => none
  | some _ =>
    let (e, rest) := takeExponent 0 digits
    some (if negative then -(e : Int) else e, rest)

inductive Seen where
  | nothing
  | digit
  | underscore
  | mark
  deriving DecidableEq

/-- Whether every underscore stands between two digits; `seen` is what stood before. -/
def underscoresFit (base : Nat) (seen : Seen) : Text → Bool
  | [] => seen != .underscore
  | b :: t =>
    if (digitOf? base b).isSome then underscoresFit base .digit t
    else if b = 0x5F then seen == .digit && underscoresFit base .underscore t
    else seen != .underscore && underscoresFit base .mark t

def isMark (lower b : UInt8) : Bool :=
  b == lower || b + 0x20 == lower

/-- `± value · base ^ (-places) · radix ^ e`, rounded to the nearest number; `none` when it is
beyond the greatest. -/
def assemble? (negative : Bool) (value : Nat) (radix : Nat) (e : Int) : Option Numbar :=
  let x := nearest negative (value * Nat.pow radix e.toNat) (Nat.pow radix (-e).toNat)
  if x.isInfinite then none else some x

def read? (t : Text) : Option Numbar :=
  let (negative, body) := takeSign t
  match body with
  | 0x30 :: x :: y :: rest =>
    if isMark 0x78 x then hexadecimal negative (y :: rest) else decimal negative body
  | _ => decimal negative body
where
  decimal (negative : Bool) (body : Text) : Option Numbar :=
    let (m, rest) := takeMantissa 10 ⟨0, false, 0, false⟩ body
    if !m.any || !underscoresFit 10 .nothing body then none
    else match rest with
      | [] => assemble? negative m.value 10 (-(m.places : Int))
      | b :: rest =>
        if !isMark 0x65 b then none
        else match readExponent? rest with
          | some (e, []) => assemble? negative m.value 10 (e - m.places)
          | _ => none
  hexadecimal (negative : Bool) (body : Text) : Option Numbar :=
    let (m, rest) := takeMantissa 16 ⟨0, false, 0, false⟩ body
    if !m.any || !underscoresFit 16 .digit body then none
    else match rest with
      | [] => none
      | b :: rest =>
        if !isMark 0x70 b then none
        else match readExponent? rest with
          | some (e, []) => assemble? negative m.value 2 (e - 4 * (m.places : Int))
          | _ => none

end Numbar
end LolToolchain
