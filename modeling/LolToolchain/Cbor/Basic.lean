import LolToolchain.Numbar.Nearest
import LolToolchain.Text.Basic

/-!
Items of the concise binary object representation, and their canonical form: the shortest head for
each number, and for each float the narrowest of three widths that keeps its value.
-/
namespace LolToolchain

/-- A data item. The negative number of `n` is `-1 - n`. A text may come in pieces. -/
inductive Cbor where
  | nat (n : Nat)
  | neg (n : Nat)
  | bytes (b : Text)
  | text (pieces : List Text)
  | array (items : List Cbor)
  | map (entries : List (Cbor × Cbor))
  | tag (n : Nat) (item : Cbor)
  | simple (n : Nat)
  | float (x : Numbar)
  deriving Inhabited

/-- A float format: the bits of its fraction, the exponent of its least unit, and the pattern of
its infinity. -/
structure FloatWidth where
  fraction : Nat
  least : Int
  infinity : Nat
  deriving DecidableEq, Repr, Inhabited

namespace FloatWidth

def half : FloatWidth := ⟨10, -24, 0x7C00⟩
def single : FloatWidth := ⟨23, -149, 0x7F800000⟩

def step (w : FloatWidth) : Nat :=
  Nat.pow 2 w.fraction

def sign (w : FloatWidth) : Nat :=
  w.infinity + w.step

/-- The pattern of a finite number in a narrower format, if that keeps its value. -/
def narrow? (w : FloatWidth) (x : Numbar) : Option Nat :=
  let signBit := if x.isNegative then w.sign else 0
  let m := x.significand
  if m = 0 then some signBit
  else
    let unit := max w.least ((m.log2 : Int) + x.exponent - w.fraction)
    let up := Numbar.scaleUp (x.exponent - unit)
    let down := Numbar.scaleDown (x.exponent - unit)
    if m * up % down ≠ 0 then none
    else
      let pattern := (unit - w.least).toNat * w.step + m * up / down
      if w.infinity ≤ pattern then none else some (signBit + pattern)

def widen (w : FloatWidth) (pattern : Nat) : Numbar :=
  let negative := w.sign ≤ pattern
  let magnitude := pattern % w.sign
  let fraction := magnitude % w.step
  if magnitude = w.infinity then .ofMagnitude negative Numbar.infinityBits
  else if w.infinity < magnitude then
    .ofMagnitude negative (Numbar.infinityBits ||| 0x8000000000000 ||| fraction * (Numbar.hiddenBit / w.step))
  else if magnitude < w.step then .ofScaled negative fraction w.least
  else .ofScaled negative (fraction + w.step)
    (w.least + (magnitude / w.step : Nat) - 1)

end FloatWidth

namespace Cbor

def bigEndian : Nat → Nat → Text
  | 0, _ => []
  | k + 1, n => (n / Nat.pow 0x100 k).toUInt8 :: bigEndian k n

/-- The head of an item: three bits of major type, and a number in its shortest form. -/
def head (major n : Nat) : Text :=
  let first (low : Nat) : UInt8 := (major * 0x20 + low).toUInt8
  if n < 24 then [first n]
  else if n < 0x100 then first 24 :: bigEndian 1 n
  else if n < 0x10000 then first 25 :: bigEndian 2 n
  else if n < 0x100000000 then first 26 :: bigEndian 4 n
  else first 27 :: bigEndian 8 n

/-- A float in the narrowest format; there is one form for all NaNs. -/
def encodeFloat (x : Numbar) : Text :=
  if x.isNaN then [0xF9, 0x7E, 0x00]
  else if x.isInfinite then [0xF9, if x.isNegative then 0xFC else 0x7C, 0x00]
  else match FloatWidth.half.narrow? x with
    | some n => 0xF9 :: bigEndian 2 n
    | none =>
      match FloatWidth.single.narrow? x with
      | some n => 0xFA :: bigEndian 4 n
      | none => 0xFB :: bigEndian 8 x.bits.toNat

mutual

def encode : Cbor → Text
  | .nat n => head 0 n
  | .neg n => head 1 n
  | .bytes b => head 2 b.length ++ b
  | .text pieces => head 3 pieces.flatten.length ++ pieces.flatten
  | .array xs => head 4 xs.length ++ encodeAll xs
  | .map es => head 5 es.length ++ encodeEntries es
  | .tag n x => head 6 n ++ encode x
  | .simple n => head 7 n
  | .float x => encodeFloat x

def encodeAll : List Cbor → Text
  | [] => []
  | x :: xs => encode x ++ encodeAll xs

def encodeEntries : List (Cbor × Cbor) → Text
  | [] => []
  | (k, v) :: es => encode k ++ encode v ++ encodeEntries es

end

def null : Cbor := .simple 22

def ofBool (b : Bool) : Cbor := .simple (if b then 21 else 20)

def ofInt : Int → Cbor
  | .ofNat n => .nat n
  | .negSucc n => .neg n

def ofText (t : Text) : Cbor := .text [t]

end Cbor
end LolToolchain
