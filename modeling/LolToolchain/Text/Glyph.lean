import LolToolchain.Text.Basic

/-!
Reading bytes as characters. Every text splits into glyphs: a well-formed UTF-8 sequence is one
character, and a byte that belongs to none stands alone and is shown as U+FFFD. Writing the glyphs
back gives the text.
-/
namespace LolToolchain

/-- One step of reading a text as UTF-8. -/
inductive Glyph where
  | char (c : Char)
  | stray (b : UInt8)
  deriving DecidableEq, Repr, Inhabited

namespace Glyph

def toChar : Glyph → Char
  | .char c => c
  | .stray _ => Char.ofNat 0xFFFD

def bytes : Glyph → Text
  | .char c => Text.encodeChar c
  | .stray b => [b]

def width (g : Glyph) : Nat :=
  g.bytes.length

def isContinuation (b : UInt8) : Bool :=
  0x80 ≤ b && b < 0xC0

def payload (b : UInt8) : Nat :=
  b.toNat % 0x40

/-- The character of a two-byte sequence; overlong forms have none. -/
def pair? (b0 b1 : UInt8) : Option Char :=
  if 0xC2 ≤ b0 && b0 < 0xE0 && isContinuation b1 then
    some (Char.ofNat (b0.toNat % 0x20 * 0x40 + payload b1))
  else none

/-- The character of a three-byte sequence; overlong forms and surrogates have none. -/
def triple? (b0 b1 b2 : UInt8) : Option Char :=
  let n := b0.toNat % 0x10 * 0x1000 + payload b1 * 0x40 + payload b2
  if 0xE0 ≤ b0 && b0 < 0xF0 && isContinuation b1 && isContinuation b2
      && decide (0x800 ≤ n) && !(decide (0xD800 ≤ n) && decide (n < 0xE000)) then
    some (Char.ofNat n)
  else none

/-- The character of a four-byte sequence; only U+10000 to U+10FFFF are written so. -/
def quad? (b0 b1 b2 b3 : UInt8) : Option Char :=
  let n := b0.toNat % 0x08 * 0x40000 + payload b1 * 0x1000 + payload b2 * 0x40 + payload b3
  if 0xF0 ≤ b0 && b0 < 0xF8 && isContinuation b1 && isContinuation b2 && isContinuation b3
      && decide (0x10000 ≤ n) && decide (n < 0x110000) then
    some (Char.ofNat n)
  else none

/-- Puts a byte in front of a text that is already split. Continuation bytes start no character,
so those that the new byte needs stand first and alone. -/
def attach (b : UInt8) (gs : List Glyph) : List Glyph :=
  if b < 0x80 then .char (Char.ofNat b.toNat) :: gs
  else match gs with
    | .stray b1 :: gs1 =>
      match pair? b b1 with
      | some c => .char c :: gs1
      | none =>
        match gs1 with
        | .stray b2 :: gs2 =>
          match triple? b b1 b2 with
          | some c => .char c :: gs2
          | none =>
            match gs2 with
            | .stray b3 :: gs3 =>
              match quad? b b1 b2 b3 with
              | some c => .char c :: gs3
              | none => .stray b :: gs
            | _ => .stray b :: gs
        | _ => .stray b :: gs
    | _ => .stray b :: gs

end Glyph

namespace Text

def glyphs (t : Text) : List Glyph :=
  t.foldr Glyph.attach []

def ofGlyphs (gs : List Glyph) : Text :=
  gs.flatMap Glyph.bytes

/-- How many characters a text is read as. -/
def charCount (t : Text) : Nat :=
  t.glyphs.length

def charAt? (t : Text) (i : Nat) : Option Char :=
  t.glyphs[i]?.map Glyph.toChar

/-- The first character; four bytes are enough to see it. -/
def firstChar? (t : Text) : Option Char :=
  (glyphs (t.take 4)).head?.map Glyph.toChar

/-- The last character; four bytes are enough to see it. -/
def lastChar? (t : Text) : Option Char :=
  (glyphs (t.drop (t.length - 4))).getLast?.map Glyph.toChar

def isUtf8 (t : Text) : Bool :=
  t.glyphs.all fun g => match g with
    | .char _ => true
    | .stray _ => false

/-- The text with each byte that belongs to no character replaced by U+FFFD. -/
def repaired (t : Text) : Text :=
  ofChars (t.glyphs.map Glyph.toChar)

end Text
end LolToolchain
