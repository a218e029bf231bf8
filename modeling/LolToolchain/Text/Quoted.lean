import LolToolchain.Text.Glyph
import LolToolchain.Text.Printable

/-!
Quoted text: printable characters stand for themselves, the quote and the backslash take a
backslash, seven controls have a letter, a stray byte is written with two hexadecimal digits and
any other character with its code point.
-/
namespace LolToolchain.Text

def doubleMark : Char := Char.ofNat 0x22

def singleMark : Char := Char.ofNat 0x27

def controlLetter? (n : Nat) : Option Text :=
  match n with
  | 0x07 => some "\\a"
  | 0x08 => some "\\b"
  | 0x09 => some "\\t"
  | 0x0A => some "\\n"
  | 0x0B => some "\\v"
  | 0x0C => some "\\f"
  | 0x0D => some "\\r"
  | _ => none

def quoteChar (mark c : Char) : Text :=
  let n := c.toNat
  if c = mark || n = 0x5C then "\\" ++ encodeChar c
  else if isPrintable c then encodeChar c
  else match controlLetter? n with
    | some letter => letter
    | none =>
      if n < 0x80 then "\\x" ++ ofHex 2 n
      else if n < 0x10000 then "\\u" ++ ofHex 4 n
      else "\\U" ++ ofHex 8 n

def quoteGlyph (mark : Char) : Glyph → Text
  | .char c => quoteChar mark c
  | .stray b => "\\x" ++ ofHex 2 b.toNat

def quoted (t : Text) : Text :=
  "\"" ++ t.glyphs.flatMap (quoteGlyph doubleMark) ++ "\""

def quotedChar (c : Char) : Text :=
  "'" ++ quoteChar singleMark c ++ "'"

end LolToolchain.Text
