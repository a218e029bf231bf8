import LolToolchain.Text.Glyph

/-!
White space at the ends of a text. The class is the Unicode property; the zero-width characters
U+200B and U+FEFF are outside it.
-/
namespace LolToolchain.Text

def isBlank (c : Char) : Bool :=
  let n := c.toNat
  (0x09 ≤ n && n ≤ 0x0D) || n == 0x20 || n == 0x85 || n == 0xA0 || n == 0x1680
    || (0x2000 ≤ n && n ≤ 0x200A) || n == 0x2028 || n == 0x2029 || n == 0x202F
    || n == 0x205F || n == 0x3000

def blankGlyph : Glyph → Bool
  | .char c => isBlank c
  | .stray _ => false

def trimmed (t : Text) : Text :=
  let inner := t.glyphs.dropWhile blankGlyph
  ofGlyphs (inner.reverse.dropWhile blankGlyph).reverse

end LolToolchain.Text
