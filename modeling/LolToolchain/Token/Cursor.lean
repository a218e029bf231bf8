import LolToolchain.Text.Glyph
import LolToolchain.Source.Span

/-! A place in a source text while it is being read: the glyphs ahead and the offset reached. -/
namespace LolToolchain

/-- The glyphs still to be read and the byte offset of the first of them. -/
structure Cursor where
  pos : Nat
  rest : List Glyph
  deriving DecidableEq, Repr, Inhabited

namespace Cursor

def ofText (t : Text) : Cursor :=
  ⟨0, t.glyphs⟩

def spanFrom (c : Cursor) (file : Int) (start : Nat) : Span :=
  ⟨start, c.pos, file⟩

def widthOf (gs : List Glyph) : Nat :=
  gs.foldr (fun g n => g.width + n) 0

/-- The cursor after some glyphs, which are the first of those ahead. -/
def past (c : Cursor) (gs : List Glyph) : Cursor :=
  ⟨c.pos + widthOf gs, c.rest.drop gs.length⟩

def ahead (c : Cursor) (p : Char → Bool) : List Glyph :=
  c.rest.takeWhile fun g => p g.toChar

def skipWhile (c : Cursor) (p : Char → Bool) : Cursor :=
  c.past (c.ahead p)

def skip (c : Cursor) (n : Nat) : Cursor :=
  c.past (c.rest.take n)

/-- The character `n` glyphs ahead, if the text goes that far. -/
def peek? (c : Cursor) (n : Nat) : Option Char :=
  c.rest[n]?.map Glyph.toChar

def startsWith (c : Cursor) (cs : List Char) : Bool :=
  (c.rest.take cs.length).map Glyph.toChar == cs

theorem length_past (c : Cursor) (gs : List Glyph) :
    (c.past gs).rest.length = c.rest.length - gs.length := by
  simp [past]

theorem length_skipWhile_le (c : Cursor) (p : Char → Bool) :
    (c.skipWhile p).rest.length ≤ c.rest.length := by
  simp [skipWhile, past]

theorem length_skip_le (c : Cursor) (n : Nat) : (c.skip n).rest.length ≤ c.rest.length := by
  simp [skip, past]

theorem length_skip_lt {c : Cursor} {n : Nat} (hn : 0 < n) (hc : c.rest ≠ []) :
    (c.skip n).rest.length < c.rest.length := by
  have := List.length_pos_iff.2 hc
  simp [skip, past]
  omega

end Cursor
end LolToolchain
