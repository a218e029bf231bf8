import LolToolchain.Text.Basic

/-! Spans: half-open ranges of byte offsets in one source. -/
namespace LolToolchain

/-- The bytes from `start` up to `stop` of the source numbered `file`. -/
structure Span where
  start : Int
  stop : Int
  file : Int
  deriving DecidableEq, Repr, Inhabited

namespace Span

def zero : Span := ⟨0, 0, 0⟩

/-- A span from two ends in either order. -/
def ofEnds (a b file : Int) : Span :=
  if b < a then ⟨b, a, file⟩ else ⟨a, b, file⟩

def length (s : Span) : Int :=
  s.stop - s.start

/-- The smallest span that covers both; the file is the first span's. -/
def cover (s t : Span) : Span :=
  ⟨min s.start t.start, max s.stop t.stop, s.file⟩

def render (s : Span) : Text :=
  Text.ofInt s.file ++ ":" ++ Text.ofInt s.start ++ ".." ++ Text.ofInt s.stop

end Span
end LolToolchain
