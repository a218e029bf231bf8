import LolToolchain.Source.Span
import LolToolchain.Text.Glyph

/-!
Named source texts, and the line and column of an offset in them. Lines end at LF; columns count
characters. Each access to the text and to the table of its lines is checked: what would be out of
bounds has no result.
-/
namespace LolToolchain

/-- A line and a column, both counted from one. -/
structure Position where
  line : Nat
  column : Nat
  deriving DecidableEq, Repr, Inhabited

def Position.render (p : Position) : Text :=
  Text.ofNat p.line ++ ":" ++ Text.ofNat p.column

section

variable {α : Type}

/-- The element at an index; there is none outside the list. -/
def element? (xs : List α) (i : Int) : Option α :=
  if i < 0 then none else xs[i.toNat]?

/-- The elements from one index up to another, unless these are out of bounds or out of order. -/
def slice? (xs : List α) (start stop : Int) : Option (List α) :=
  if 0 ≤ start ∧ start ≤ stop ∧ stop ≤ xs.length then
    some ((xs.take stop.toNat).drop start.toNat)
  else none

end

/-- The least index from `low` on at which `test` holds, or `high` if it holds at none below, found
by halving; `test` holds at every index behind one at which it holds. -/
def search? (test : Nat → Option Bool) (low high : Nat) : Option Nat :=
  if low < high then
    let middle := (low + high) / 2
    (test middle).bind fun found =>
      if found then search? test low middle else search? test (middle + 1) high
  else some low
termination_by high - low

structure Source where
  name : Text
  text : Text
  deriving DecidableEq, Repr, Inhabited

/-- The sources of a run, by file number. -/
abbrev Sources := List Source

namespace Source

def startsFrom (offset : Nat) : Text → List Nat
  | [] => []
  | b :: t => if b = 0x0A then (offset + 1) :: startsFrom (offset + 1) t else startsFrom (offset + 1) t

def lineStarts (s : Source) : List Nat :=
  0 :: startsFrom 0 s.text

/-- The number of lines; a final line may be empty. -/
def lineCount (s : Source) : Nat :=
  s.lineStarts.length

def clamp (s : Source) (offset : Int) : Nat :=
  min offset.toNat s.text.length

/-- The line and column of an offset, which is first clamped to the text. -/
def position? (s : Source) (offset : Int) : Option Position := do
  let o := s.clamp offset
  let starts := s.lineStarts
  let begun ← search? (fun i => starts[i]?.map fun start => decide (o < start)) 0 starts.length
  let start ← element? starts ((begun : Int) - 1)
  let before ← slice? s.text start o
  pure ⟨begun, Text.charCount before + 1⟩

/-- Where a line stops: in front of the line end, or with the text. -/
def stop? (s : Source) (n : Int) : Option Int :=
  let starts := s.lineStarts
  if n < starts.length then (element? starts n).map fun next : Nat => (next : Int) - 1
  else some s.text.length

/-- Where the part of a text up to `stop` ends without a final CR. -/
def beforeReturn? (t : Text) (start stop : Int) : Option Int :=
  if start < stop then (element? t (stop - 1)).map fun b => if b = 0x0D then stop - 1 else stop
  else some stop

/-- The text of a line without its line end; empty for a line that does not exist. -/
def line? (s : Source) (n : Int) : Option Text := do
  let starts := s.lineStarts
  if n < 1 ∨ (starts.length : Int) < n then pure []
  else
    let start ← element? starts (n - 1)
    let stop ← s.stop? n
    let stop ← beforeReturn? s.text start stop
    slice? s.text start stop

/-- The position as it is shown; `position?` never fails. -/
def position (s : Source) (offset : Int) : Position :=
  (s.position? offset).getD default

/-- The line as it is shown; `line?` never fails. -/
def line (s : Source) (n : Int) : Text :=
  (s.line? n).getD []

end Source

def Sources.get? (sources : Sources) (file : Int) : Option Source :=
  if file < 0 then none else sources[file.toNat]?

end LolToolchain
