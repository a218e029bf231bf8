import LolToolchain.Numbar.Digits
import LolToolchain.Text.Quoted

/-!
The values of the machine. Lists are shared: a list value is a reference into the heap, and two of
them are equal when they are the same reference.
-/
namespace LolToolchain

/-- A text with places at which other texts are inserted. Two templates made apart are told apart
by their tag, even if they say the same. -/
structure Template where
  text : Text
  offsets : List Int
  tag : Nat
  deriving DecidableEq, Repr, Inhabited

namespace Template

/-- Fills the places in order, from offset `start` of the text on; a missing part is empty. There
is no result when an offset lies before the one in front of it or behind the end. -/
def fillFrom (text : Text) (start : Int) : List Int → List Text → Option Text
  | [], _ => if 0 ≤ start ∧ start ≤ text.length then some (text.drop start.toNat) else none
  | off :: offs, parts =>
    if 0 ≤ start ∧ start ≤ off ∧ off ≤ text.length then
      (fillFrom text off offs parts.tail).map fun rest =>
        (text.take off.toNat).drop start.toNat ++ parts.headD [] ++ rest
    else none

def fill (t : Template) (parts : List Text) : Option Text :=
  fillFrom t.text 0 t.offsets parts

def misplacedFrom (size : Nat) (previous : Int) : List Int → Option Int
  | [] => none
  | off :: offs =>
    if off < previous ∨ (size : Int) < off then some off else misplacedFrom size off offs

def misplaced? (t : Template) : Option Int :=
  misplacedFrom t.text.length 0 t.offsets

end Template

/-- A value. Numbers of kinds that do not exist are kept, so that stored code can be checked. -/
inductive Value where
  | noob
  | troof (b : Bool)
  | numbr (n : Int64)
  | numbar (x : Numbar)
  | yarn (t : Text)
  | interp (t : Option Template)
  | funkshon (offset : Int64)
  | bukkit (ref : Nat)
  | unknown (kind : UInt8)
  deriving DecidableEq, Repr, Inhabited

/-- The lists of a run, by reference. -/
abbrev Heap := Array (Array Value)

/-- Why a value has no text: a part of it is missing, or a list contains itself and its text would
never end. -/
inductive Unprintable where
  | broken
  | endless
  deriving DecidableEq, Repr, Inhabited

namespace Value

def kindNames : List String :=
  ["NOOB", "TROOF", "NUMBR", "NUMBAR", "YARN", "INTERP", "FUNKSHON", "BUKKIT"]

def kindCode : Value → UInt8
  | .noob => 0
  | .troof _ => 1
  | .numbr _ => 2
  | .numbar _ => 3
  | .yarn _ => 4
  | .interp _ => 5
  | .funkshon _ => 6
  | .bukkit _ => 7
  | .unknown k => k

/-- The name of a kind; numbers without a kind are shown as they are. -/
def kindNameOfCode (k : UInt8) : Text :=
  match kindNames[k.toNat]? with
  | some name => name
  | none => "ValueKind(" ++ Text.ofNat k.toNat ++ ")"

def kindName (v : Value) : Text :=
  kindNameOfCode v.kindCode

def isNumeric : Value → Bool
  | .numbr _ | .numbar _ => true
  | _ => false

/-- Whether a value counts as true; a value with a part missing counts as neither. -/
def truthy? (heap : Heap) : Value → Option Bool
  | .noob => some false
  | .troof b => some b
  | .numbr n => some (n != 0)
  | .numbar x => some (!x.isZero)
  | .yarn t => some (!t.isEmpty)
  | .interp t => t.map fun t => !t.text.isEmpty || !t.offsets.isEmpty
  | .funkshon _ => some true
  | .bukkit r => heap[r]?.map fun elems => !elems.isEmpty
  | .unknown _ => some false

/-- Equality of values. Numbers are compared by value across their two kinds; lists and templates
are equal only to themselves, and a kind that does not exist has no equal values. -/
def equal : Value → Value → Bool
  | .noob, .noob => true
  | .troof a, .troof b => a == b
  | .numbr a, .numbr b => a == b
  | .numbr a, .numbar y => (Numbar.ofInt a.toInt).equal y
  | .numbar x, .numbr b => x.equal (Numbar.ofInt b.toInt)
  | .numbar x, .numbar y => x.equal y
  | .yarn a, .yarn b => a == b
  | .interp a, .interp b => a == b
  | .funkshon a, .funkshon b => a == b
  | .bukkit a, .bukkit b => a == b
  | _, _ => false

/-- The text of a value as programs print it. `depth` bounds how deep lists are nested. -/
def renderTo (heap : Heap) : Nat → Value → Except Unprintable Text
  | _, .noob => .ok "NOOB"
  | _, .troof b => .ok (if b then "WIN" else "FAIL")
  | _, .numbr n => .ok (Text.ofInt n.toInt)
  | _, .numbar x => .ok x.render
  | _, .yarn t => .ok t
  | _, .interp none => .error .broken
  | _, .interp (some t) => .ok t.text
  | _, .funkshon off => .ok ("<FUNKSHON at 0x" ++ Text.ofHexUpper 0 off.toInt ++ ">")
  | _, .unknown _ => .ok "?"
  | 0, .bukkit _ => .error .endless
  | depth + 1, .bukkit r =>
    match heap[r]? with
    | none => .error .broken
    | some elems => do
      let parts ← elems.toList.mapM (renderTo heap depth)
      return "[" ++ Text.join ", " parts ++ "]"

/-- The text of a value as programs print it. Lists that do not contain themselves are nested no
deeper than there are lists. -/
def render (heap : Heap) (v : Value) : Except Unprintable Text :=
  v.renderTo heap (heap.size + 1)

def renderOffsets (offs : List Int) : Text :=
  "[" ++ Text.join " " (offs.map Text.ofInt) ++ "]"

/-- The text of a value in listings and traces, where strings are quoted. -/
def inspect (heap : Heap) : Value → Except Unprintable Text
  | .yarn t => .ok t.quoted
  | .interp none => .error .broken
  | .interp (some t) => .ok ("interp " ++ t.text.quoted ++ " " ++ renderOffsets t.offsets)
  | v => v.render heap

/-- What a constant is found again by: the number of its kind, a whole number, the bits of a float
and a text, each zero or empty where the kind has no use for it. -/
structure Key where
  kind : UInt8
  number : Int64 := 0
  bits : UInt64 := 0
  text : Text := []
  deriving DecidableEq, Repr

/-- The key of a constant; that of a template is its text, a zero byte and its offsets, in one text.
Lists, kinds that do not exist and interpolations without a template have none. -/
def key? (v : Value) : Option Key :=
  match v with
  | .noob => some { kind := v.kindCode }
  | .troof b => some { kind := v.kindCode, number := if b then 1 else 0 }
  | .numbr n | .funkshon n => some { kind := v.kindCode, number := n }
  | .numbar x => some { kind := v.kindCode, bits := x.bits }
  | .yarn t => some { kind := v.kindCode, text := t }
  | .interp (some t) => some { kind := v.kindCode, text := t.text ++ 0 :: renderOffsets t.offsets }
  | .interp none | .bukkit _ | .unknown _ => none

/-- Whether two constants may share one place: both have a key, and it is the same. -/
def shares (v w : Value) : Bool :=
  v.key?.isSome && v.key? == w.key?

def retag (tag : Nat) : Value → Value
  | .interp (some t) => .interp (some { t with tag })
  | v => v

end Value
end LolToolchain
