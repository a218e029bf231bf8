import LolToolchain.Token.NameTable

/-!
Words at a place in a document. Lines and places in them are counted from zero, the latter in
bytes; which bytes belong to a word is told one by one, as in Latin-1.
-/
namespace LolToolchain.Editor

structure Place where
  line : Nat
  character : Nat
  deriving DecidableEq, Repr, Inhabited

/-- Whether a byte stands for a letter, a digit or `_`. -/
def isWordByte (b : UInt8) : Bool :=
  (0x30 ≤ b && b ≤ 0x39) || (0x41 ≤ b && b ≤ 0x5A) || (0x61 ≤ b && b ≤ 0x7A) || b == 0x5F
    || b == 0xAA || b == 0xB5 || b == 0xBA || (0xC0 ≤ b && b != 0xD7 && b != 0xF7)

/-- The line of a place, split at the place; one beyond the end counts as the end. -/
def splitAt? (text : Text) (p : Place) : Option (Text × Text) :=
  (Text.splitOn 0x0A text)[p.line]?.map fun line => (line.take p.character, line.drop p.character)

def wordBefore (text : Text) (p : Place) : Text :=
  match splitAt? text p with
  | none => []
  | some (before, _) => (before.reverse.takeWhile isWordByte).reverse

def wordAt (text : Text) (p : Place) : Text :=
  match splitAt? text p with
  | none => []
  | some (_, after) => wordBefore text p ++ after.takeWhile isWordByte

/-- The distinct identifiers of a text up to its first fault, in the order in which they appear. -/
def identifiers [CharNames] (text : Text) : List Text :=
  (NameTable.ofList ((Token.untilFault (Token.items 0 text)).1.filterMap Token.name?)).names.toList

end LolToolchain.Editor
