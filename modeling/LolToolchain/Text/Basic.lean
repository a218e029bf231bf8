/-!
Texts are byte strings: program sources, messages and string values may hold bytes that are not
well-formed UTF-8, so nothing here assumes that they are.
-/
namespace LolToolchain

/-- A byte string, usually but not always UTF-8. -/
abbrev Text := List UInt8

namespace Text

def encodeChar (c : Char) : Text :=
  let n := c.toNat
  if n < 0x80 then [n.toUInt8]
  else if n < 0x800 then [(0xC0 + n / 0x40).toUInt8, (0x80 + n % 0x40).toUInt8]
  else if n < 0x10000 then
    [(0xE0 + n / 0x1000).toUInt8, (0x80 + n / 0x40 % 0x40).toUInt8, (0x80 + n % 0x40).toUInt8]
  else
    [(0xF0 + n / 0x40000).toUInt8, (0x80 + n / 0x1000 % 0x40).toUInt8,
      (0x80 + n / 0x40 % 0x40).toUInt8, (0x80 + n % 0x40).toUInt8]

def ofChars (cs : List Char) : Text :=
  cs.flatMap encodeChar

def ofString (s : String) : Text :=
  ofChars s.toList

instance : Coe String Text := ⟨ofString⟩

def ofNat (n : Nat) : Text :=
  ofChars (Nat.toDigits 10 n)

def ofInt : Int → Text
  | .ofNat n => ofNat n
  | .negSucc n => "-" ++ ofNat (n + 1)

def repeated (n : Nat) (b : UInt8) : Text :=
  List.replicate n b

/-- A natural number in lower-case hexadecimal, padded with zeros to `width` digits. -/
def ofHex (width n : Nat) : Text :=
  let digits := ofChars (Nat.toDigits 16 n)
  repeated (width - digits.length) 0x30 ++ digits

def upperByte (b : UInt8) : UInt8 :=
  if 0x61 ≤ b && b ≤ 0x7A then b - 0x20 else b

/-- An integer in upper-case hexadecimal; zeros pad the whole text, sign included, to `width`. -/
def ofHexUpper (width : Nat) (n : Int) : Text :=
  let digits := (ofChars (Nat.toDigits 16 n.natAbs)).map upperByte
  if n < 0 then "-" ++ repeated (width - 1 - digits.length) 0x30 ++ digits
  else repeated (width - digits.length) 0x30 ++ digits

def join (sep : Text) (ts : List Text) : Text :=
  sep.intercalate ts

/-- `width` columns, the text at the right. -/
def padLeft (width : Nat) (t : Text) : Text :=
  repeated (width - t.length) 0x20 ++ t

def contains (part : Text) : Text → Bool
  | [] => part.isEmpty
  | b :: t => part.isPrefixOf (b :: t) || contains part t

/-- The text up to the first occurrence of `part`, when there is one. -/
def before? (part : Text) : Text → Option Text
  | [] => if part.isEmpty then some [] else none
  | b :: t => if part.isPrefixOf (b :: t) then some [] else (before? part t).map (b :: ·)

/-- The pieces of the text between occurrences of a byte; always at least one piece. -/
def splitOn (sep : UInt8) : Text → List Text
  | [] => [[]]
  | b :: t =>
    if b = sep then [] :: splitOn sep t
    else match splitOn sep t with
      | [] => [[b]]
      | piece :: rest => (b :: piece) :: rest

/-- Byte order, which for UTF-8 is code point order. -/
def less : Text → Text → Bool
  | _, [] => false
  | [], _ :: _ => true
  | a :: s, b :: t => a < b || (a == b && less s t)

def dropRightWhile (p : UInt8 → Bool) (t : Text) : Text :=
  (t.reverse.dropWhile p).reverse

end Text
end LolToolchain
