import LolToolchain.Cbor.Basic

/-!
Reading items. Any well-formed item is accepted: numbers in longer forms than needed, strings,
arrays and maps of indefinite length. Arrays and maps have at most `maxCount` members, and items
are nested at most `maxDepth` deep.
-/
namespace LolToolchain.Cbor

def maxCount : Nat := 131072

def maxDepth : Nat := 32

def ofBigEndian (bytes : Text) : Nat :=
  bytes.foldl (fun n b => n * 0x100 + b.toNat) 0

def split? (n : Nat) (t : Text) : Option (Text × Text) :=
  let front := t.take n
  if front.length = n then some (front, t.drop n) else none

/-- The head of an item: its major type, the low five bits of its first byte, and its number. For
indefinite lengths the number is 0. -/
structure Head where
  major : Nat
  low : Nat
  number : Nat
  deriving DecidableEq, Repr, Inhabited

def readHead? : Text → Option (Head × Text)
  | [] => none
  | b :: t =>
    let major := b.toNat / 0x20
    let low := b.toNat % 0x20
    let follow (k : Nat) := (split? k t).map fun (n, rest) => (⟨major, low, ofBigEndian n⟩, rest)
    if low < 24 then some (⟨major, low, low⟩, t)
    else match low with
      | 24 => follow 1
      | 25 => follow 2
      | 26 => follow 4
      | 27 => follow 8
      | 31 => some (⟨major, low, 0⟩, t)
      | _ => none

def Head.isOpen (h : Head) : Bool :=
  h.low == 31

def breakByte : UInt8 := 0xFF

/-- The pieces of a string of indefinite length. Each is a string of the same major type with a
length of its own. -/
def readPieces? (major : Nat) : Nat → Text → Option (List Text × Text)
  | 0, _ => none
  | fuel + 1, t =>
    if t.head? = some breakByte then some ([], t.drop 1)
    else do
      let (h, rest) ← readHead? t
      if h.major ≠ major ∨ h.isOpen then none
      else
        let (piece, rest) ← split? h.number rest
        let (pieces, rest) ← readPieces? major fuel rest
        return (piece :: pieces, rest)

def readString? (h : Head) (t : Text) : Option (List Text × Text) :=
  if h.isOpen then readPieces? h.major (t.length + 1) t
  else do
    let (piece, rest) ← split? h.number t
    return ([piece], rest)

/-- A simple value or float whose head has been read; a simple value of two bytes is at least 32. -/
def primitive? (h : Head) : Option Cbor :=
  match h.low with
  | 25 => some (.float (FloatWidth.half.widen h.number))
  | 26 => some (.float (FloatWidth.single.widen h.number))
  | 27 => some (.float ⟨h.number.toUInt64⟩)
  | 24 => if h.number < 32 then none else some (.simple h.number)
  | 31 => none
  | _ => some (.simple h.number)

def pairUp? : List Cbor → Option (List (Cbor × Cbor))
  | [] => some []
  | [_] => none
  | k :: v :: rest => (pairUp? rest).map ((k, v) :: ·)

mutual

/-- Reads one item that may have `depth` levels below it. -/
def read? : Nat → Nat → Text → Option (Cbor × Text)
  | 0, _, _ => none
  | fuel + 1, depth, t => do
    let (h, rest) ← readHead? t
    match h.major with
    | 0 => if h.isOpen then none else some (.nat h.number, rest)
    | 1 => if h.isOpen then none else some (.neg h.number, rest)
    | 2 =>
      let (pieces, rest) ← readString? h rest
      return (.bytes pieces.flatten, rest)
    | 3 =>
      let (pieces, rest) ← readString? h rest
      return (.text pieces, rest)
    | 4 =>
      let (items, rest) ← readMembers? fuel depth h 1 rest
      return (.array items, rest)
    | 5 =>
      let (items, rest) ← readMembers? fuel depth h 2 rest
      return (.map (← pairUp? items), rest)
    | 6 =>
      if h.isOpen then none
      else
        let nested := rest.head?.any fun b => b.toNat / 0x20 == 6
        if nested && depth == 0 then none
        else
          let (item, rest) ← read? fuel (if nested then depth - 1 else depth) rest
          return (.tag h.number item, rest)
    | _ =>
      let item ← primitive? h
      return (item, rest)
termination_by structural fuel _ _ => fuel

/-- The items inside an array or map whose head has been read, each member being `width` items. -/
def readMembers? : Nat → Nat → Head → Nat → Text → Option (List Cbor × Text)
  | 0, _, _, _, _ => none
  | _, 0, _, _, _ => none
  | fuel + 1, depth + 1, h, width, t => do
    if h.isOpen then
      let (items, rest) ← readUntilBreak? fuel depth t
      if maxCount * width < items.length then none else some (items, rest)
    else if maxCount < h.number then none
    else readMany? fuel depth (h.number * width) t
termination_by structural fuel _ _ _ _ => fuel

def readMany? : Nat → Nat → Nat → Text → Option (List Cbor × Text)
  | 0, _, _, _ => none
  | _, _, 0, t => some ([], t)
  | fuel + 1, depth, n + 1, t => do
    let (x, rest) ← read? fuel depth t
    let (xs, rest) ← readMany? fuel depth n rest
    return (x :: xs, rest)
termination_by structural fuel _ _ _ => fuel

def readUntilBreak? : Nat → Nat → Text → Option (List Cbor × Text)
  | 0, _, _ => none
  | fuel + 1, depth, t =>
    if t.head? = some breakByte then some ([], t.drop 1)
    else do
      let (x, rest) ← read? fuel depth t
      let (xs, rest) ← readUntilBreak? fuel depth rest
      return (x :: xs, rest)
termination_by structural fuel _ _ => fuel

end

/-- The one item that a text consists of. Each byte is met by at most three calls. -/
def decode? (t : Text) : Option Cbor := do
  let (item, rest) ← read? (3 * t.length + 3) maxDepth t
  if rest.isEmpty then some item else none

end LolToolchain.Cbor
