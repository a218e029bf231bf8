import LolToolchain.Text.Glyph
import LolToolchain.Toml.Basic
import LolToolchain.Toml.Moment

/-! Documents read from text. A document is refused as a whole at its first fault. -/
namespace LolToolchain.Toml

def isSpace (b : UInt8) : Bool := b == 0x20 || b == 0x09

def isBreak (b : UInt8) : Bool := b == 0x0A || b == 0x0D

def isDigit (b : UInt8) : Bool := 0x30 ≤ b && b ≤ 0x39

/-- Letters, digits, `_` and `-`, of which keys are made that need no quotes. -/
def isBare (b : UInt8) : Bool :=
  isDigit b || (0x41 ≤ b && b ≤ 0x5A) || (0x61 ≤ b && b ≤ 0x7A) || b == 0x5F || b == 0x2D

def skipSpace (t : Text) : Text := t.dropWhile isSpace

def skipComment : Text → Text
  | 0x23 :: t => t.dropWhile fun b => !isBreak b
  | t => t

def skipLines : Nat → Text → Text
  | 0, t => t
  | fuel + 1, t =>
    match t with
    | [] => []
    | b :: rest =>
      if isSpace b || isBreak b then skipLines fuel rest
      else if b == 0x23 then skipLines fuel (skipComment t)
      else t

/-- Whether a text can be a document at all: well-formed UTF-8 without controls other than tabs and
line ends. -/
def isClean : Text → Bool
  | [] => true
  | 0x0D :: t => t.head? == some 0x0A && isClean t
  | b :: t => (b == 0x09 || b == 0x0A || (0x20 ≤ b && b != 0x7F)) && isClean t

def escapedCode? (n : Nat) (t : Text) : Option (Text × Text) := do
  let front := t.take n
  if front.length ≠ n then none
  else
    let code ← wholeOf? 16 front
    if code < 0xD800 ∨ (0xE000 ≤ code ∧ code < 0x110000) then
      some (Text.encodeChar (Char.ofNat code), t.drop n)
    else none

/-- What an escape stands for; the backslash has been read. -/
def escape? : Text → Option (Text × Text)
  | 0x62 :: t => some ([0x08], t)
  | 0x74 :: t => some ([0x09], t)
  | 0x6E :: t => some ([0x0A], t)
  | 0x66 :: t => some ([0x0C], t)
  | 0x72 :: t => some ([0x0D], t)
  | 0x65 :: t => some ([0x1B], t)
  | 0x22 :: t => some ([0x22], t)
  | 0x5C :: t => some ([0x5C], t)
  | 0x78 :: t => escapedCode? 2 t
  | 0x75 :: t => escapedCode? 4 t
  | 0x55 :: t => escapedCode? 8 t
  | _ => none

/-- A string on one line, up to its closing mark; in double quotes it may have escapes. -/
def readString? (mark : UInt8) : Nat → Text → Option (Text × Text)
  | 0, _ => none
  | _, [] => none
  | fuel + 1, b :: t =>
    if b = mark then some ([], t)
    else if isBreak b then none
    else if b = 0x5C ∧ mark = 0x22 then do
      let (c, t) ← escape? t
      let (s, t) ← readString? mark fuel t
      return (c ++ s, t)
    else do
      let (s, t) ← readString? mark fuel t
      return (b :: s, t)

/-- How many marks in a row can end a string on several lines: the closing three, and two that
belong to it, or three behind an escaped backslash. -/
def maxMarks (afterBackslash : Bool) : Nat :=
  if afterBackslash then 6 else 5

/-- A string on several lines. In double quotes a backslash at the end of a line removes the white
space that follows. `afterBackslash` says whether an escaped backslash was read last. -/
def readLongString? (mark : UInt8) : Nat → Bool → Text → Option (Text × Text)
  | 0, _, _ => none
  | _, _, [] => none
  | fuel + 1, afterBackslash, b :: t =>
    if b = mark then
      let run := (b :: t).takeWhile (· == mark)
      if run.length < 3 then do
        let (s, t) ← readLongString? mark fuel false ((b :: t).drop run.length)
        return (run ++ s, t)
      else if run.length ≤ maxMarks afterBackslash then
        some (run.drop 3, (b :: t).drop run.length)
      else none
    else if b = 0x5C ∧ mark = 0x22 then
      let gap := t.takeWhile fun c => isSpace c || isBreak c
      if gap.contains 0x0A then readLongString? mark fuel false (t.drop gap.length)
      else do
        let (c, rest) ← escape? t
        let (s, rest) ← readLongString? mark fuel (t.head? == some 0x5C) rest
        return (c ++ s, rest)
    else do
      let (s, t) ← readLongString? mark fuel false t
      return (b :: s, t)

/-- A line end at the start of a string on several lines does not count. -/
def dropFirstBreak : Text → Text
  | 0x0D :: 0x0A :: t => t
  | 0x0A :: t => t
  | t => t

def readQuoted? (mark : UInt8) (t : Text) : Option (Text × Text) :=
  match t with
  | a :: b :: rest =>
    if a = mark ∧ b = mark then readLongString? mark (rest.length + 1) false (dropFirstBreak rest)
    else readString? mark (t.length + 1) t
  | t => readString? mark (t.length + 1) t

def readKeyPart? : Text → Option (Text × Text)
  | 0x22 :: t => readString? 0x22 (t.length + 1) t
  | 0x27 :: t => readString? 0x27 (t.length + 1) t
  | t =>
    let part := t.takeWhile isBare
    if part.isEmpty then none else some (part, t.drop part.length)

def readKey? : Nat → Text → Option (TomlKey × Text)
  | 0, _ => none
  | fuel + 1, t => do
    let (part, t) ← readKeyPart? (skipSpace t)
    match skipSpace t with
    | 0x2E :: t => do
      let (key, t) ← readKey? fuel t
      return (part :: key, t)
    | t => return ([part], t)

/-- Whether each underscore stands between digits. -/
def underscoresFit (t : Text) : Bool :=
  go false t
where
  go (after : Bool) : Text → Bool
    | [] => after
    | b :: t => (b != 0x5F || after) && go (digitOf? 16 b).isSome t

def hasLeadingZero : Text → Bool
  | 0x30 :: b :: _ => !(b == 0x62 || b == 0x6F || b == 0x78)
  | 0x2D :: 0x30 :: _ :: _ | 0x2B :: 0x30 :: _ :: _ => true
  | _ => false

def withoutUnderscores (t : Text) : Text := t.filter (· != 0x5F)

def integer? (t : Text) : Option Toml :=
  if !underscoresFit t || hasLeadingZero t then none
  else
    let inBase (base : Nat) (t : Text) : Option Toml := do
      let n ← wholeOf? base t
      return .integer (← Numbr.ofInt? n)
    match withoutUnderscores t with
    | 0x30 :: 0x78 :: t => inBase 16 t
    | 0x30 :: 0x6F :: t => inBase 8 t
    | 0x30 :: 0x62 :: t => inBase 2 t
    | t => (readNumbr? t).map .integer

def isFloatMark (b : UInt8) : Bool := b == 0x2E || b == 0x65 || b == 0x45

def pointsFit : Text → Bool
  | [] => true
  | [b] => b != 0x2E
  | b :: c :: t => (b != 0x2E || isDigit c) && pointsFit (c :: t)

/-- The pieces between points and exponent marks that are not empty. -/
def floatPieces (t : Text) : List Text :=
  ((t.splitBy fun a b => !isFloatMark a && !isFloatMark b)).filter fun p =>
    !(p.head?.any isFloatMark)

def float? (t : Text) : Option Toml :=
  let pieces := floatPieces t
  if pieces.all underscoresFit && !(pieces.head?.any hasLeadingZero) && pointsFit t then
    (Numbar.read? (withoutUnderscores t)).map .float
  else none

/-- A number or moment that starts with a digit or sign: how far it reaches is told by its
characters, whether it is well-formed is looked at afterwards. -/
def readNumber? (t : Text) : Option (Toml × Text) :=
  let signed := t.head?.any fun b => b == 0x2B || b == 0x2D
  let lead := if signed then 1 else 0
  let body := t.drop lead
  let special := [("inf" : Text), "nan"].find? (·.isPrefixOf body)
  let cut (n : Nat) (read : Text → Option Toml) : Option (Toml × Text) :=
    (read (t.take n)).map fun v => (v, t.drop n)
  match special with
  | some word =>
    let value := if word = "inf" then Numbar.infinity else Numbar.nan
    cut (lead + word.length) fun _ => some (.float value)
  | none =>
    let based := match body with
      | 0x30 :: b :: d :: _ =>
        if b == 0x78 then (digitOf? 16 d).isSome
        else if b == 0x6F then (digitOf? 8 d).isSome
        else b == 0x62 && (digitOf? 2 d).isSome
      | _ => false
    if based then
      if signed then none
      else
        let base := if body[1]? = some 0x78 then 16 else if body[1]? = some 0x6F then 8 else 2
        let more := (body.drop 2).takeWhile fun b => (digitOf? base b).isSome || b == 0x5F
        cut (2 + more.length) integer?
    else
      let plain := body.takeWhile isDigit
      if plain.isEmpty then none
      else
        let next := (body.drop plain.length).head?
        if !signed && plain.length ≥ 2 && next.any fun b => b == 0x2D || b == 0x3A then
          let whole := t.takeWhile fun b => isDigit b || [0x2D, 0x3A, 0x54, 0x74, 0x20, 0x2E, 0x5A,
            0x7A, 0x2B].contains b
          let trimmed := Text.dropRightWhile isSpace whole
          if isMoment trimmed then some (.moment trimmed, t.drop whole.length) else none
        else
          let number := body.takeWhile fun b => isDigit b || b == 0x5F
          let after := body.drop number.length
          if after.head?.any isFloatMark then
            let more := after.takeWhile fun b => isDigit b || isFloatMark b
              || b == 0x5F || b == 0x2D || b == 0x2B
            cut (lead + number.length + more.length) float?
          else cut (lead + number.length) integer?

mutual

def readValue? : Nat → Text → Option (TomlSource × Text)
  | 0, _ => none
  | fuel + 1, t =>
    match skipSpace t with
    | [] => none
    | 0x5B :: t => do
      let (items, t) ← readItems? fuel t
      return (.array items, t)
    | 0x7B :: t => do
      let (entries, t) ← readEntries? fuel t
      return (.inline entries, t)
    | b :: t =>
      if b == 0x22 || b == 0x27 then do
        let (s, t) ← readQuoted? b t
        return (.value (.string s), t)
      else if ("true" : Text).isPrefixOf (b :: t) then some (.value (.boolean true), t.drop 3)
      else if ("false" : Text).isPrefixOf (b :: t) then some (.value (.boolean false), t.drop 4)
      else do
        let (v, t) ← readNumber? (b :: t)
        return (.value v, t)

/-- The rest of an array. -/
def readItems? : Nat → Text → Option (List TomlSource × Text)
  | 0, _ => none
  | fuel + 1, t =>
    match skipLines t.length t with
    | 0x5D :: t => some ([], t)
    | t => do
      let (v, t) ← readValue? fuel t
      match skipLines t.length t with
      | 0x2C :: t => do
        let (vs, t) ← readItems? fuel t
        return (v :: vs, t)
      | 0x5D :: t => return ([v], t)
      | _ => none

def readEntries? : Nat → Text → Option (List (TomlKey × TomlSource) × Text)
  | 0, _ => none
  | fuel + 1, t =>
    match skipLines t.length t with
    | 0x7D :: t => some ([], t)
    | t => do
      let (e, t) ← readEntry? fuel t
      match skipLines t.length t with
      | 0x2C :: t => do
        let (es, t) ← readEntries? fuel t
        return (e :: es, t)
      | 0x7D :: t => return ([e], t)
      | _ => none

def readEntry? : Nat → Text → Option ((TomlKey × TomlSource) × Text)
  | 0, _ => none
  | fuel + 1, t => do
    let (key, t) ← readKey? (t.length + 1) t
    match t with
    | 0x3D :: t =>
      let (v, t) ← readValue? fuel t
      return ((key, v), t)
    | _ => none

end

/-- Skips the end of a line: blanks, a comment, and a line end unless the text is over. -/
def endLine? (t : Text) : Option Text :=
  match skipComment (skipSpace t) with
  | [] => some []
  | b :: t => if isBreak b then some t else none

def readLine? (t : Text) : Option (TomlLine × Text) :=
  match t with
  | 0x5B :: 0x5B :: t => do
    let (key, t) ← readKey? (t.length + 1) t
    match t with
    | 0x5D :: 0x5D :: t => return (.tables key, t)
    | _ => none
  | 0x5B :: t => do
    let (key, t) ← readKey? (t.length + 1) t
    match t with
    | 0x5D :: t => return (.table key, t)
    | _ => none
  | t => do
    let ((key, v), t) ← readEntry? (3 * t.length + 3) t
    return (.entry key v, t)

def readLines? : Nat → Text → Option (List TomlLine)
  | 0, _ => none
  | fuel + 1, t =>
    match skipLines t.length t with
    | [] => some []
    | t => do
      let (line, t) ← readLine? t
      let t ← endLine? t
      return line :: (← readLines? fuel t)

def withoutMark : Text → Text
  | 0xEF :: 0xBB :: 0xBF :: t => t
  | 0xFF :: 0xFE :: t => t
  | 0xFE :: 0xFF :: t => t
  | t => t

def parse? (t : Text) : Option TomlTable := do
  let t := withoutMark t
  if !t.isUtf8 || !isClean t then none
  else TomlTable.ofLines? (← readLines? (t.length + 1) t)

end LolToolchain.Toml
