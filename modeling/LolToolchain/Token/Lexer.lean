import LolToolchain.Diagnostic.Basic
import LolToolchain.Text.CharName
import LolToolchain.Token.Basic
import LolToolchain.Token.Cursor

/-!
From a source text to its tokens. A fault does not end the reading: it takes the place of a token,
the text it concerns is passed over and reading goes on behind it. `step` always moves on, so
`Token.items` reaches the end of every text.
-/
namespace LolToolchain

inductive LexFault where
  | unexpected (c : Char)
  | noNumberAfterMinus
  | noBreakAfterEllipsis
  | unterminatedString
  | unterminatedEscape
  | unclosedEscape (closer : Char)
  | unknownEscape (text : Text)
  | badCodePoint (body : Text)
  | unknownCharName (body : Text)
  | notAVariable (body : Text)
  deriving DecidableEq, Repr, Inhabited

namespace LexFault

def kind : LexFault → Diagnostic.Kind
  | .unexpected _ | .noNumberAfterMinus | .noBreakAfterEllipsis => .unexpectedCharacter
  | .unterminatedString => .badGrammar
  | _ => .invalidEscape

def message : LexFault → Text
  | .unexpected c => "unexpected character " ++ Text.quotedChar c
  | .noNumberAfterMinus => "expected a number after '-'"
  | .noBreakAfterEllipsis => "expected a line break after '...'"
  | .unterminatedString => "unterminated string"
  | .unterminatedEscape => "unterminated escape sequence"
  | .unclosedEscape closer => "unterminated escape sequence, expected " ++ Text.quotedChar closer
  | .unknownEscape text => "unknown escape sequence " ++ text.quoted
  | .badCodePoint body => "invalid code point " ++ body.quoted
  | .unknownCharName body => "unknown character name " ++ body.quoted
  | .notAVariable body => body.quoted ++ " is not a variable name"

def toDiagnostic (f : LexFault) (span : Span) : Diagnostic :=
  .new f.kind span f.message

end LexFault

namespace Lexer

def isDigit (c : Char) : Bool :=
  '0' ≤ c && c ≤ '9'

def startsName (c : Char) : Bool :=
  ('a' ≤ c && c ≤ 'z') || ('A' ≤ c && c ≤ 'Z') || c == '_'

def continuesName (c : Char) : Bool :=
  startsName c || isDigit c

def isGap (c : Char) : Bool :=
  c == ' ' || c == '\t'

/-- Whether a text can name a variable. -/
def isName (t : Text) : Bool :=
  match t.glyphs.map Glyph.toChar with
  | [] => false
  | c :: cs => startsName c && cs.all continuesName

def hexDigit? (b : UInt8) : Option Nat :=
  if 0x30 ≤ b && b ≤ 0x39 then some (b.toNat - 0x30)
  else if 0x41 ≤ b && b ≤ 0x46 then some (b.toNat - 0x37)
  else if 0x61 ≤ b && b ≤ 0x66 then some (b.toNat - 0x57)
  else none

/-- The character whose code point a text gives in hexadecimal. -/
def charOfHex? (body : Text) : Option Char := do
  let digits ← body.trimmed.mapM hexDigit?
  if digits.isEmpty then none
  else
    let n := digits.foldl (fun acc d => acc * 16 + d) 0
    if h : n.isValidChar then some (Char.ofNatAux n h) else none

/-- An item of a source text, a token or a fault, and where reading goes on behind it. -/
structure Scanned where
  item : Except Diagnostic Token
  next : Cursor
  deriving Inhabited

def token (file : Int) (start : Nat) (next : Cursor) (lexeme : Lexeme) : Scanned :=
  ⟨.ok ⟨lexeme, next.spanFrom file start⟩, next⟩

def fault (file : Int) (start : Nat) (next : Cursor) (f : LexFault) : Scanned :=
  ⟨.error (f.toDiagnostic (next.spanFrom file start)), next⟩

/-- Past a run of line ends; CR LF counts as one and a lone CR ends the run. -/
def skipBreaks (c : Cursor) : Cursor :=
  go c.pos c.rest
where
  go (pos : Nat) : List Glyph → Cursor
    | .char '\n' :: rest => go (pos + 1) rest
    | .char '\r' :: .char '\n' :: rest => go (pos + 2) rest
    | rest => ⟨pos, rest⟩

/-- Past the rest of a line that an ellipsis continues: blanks and one line end. Anything else is
passed over as a fault. -/
def continuation (file : Int) (c : Cursor) : Except Scanned Cursor :=
  let c := c.skipWhile isGap
  if c.startsWith ['\n'] then .ok (c.skip 1)
  else if c.startsWith ['\r', '\n'] then .ok (c.skip 2)
  else
    let span : Span := ⟨c.pos, c.pos + 1, file⟩
    .error ⟨.error (LexFault.noBreakAfterEllipsis.toDiagnostic span), c.skip 1⟩

/-- Past a comment that runs to the end of its line; the line end stays. -/
def skipLineComment (c : Cursor) : Cursor :=
  go c.pos c.rest
where
  go (pos : Nat) : List Glyph → Cursor
    | [] => ⟨pos, []⟩
    | .char '\n' :: rest => ⟨pos, .char '\n' :: rest⟩
    | .char '\r' :: .char '\n' :: rest => ⟨pos, .char '\r' :: .char '\n' :: rest⟩
    | g :: rest => go (pos + g.width) rest

/-- Past a comment that runs to the word TLDR, or to the end of the text without it. -/
def skipBlockComment (c : Cursor) : Cursor :=
  go c.pos c.rest
where
  go (pos : Nat) : List Glyph → Cursor
    | [] => ⟨pos, []⟩
    | .char 'T' :: .char 'L' :: .char 'D' :: .char 'R' :: rest => ⟨pos + 4, rest⟩
    | g :: rest => go (pos + g.width) rest

inductive Escape where
  | char (c : Char)
  | insertion (name : Text)
  deriving DecidableEq, Repr, Inhabited

/-- The text between the current glyph and `closer`, and the place behind `closer`. The end of the
string or of the input before it is a fault. -/
def delimited (file : Int) (escape : Nat) (closer : Char) (c : Cursor) :
    Except Scanned (Text × Cursor) :=
  let inner := c.skip 1
  let body := inner.ahead fun ch => ch != closer && ch != '"'
  let behind := inner.past body
  if behind.startsWith [closer] then .ok (Text.ofGlyphs body, behind.skip 1)
  else .error (fault file escape behind (.unclosedEscape closer))

/-- The escape whose colon is at offset `escape` and whose second character is at the cursor. -/
def escape [CharNames] (file : Int) (escape : Nat) (c : Cursor) :
    Except Scanned (Escape × Cursor) :=
  match c.peek? 0 with
  | none => .error (fault file escape c .unterminatedEscape)
  | some ':' => .ok (.char ':', c.skip 1)
  | some '"' => .ok (.char '"', c.skip 1)
  | some ')' => .ok (.char '\n', c.skip 1)
  | some '>' => .ok (.char '\t', c.skip 1)
  | some 'o' => .ok (.char '\x07', c.skip 1)
  | some '(' => do
    let (body, behind) ← delimited file escape ')' c
    match charOfHex? body with
    | some ch => .ok (.char ch, behind)
    | none => .error (fault file escape behind (.badCodePoint body))
  | some '[' => named ']'
  | some '<' => named '>'
  | some '{' => do
    let (body, behind) ← delimited file escape '}' c
    if isName body then .ok (.insertion body, behind)
    else .error (fault file escape behind (.notAVariable body))
  | some _ =>
    .error (fault file escape (c.skip 1)
      (.unknownEscape (Text.ofGlyphs (.char ':' :: c.rest.take 1))))
where
  named (closer : Char) : Except Scanned (Escape × Cursor) := do
    let (body, behind) ← delimited file escape closer c
    match Text.charNamed? body with
    | some ch => .ok (.char ch, behind)
    | none => .error (fault file escape behind (.unknownCharName body))

theorem length_delimited_le {file : Int} {start : Nat} {closer : Char} {c : Cursor}
    {r : Text × Cursor} (h : delimited file start closer c = .ok r) :
    r.2.rest.length ≤ c.rest.length := by
  simp only [delimited] at h
  split at h
  · cases h
    simp [Cursor.skip, Cursor.past]
  · cases h

private theorem length_escape_le [CharNames] {file : Int} {start : Nat} {c behind : Cursor} {e : Escape}
    (h : escape file start c = .ok (e, behind)) : behind.rest.length ≤ c.rest.length := by
  have named {closer : Char} (h : escape.named file start c closer = .ok (e, behind)) :
      behind.rest.length ≤ c.rest.length := by
    simp only [escape.named, bind, Except.bind] at h
    split at h
    · cases h
    · rename_i hv
      split at h <;> cases h
      exact length_delimited_le hv
  simp only [escape, bind, Except.bind] at h
  repeat' split at h
  all_goals first
    | exact named h
    | cases h
  all_goals first
    | exact Cursor.length_skip_le _ _
    | exact length_delimited_le ‹_›

/-- Reads a string whose opening quote, at offset `start`, is already passed. `text` and
`insertions` are what has been read of it. -/
def stringBody [CharNames] (file : Int) (start : Nat) (text : Text) (insertions : List Insertion)
    (c : Cursor) : Scanned :=
  match hc : c.rest with
  | [] => fault file start c .unterminatedString
  | g :: _ =>
    let next := c.skip 1
    have hn : next.rest.length < c.rest.length :=
      Cursor.length_skip_lt Nat.one_pos (by simp [hc])
    if g.toChar == '"' then token file start next (.string text insertions)
    else if g.toChar == ':' then
      match he : escape file c.pos next with
      | .error s => s
      | .ok (.char ch, behind) =>
        have := length_escape_le he
        stringBody file start (text ++ Text.encodeChar ch) insertions behind
      | .ok (.insertion name, behind) =>
        have := length_escape_le he
        stringBody file start text
          (insertions ++ [⟨text.length, name, behind.spanFrom file c.pos⟩]) behind
    else stringBody file start (text ++ Text.encodeChar g.toChar) insertions next
termination_by c.rest.length

def number (file : Int) (start : Nat) (sign : Text) (c : Cursor) : Scanned :=
  token file start (c.skipWhile isDigit) (.number (sign ++ Text.ofGlyphs (c.ahead isDigit)))

def word (file : Int) (start : Nat) (behind : Cursor) (name : Text) : Scanned :=
  match Keyword.ofWord? name with
  | some k => token file start behind (.keyword k name)
  | none => token file start behind (.identifier name)

/-- What stands at a place of a source text: its end, something to pass over, or an item. -/
inductive Step where
  | stop
  | gap (next : Cursor)
  | item (s : Scanned)
  deriving Inhabited

def Step.next? : Step → Option Cursor
  | .stop => none
  | .gap next => some next
  | .item s => some s.next

def continued (file : Int) (c : Cursor) : Step :=
  match continuation file c with
  | .ok behind => .gap behind
  | .error s => .item s

def named (file : Int) (c : Cursor) : Step :=
  let name := Text.ofGlyphs (c.ahead continuesName)
  let behind := c.skipWhile continuesName
  if name == "BTW" then .gap (skipLineComment behind)
  else if name == "OBTW" then .gap (skipBlockComment behind)
  else .item (word file c.pos behind name)

def step [CharNames] (file : Int) (c : Cursor) : Step :=
  match c.peek? 0 with
  | none => .stop
  | some ch =>
    let next := c.skip 1
    if isGap ch || (ch == '\r' && next.peek? 0 != some '\n') then .gap next
    else if ch == '\n' || ch == '\r' then
      .item ⟨.ok ⟨.lineBreak, ⟨c.pos, c.pos + 1, file⟩⟩, skipBreaks c⟩
    else if ch == ',' then .item (token file c.pos next .lineBreak)
    else if ch == '?' then .item (token file c.pos next .question)
    else if ch == '!' then .item (token file c.pos next .bang)
    else if c.startsWith ['.', '.', '.'] then continued file (c.skip 3)
    else if ch == '…' then continued file next
    else if ch == '.' then .item (token file c.pos next .dot)
    else if ch == '"' then .item (stringBody file c.pos [] [] next)
    else if ch == '-' then
      if (next.peek? 0).any isDigit then .item (number file c.pos "-" next)
      else .item (fault file c.pos next .noNumberAfterMinus)
    else if isDigit ch then .item (number file c.pos [] c)
    else if startsName ch then named file c
    else
      .item ⟨.error ((LexFault.unexpected ch).toDiagnostic ⟨c.pos, c.pos + 1, file⟩), next⟩

end Lexer
end LolToolchain
