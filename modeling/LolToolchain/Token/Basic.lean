import LolToolchain.Token.Keyword
import LolToolchain.Source.Span
import LolToolchain.Text.Quoted

/-!
Tokens: the words, numbers, strings and marks of a source text. A fraction is three tokens, two
numbers around a dot.
-/
namespace LolToolchain

/-- A variable named inside a string; `offset` is the length of the decoded text before it. -/
structure Insertion where
  offset : Nat
  name : Text
  span : Span
  deriving DecidableEq, Repr, Inhabited

/-- What a token says. Numbers keep their digits and strings their decoded text. -/
inductive Lexeme where
  | endOfInput
  | lineBreak
  | number (digits : Text)
  | string (text : Text) (insertions : List Insertion)
  | identifier (name : Text)
  | question
  | bang
  | dot
  | keyword (word : Keyword) (spelling : Text)
  deriving DecidableEq, Repr, Inhabited

inductive TokenKind where
  | endOfInput
  | lineBreak
  | number
  | string
  | interpolated
  | identifier
  | question
  | bang
  | dot
  | keyword (word : Keyword)
  deriving DecidableEq, Repr, Inhabited

namespace TokenKind

/-- The classes in their fixed order. -/
def all : List TokenKind :=
  [.endOfInput, .lineBreak, .number, .string, .interpolated, .identifier, .question, .bang, .dot]
    ++ Keyword.all.map .keyword

def code (k : TokenKind) : Nat :=
  all.idxOf k

def ofCode? (n : Int) : Option TokenKind :=
  if n < 0 then none else all[n.toNat]?

def name : TokenKind → Text
  | .endOfInput => "end of input"
  | .lineBreak => "line break"
  | .number => "number"
  | .string => "string"
  | .interpolated => "string"
  | .identifier => "identifier"
  | .question => "?"
  | .bang => "!"
  | .dot => "."
  | .keyword k => k.word

/-- The name of the class with a number; numbers without a class are shown as they are. -/
def nameOfCode (n : Int) : Text :=
  match ofCode? n with
  | some k => k.name
  | none => "Token(" ++ Text.ofInt n ++ ")"

end TokenKind

/-- The class of a lexeme; a string that names variables has a class of its own. -/
def Lexeme.kind : Lexeme → TokenKind
  | .endOfInput => .endOfInput
  | .lineBreak => .lineBreak
  | .number _ => .number
  | .string _ [] => .string
  | .string _ (_ :: _) => .interpolated
  | .identifier _ => .identifier
  | .question => .question
  | .bang => .bang
  | .dot => .dot
  | .keyword k _ => .keyword k

def Lexeme.text : Lexeme → Text
  | .number digits => digits
  | .string text _ => text
  | .identifier name => name
  | .keyword _ spelling => spelling
  | _ => []

structure Token where
  lexeme : Lexeme
  span : Span
  deriving DecidableEq, Repr, Inhabited

namespace Token

def kind (t : Token) : TokenKind :=
  t.lexeme.kind

/-- A token in messages; long strings are cut after twenty bytes. -/
def describe (t : Token) : Text :=
  match t.lexeme with
  | .number digits => "number " ++ digits
  | .string text _ =>
    if 20 < text.length then "string " ++ Text.quoted (text.take 20) ++ "..."
    else "string " ++ Text.quoted text
  | .identifier name => "identifier " ++ name
  | _ => t.kind.name

end Token
end LolToolchain
