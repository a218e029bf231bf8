import LolToolchain.Source.Span

/-!
Diagnostics: what is wrong with a program, and where. A failure is a diagnostic, several of them,
or a fault of the surroundings that only has a message.
-/
namespace LolToolchain

namespace Diagnostic

/-- The classes of diagnostics; numbers without a class of their own are kept as they are. -/
inductive Kind where
  | unexpectedCharacter
  | invalidEscape
  | badGrammar
  | unmatchedBlockName
  | unknownSymbol
  | typeMismatch
  | argumentCount
  | runtime
  | unlisted (code : UInt8)
  deriving DecidableEq, Repr, Inhabited

namespace Kind

def ofCode (n : UInt8) : Kind :=
  match n with
  | 0 => .unexpectedCharacter
  | 1 => .invalidEscape
  | 2 => .badGrammar
  | 3 => .unmatchedBlockName
  | 4 => .unknownSymbol
  | 5 => .typeMismatch
  | 6 => .argumentCount
  | 7 => .runtime
  | n => .unlisted n

/-- The fixed tag of a class, for programs that read reports. -/
def tag : Kind → Text
  | .unexpectedCharacter => "unexpected-character"
  | .invalidEscape => "invalid-escape"
  | .badGrammar => "syntax"
  | .unmatchedBlockName => "unmatched-block-name"
  | .unknownSymbol => "unknown-symbol"
  | .typeMismatch => "type"
  | .argumentCount => "function-arguments"
  | .runtime => "runtime"
  | .unlisted n => "kind(" ++ Text.ofNat n.toNat ++ ")"

def description : Kind → Text
  | .unexpectedCharacter => "unexpected character"
  | .invalidEscape => "invalid escape sequence"
  | .badGrammar => "syntax error"
  | .unmatchedBlockName => "block names do not match"
  | .unknownSymbol => "unknown symbol"
  | .typeMismatch => "type mismatch"
  | .argumentCount => "wrong number of function arguments"
  | .runtime => "runtime error"
  | .unlisted _ => "unknown error"

end Kind

structure Note where
  span : Span
  message : Text
  deriving DecidableEq, Repr, Inhabited

end Diagnostic

structure Diagnostic where
  kind : Diagnostic.Kind
  span : Span
  message : Text
  notes : List Diagnostic.Note
  deriving DecidableEq, Repr, Inhabited

namespace Diagnostic

/-- A diagnostic whose only remark repeats its message. -/
def new (kind : Kind) (span : Span) (message : Text) : Diagnostic :=
  ⟨kind, span, message, [⟨span, message⟩]⟩

def annotate (d : Diagnostic) (span : Span) (message : Text) : Diagnostic :=
  { d with notes := d.notes ++ [⟨span, message⟩] }

/-- The description of the class, followed by the message if there is one. -/
def summary (d : Diagnostic) : Text :=
  if d.message.isEmpty then d.kind.description else d.kind.description ++ ": " ++ d.message

end Diagnostic

inductive Failure where
  | plain (message : Text)
  | single (d : Diagnostic)
  | many (ds : List Diagnostic)
  | within (context : Text) (cause : Failure)
  deriving DecidableEq, Repr, Inhabited

namespace Failure

/-- The failure of a list of diagnostics; no diagnostics, no failure. -/
def ofDiagnostics? : List Diagnostic → Option Failure
  | [] => none
  | [d] => some (.single d)
  | ds => some (.many ds)

def message : Failure → Text
  | .plain m => m
  | .single d => d.summary
  | .many ds => Text.join "\n" (ds.map Diagnostic.summary)
  | .within context cause => context ++ ": " ++ cause.message

def diagnostic? : Failure → Option Diagnostic
  | .plain _ => none
  | .single d => some d
  | .many _ => none
  | .within _ cause => cause.diagnostic?

def diagnostics : Failure → List Diagnostic
  | .many ds => ds
  | f => f.diagnostic?.toList

end Failure
end LolToolchain
