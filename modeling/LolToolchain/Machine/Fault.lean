import LolToolchain.Diagnostic.Basic
import LolToolchain.Bytecode.Chunk

/-! What can stop a run. -/
namespace LolToolchain

inductive Sequence where
  | bukkit
  | yarn
  deriving DecidableEq, Repr, Inhabited

def Sequence.name : Sequence → Text
  | .bukkit => "BUKKIT"
  | .yarn => "YARN"

/-- Why a run stops before its end. Up to `input` the faults are those of the language, and from
`malformed` on they are of the code that is run. Between them, `endless` is no fault that anything
reports: a program has put a list into itself, and the text it then asks for has no end. Writing such
a text takes up all room there is, so what is said of runs leaves this case apart. -/
inductive Fault where
  | notNumbr (t : Text)
  | notNumbar (t : Text)
  | notNumber (kind : Text)
  | divisionByZero
  | moduloByZero
  | outsideNumbr (x : Numbar)
  | notBukkit (kind : Text)
  | indexRange (i : Int) (sequence : Sequence) (size : Nat)
  | notIndexable (kind : Text)
  | notStorable (kind : Text)
  | notAppendable (kind : Text)
  | noElements (sequence : Sequence)
  | noLength (kind : Text)
  | notCallable (kind : Text)
  | arity (expected actual : Nat)
  | stackOverflow
  | output (cause : Text)
  | input (cause : Text)
  | endless
  | malformed
  | stackUnderflow
  | slotRange (n : Nat)
  | constantRange (n : Nat)
  | notTemplate (n : Nat)
  | noFunction (offset : Int)
  | unknownCast (n : Nat)
  | invalidOpcode (byte : UInt8) (offset : Nat)
  | truncated (op : Opcode) (offset : Nat)
  | pastEnd
  deriving DecidableEq, Repr, Inhabited

namespace Fault

def kind : Fault → Diagnostic.Kind
  | .notNumbr _ | .notNumbar _ | .notNumber _ | .notBukkit _ | .notIndexable _ | .notStorable _
  | .notAppendable _ | .noLength _ | .notCallable _ => .typeMismatch
  | .arity _ _ => .argumentCount
  | _ => .runtime

def message : Fault → Text
  | .notNumbr t => "cannot use " ++ t.quoted ++ " as a NUMBR"
  | .notNumbar t => "cannot use " ++ t.quoted ++ " as a NUMBAR"
  | .notNumber k => "cannot use a " ++ k ++ " as a number"
  | .divisionByZero => "division by zero"
  | .moduloByZero => "modulo by zero"
  | .outsideNumbr x => x.render ++ " does not fit in a NUMBR"
  | .notBukkit k => "cannot make a " ++ k ++ " into a BUKKIT"
  | .indexRange i s n =>
    "index " ++ Text.ofInt i ++ " out of range for a " ++ s.name ++ " of " ++ Text.ofNat n
  | .notIndexable k => "cannot index a " ++ k
  | .notStorable k => "cannot index into a " ++ k
  | .notAppendable k => "cannot append to a " ++ k
  | .noElements s => "empty " ++ s.name
  | .noLength k => "cannot take the length of a " ++ k
  | .notCallable k => "cannot call a " ++ k
  | .arity expected actual =>
    "function takes " ++ Text.ofNat expected ++ " arguments, got " ++ Text.ofNat actual
  | .stackOverflow => "stack overflow"
  | .output cause => "write output: " ++ cause
  | .input cause => "read input: " ++ cause
  | .endless => "list contains itself"
  | .malformed => "malformed bytecode"
  | .stackUnderflow => "stack underflow"
  | .slotRange n => "slot " ++ Text.ofNat n ++ " out of range"
  | .constantRange n => "constant " ++ Text.ofNat n ++ " out of range"
  | .notTemplate n => "constant " ++ Text.ofNat n ++ " is not a template"
  | .noFunction off => "no function at offset 0x" ++ Text.ofHexUpper 0 off
  | .unknownCast n => "unknown cast target " ++ Text.ofNat n
  | .invalidOpcode b off =>
    "invalid opcode 0x" ++ Text.ofHexUpper 2 b.toNat ++ " at offset " ++ Text.ofNat off
  | .truncated op off =>
    "truncated " ++ op.name ++ " instruction at offset " ++ Text.ofNat off
  | .pastEnd => "execution ran past the end of the code"

/-- The failure of a run that stopped at a span. Faults of the streams have no place in the
program. -/
def failure (f : Fault) (span : Span) : Failure :=
  match f with
  | .output cause => .within "write output" (.plain cause)
  | .input cause => .within "read input" (.plain cause)
  | f => .single (.new f.kind span f.message)

def ofUnprintable : Unprintable → Fault
  | .broken => .malformed
  | .endless => .endless

end Fault
end LolToolchain
