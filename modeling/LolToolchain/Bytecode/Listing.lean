import LolToolchain.Bytecode.Chunk
import LolToolchain.Program.Tree

/-! Listings: chunks and single instructions in readable form. -/
namespace LolToolchain

def formatVersion : Nat := 1

def FetchFault.listing (c : Chunk) (offset : Int) : FetchFault → Text
  | .outside =>
    "offset " ++ Text.ofInt offset ++ " outside code of " ++ Text.ofNat c.code.size ++ " bytes"
  | .invalid b =>
    "invalid opcode 0x" ++ Text.ofHexUpper 2 b.toNat ++ " at offset " ++ Text.ofInt offset
  | .truncated op => "truncated " ++ op.name ++ " at offset " ++ Text.ofInt offset

namespace Chunk

/-- An instruction in readable form. A constant that has no text makes it unreadable. -/
def instructionText (c : Chunk) (heap : Heap) (offset : Nat) (i : Instruction) :
    Except Unprintable Text :=
  let plain := i.op.name ++ " " ++ Text.ofNat i.arg
  match i.op with
  | .loadConst | .loadConstLong | .interp | .interpLong =>
    match c.pool.get? i.arg with
    | none => .ok (plain ++ " ; ?")
    | some v => do return plain ++ " ; " ++ (← v.inspect heap)
  | .jump | .jumpIfFalse =>
    .ok (i.op.name ++ " -> " ++ Text.ofHexUpper 4 (c.readJump (offset + 1)))
  | .cast => .ok (plain ++ " ; " ++ TypeName.nameOfCode i.arg.toUInt8)
  | .print => .ok (if i.arg = 0 then plain ++ " ; no newline" else plain)
  | _ => .ok (if i.op.operandLength = 0 then i.op.name else plain)

/-- The instruction at an offset in readable form, and its length. -/
def describe (c : Chunk) (heap : Heap) (offset : Int) :
    Except FetchFault (Except Unprintable Text × Nat) :=
  (c.fetch offset).map fun i => (c.instructionText heap offset.toNat i, i.op.length)

def line (offset : Int) (text : Text) : Text :=
  Text.ofHexUpper 4 offset ++ "  " ++ text ++ "\n"

/-- The lines of the code from an offset on; a byte that starts no instruction ends them. Each line
is for at least one byte, so as many rounds as there are bytes are enough. -/
def codeLines (c : Chunk) (heap : Heap) : Nat → Nat → Except Unprintable Text
  | 0, _ => .ok []
  | fuel + 1, offset =>
    if c.code.size ≤ offset then .ok []
    else match c.describe heap offset with
      | .error f => .ok (line offset ("; " ++ f.listing c offset))
      | .ok (text, length) => do
        return line offset (← text) ++ (← codeLines c heap fuel (offset + length))

/-- A constant in a listing, cut to forty bytes. -/
def constantLine (heap : Heap) (place : Nat) (v : Value) : Except Unprintable Text := do
  let text ← v.inspect heap
  let text := if 40 < text.length then text.take 37 ++ "..." else text
  let kind := v.kindName
  return ";   [" ++ Text.padLeft 3 (Text.ofNat place) ++ "] "
    ++ kind ++ Text.repeated (8 - kind.length) 0x20 ++ " " ++ text ++ "\n"

def constantLines (heap : Heap) (place : Nat) : List Constant → Except Unprintable Text
  | [] => .ok []
  | c :: cs => do
    return (← constantLine heap place c.value) ++ (← constantLines heap (place + 1) cs)

def listing (c : Chunk) (heap : Heap) (title : Text) : Except Unprintable Text := do
  let heading : Text := if title.isEmpty then [] else "; === " ++ title ++ " ===\n"
  let size : Text := "; LOLCODE bytecode v" ++ Text.ofNat formatVersion ++ ", "
    ++ Text.ofNat c.code.size ++ " bytes\n\n"
  let constants : Text ←
    if c.pool.size = 0 then pure []
    else do
      let lines ← constantLines heap 0 c.pool.constants.toList
      pure ("; Constants:\n" ++ lines ++ "\n")
  return heading ++ size ++ constants ++ "; Code:\n" ++ (← c.codeLines heap c.code.size 0)

end Chunk
end LolToolchain
