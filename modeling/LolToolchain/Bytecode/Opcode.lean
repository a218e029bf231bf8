import LolToolchain.Text.Basic

/-!
The instructions of the machine. Those with a number come with a one-byte and a three-byte form;
jumps carry four bytes.
-/
namespace LolToolchain

inductive Opcode where
  | nop | pop | popN | popNLong | loadConst | loadConstLong | readSt | readStLong | writeSt
  | writeStLong | readIt | writeIt | add | sub | mul | div | mod | min | max | equal | notEqual
  | gt | lt | ge | le | and | or | xor | not | concat | interp | interpLong | cast | list
  | listLong | append | getIndex | setIndex | front | back | len | jump | jumpIfFalse | fnDef
  | call | ret | print | read | halt
  deriving DecidableEq, Repr, Inhabited

namespace Opcode

/-- What is fixed about an operation: its byte, its name, how many values it takes (`none` when
that depends on the operand) and leaves, and how many operand bytes follow. -/
structure Info where
  byte : UInt8
  name : String
  pops : Option Nat
  pushes : Nat
  operandLength : Nat

def info : Opcode → Info
  | .nop => ⟨0x00, "NOP", some 0, 0, 0⟩
  | .pop => ⟨0x01, "POP", some 1, 0, 0⟩
  | .popN => ⟨0x02, "POP_N", none, 0, 1⟩
  | .popNLong => ⟨0x03, "POP_N_LONG", none, 0, 3⟩
  | .loadConst => ⟨0x10, "LOAD_CONST", some 0, 1, 1⟩
  | .loadConstLong => ⟨0x11, "LOAD_CONST_LONG", some 0, 1, 3⟩
  | .readSt => ⟨0x20, "READ_ST", some 0, 1, 1⟩
  | .readStLong => ⟨0x21, "READ_ST_LONG", some 0, 1, 3⟩
  | .writeSt => ⟨0x22, "WRITE_ST", some 1, 0, 1⟩
  | .writeStLong => ⟨0x23, "WRITE_ST_LONG", some 1, 0, 3⟩
  | .readIt => ⟨0x24, "READ_IT", some 0, 1, 0⟩
  | .writeIt => ⟨0x25, "WRITE_IT", some 1, 0, 0⟩
  | .add => ⟨0x30, "ADD", some 2, 1, 0⟩
  | .sub => ⟨0x31, "SUB", some 2, 1, 0⟩
  | .mul => ⟨0x32, "MUL", some 2, 1, 0⟩
  | .div => ⟨0x33, "DIV", some 2, 1, 0⟩
  | .mod => ⟨0x34, "MOD", some 2, 1, 0⟩
  | .min => ⟨0x35, "MIN", some 2, 1, 0⟩
  | .max => ⟨0x36, "MAX", some 2, 1, 0⟩
  | .equal => ⟨0x40, "EQUAL", some 2, 1, 0⟩
  | .notEqual => ⟨0x41, "NOT_EQ", some 2, 1, 0⟩
  | .gt => ⟨0x42, "GT", some 2, 1, 0⟩
  | .lt => ⟨0x43, "LT", some 2, 1, 0⟩
  | .ge => ⟨0x44, "GTE", some 2, 1, 0⟩
  | .le => ⟨0x45, "LTE", some 2, 1, 0⟩
  | .and => ⟨0x48, "AND", some 2, 1, 0⟩
  | .or => ⟨0x49, "OR", some 2, 1, 0⟩
  | .xor => ⟨0x4A, "XOR", some 2, 1, 0⟩
  | .not => ⟨0x4B, "NOT", some 1, 1, 0⟩
  | .concat => ⟨0x50, "CONCAT", some 2, 1, 0⟩
  | .interp => ⟨0x51, "INTERP", none, 1, 1⟩
  | .interpLong => ⟨0x52, "INTERP_LONG", none, 1, 3⟩
  | .cast => ⟨0x53, "CAST", some 1, 1, 1⟩
  | .list => ⟨0x58, "LIST", none, 1, 1⟩
  | .listLong => ⟨0x59, "LIST_LONG", none, 1, 3⟩
  | .append => ⟨0x5A, "APPEND", some 2, 0, 0⟩
  | .getIndex => ⟨0x5B, "GET_INDEX", some 2, 1, 0⟩
  | .setIndex => ⟨0x5C, "SET_INDEX", some 3, 0, 0⟩
  | .front => ⟨0x5D, "FRONT", some 1, 1, 0⟩
  | .back => ⟨0x5E, "BACK", some 1, 1, 0⟩
  | .len => ⟨0x5F, "LEN", some 1, 1, 0⟩
  | .jump => ⟨0x60, "JUMP", some 0, 0, 4⟩
  | .jumpIfFalse => ⟨0x61, "JUMP_IF_FALSE", some 1, 0, 4⟩
  | .fnDef => ⟨0x70, "FN_DEF", some 0, 0, 1⟩
  | .call => ⟨0x71, "CALL", none, 1, 1⟩
  | .ret => ⟨0x72, "RETURN", some 1, 0, 0⟩
  | .print => ⟨0x80, "PRINT", some 1, 0, 1⟩
  | .read => ⟨0x81, "READ", some 0, 1, 0⟩
  | .halt => ⟨0xFF, "HALT", some 0, 0, 0⟩

def all : List Opcode := [
    .nop, .pop, .popN, .popNLong, .loadConst, .loadConstLong, .readSt, .readStLong, .writeSt,
    .writeStLong, .readIt, .writeIt, .add, .sub, .mul, .div, .mod, .min, .max, .equal, .notEqual,
    .gt, .lt, .ge, .le, .and, .or, .xor, .not, .concat, .interp, .interpLong, .cast, .list,
    .listLong, .append, .getIndex, .setIndex, .front, .back, .len, .jump, .jumpIfFalse, .fnDef,
    .call, .ret, .print, .read, .halt]

def ofByte? (b : UInt8) : Option Opcode :=
  match b with
  | 0x00 => some .nop
  | 0x01 => some .pop
  | 0x02 => some .popN
  | 0x03 => some .popNLong
  | 0x10 => some .loadConst
  | 0x11 => some .loadConstLong
  | 0x20 => some .readSt
  | 0x21 => some .readStLong
  | 0x22 => some .writeSt
  | 0x23 => some .writeStLong
  | 0x24 => some .readIt
  | 0x25 => some .writeIt
  | 0x30 => some .add
  | 0x31 => some .sub
  | 0x32 => some .mul
  | 0x33 => some .div
  | 0x34 => some .mod
  | 0x35 => some .min
  | 0x36 => some .max
  | 0x40 => some .equal
  | 0x41 => some .notEqual
  | 0x42 => some .gt
  | 0x43 => some .lt
  | 0x44 => some .ge
  | 0x45 => some .le
  | 0x48 => some .and
  | 0x49 => some .or
  | 0x4A => some .xor
  | 0x4B => some .not
  | 0x50 => some .concat
  | 0x51 => some .interp
  | 0x52 => some .interpLong
  | 0x53 => some .cast
  | 0x58 => some .list
  | 0x59 => some .listLong
  | 0x5A => some .append
  | 0x5B => some .getIndex
  | 0x5C => some .setIndex
  | 0x5D => some .front
  | 0x5E => some .back
  | 0x5F => some .len
  | 0x60 => some .jump
  | 0x61 => some .jumpIfFalse
  | 0x70 => some .fnDef
  | 0x71 => some .call
  | 0x72 => some .ret
  | 0x80 => some .print
  | 0x81 => some .read
  | 0xFF => some .halt
  | _ => none

def byte (op : Opcode) : UInt8 := op.info.byte

def name (op : Opcode) : Text := op.info.name

def operandLength (op : Opcode) : Nat := op.info.operandLength

/-- The bytes of an instruction, operand included. -/
def length (op : Opcode) : Nat := 1 + op.operandLength

def isJump (op : Opcode) : Bool :=
  op == .jump || op == .jumpIfFalse

/-- The name of a byte; bytes that stand for no operation are shown in hexadecimal. -/
def nameOfByte (b : UInt8) : Text :=
  match ofByte? b with
  | some op => op.name
  | none => "UNKNOWN(0x" ++ Text.ofHexUpper 2 b.toNat ++ ")"

theorem ofByte?_byte (op : Opcode) : ofByte? op.byte = some op := by
  cases op <;> rfl

end Opcode
end LolToolchain
